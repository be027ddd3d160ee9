import Mathlib.Data.List.AList
import Mathlib.Data.List.DropRight
import Mathlib.Tactic.Common

/- What the shim uses of GLib and the C library, on C strings as lists of
   their bytes before the terminating NUL. `char` is signed, as on x86.
   A key file is a finite map from group names to groups, in the order of the
   file, and a group one from keys to values. -/
namespace Shim

abbrev Bytes := List UInt8

/-- The bytes of an ASCII literal. -/
def ascii (s : String) : Bytes := s.toList.map (fun c => c.val.toUInt8)

/-- The byte of an ASCII character. -/
def chr (c : Char) : UInt8 := c.val.toUInt8

/-- A fact checked on every byte. -/
theorem forall_byte {P : UInt8 → Prop} (h : ∀ n < 256, P (UInt8.ofNat n)) (c : UInt8) : P c := by
  have := h c.toNat c.toNat_lt
  rwa [UInt8.ofNat_toNat] at this

def gStrHasPrefix (s p : Bytes) : Bool := p.isPrefixOf s
def gStrHasSuffix (s p : Bytes) : Bool := p.isSuffixOf s

@[simp] theorem gStrHasSuffix_iff {s p : Bytes} : gStrHasSuffix s p = true ↔ p <:+ s :=
  List.isSuffixOf_iff_suffix

/-! Character classes. -/

def gAsciiIsdigit (c : UInt8) : Bool := chr '0' ≤ c && c ≤ chr '9'
def gAsciiIsupper (c : UInt8) : Bool := chr 'A' ≤ c && c ≤ chr 'Z'
def gAsciiIslower (c : UInt8) : Bool := chr 'a' ≤ c && c ≤ chr 'z'
def gAsciiIsalnum (c : UInt8) : Bool := gAsciiIsdigit c || gAsciiIsupper c || gAsciiIslower c
def gAsciiIscntrl (c : UInt8) : Bool := c < 0x20 || c == 0x7f
/-- Printable and not a space. -/
def gAsciiIsgraph (c : UInt8) : Bool := 0x21 ≤ c && c ≤ 0x7e
def gAsciiIsxdigit (c : UInt8) : Bool :=
  gAsciiIsdigit c || (chr 'A' ≤ c && c ≤ chr 'F') || (chr 'a' ≤ c && c ≤ chr 'f')

/-- The value of a hexadecimal digit, -1 for any other character. -/
def gAsciiXdigitValue (c : UInt8) : Int :=
  if chr 'A' ≤ c && c ≤ chr 'F' then c.toNat - (chr 'A').toNat + 10
  else if chr 'a' ≤ c && c ≤ chr 'f' then c.toNat - (chr 'a').toNat + 10
  else if gAsciiIsdigit c then c.toNat - (chr '0').toNat
  else -1

/-! Formatting and parsing of numbers. -/

/-- `(guint) c` for a signed `char` c: the sign is extended to 32 bits. -/
def guintOfChar (c : UInt8) : Nat := if c < 0x80 then c.toNat else 0xffffff00 + c.toNat

/-- The text of `%02x`. -/
def formatHex02 (n : Nat) : Bytes :=
  let digits := (Nat.toDigits 16 n).map chr
  if digits.length < 2 then chr '0' :: digits else digits

/-- What `snprintf (buf, size, ..)` leaves in the buffer before the NUL. -/
def snprintfTruncate (size : Nat) (text : Bytes) : Bytes := text.take (size - 1)

def isSpace (c : UInt8) : Bool :=
  c == chr ' ' || c == 0x0c || c == chr '\n' || c == chr '\r' || c == chr '\t' || c == 0x0b

def decimalValue (digits : Bytes) : Nat :=
  digits.foldl (fun n c => 10 * n + (c.toNat - (chr '0').toNat)) 0

/-- The result of `g_ascii_strtoull`: the value, where parsing stopped, and
whether `errno` was set to ERANGE. -/
structure Strtoull where
  value : Nat
  stop : Bytes
  erange : Bool
  deriving DecidableEq, Repr

def gMaxUint64 : Nat := 18446744073709551615

/-- `g_ascii_strtoull (s, &end, 10)`. -/
def gAsciiStrtoull (s : Bytes) : Strtoull :=
  let s' := s.dropWhile isSpace
  let negative := s'.head? == some (chr '-')
  let s' := if negative || s'.head? == some (chr '+') then s'.tail else s'
  let digits := s'.takeWhile gAsciiIsdigit
  let stop := s'.dropWhile gAsciiIsdigit
  if digits = [] then ⟨0, s, false⟩
  else if gMaxUint64 < decimalValue digits then ⟨gMaxUint64, stop, true⟩
  else if negative then ⟨(gMaxUint64 + 1 - decimalValue digits) % (gMaxUint64 + 1), stop, false⟩
  else ⟨decimalValue digits, stop, false⟩

def gMaxInt : Nat := 2147483647

/-- `g_path_get_basename`. -/
def gPathGetBasename (fileName : Bytes) : Bytes :=
  if fileName = [] then ascii "."
  else
    let trimmed := fileName.rdropWhile (· == chr '/')
    if trimmed = [] then ascii "/"
    else trimmed.rtakeWhile (· != chr '/')

/-! GKeyFile. -/

/-- `g_key_file_is_group_name`. -/
def gKeyFileIsGroupName (name : Bytes) : Bool :=
  name != [] && name.all (fun c => c != chr ']' && c != chr '[' && !gAsciiIscntrl c)

/-- A key file; only a legal name can name a group. The last group of the file
comes first, as GKeyFile keeps its groups. -/
structure KeyFile where
  groups : AList (fun _ : Bytes => AList (fun _ : Bytes => Bytes))
  named : ∀ g ∈ groups, gKeyFileIsGroupName g = true

namespace KeyFile

theorem ext_groups {a b : KeyFile} (h : a.groups = b.groups) : a = b := by
  cases a; cases b; simp only at h; subst h; rfl

/-- By the lists of entries, so that it evaluates. -/
instance : DecidableEq KeyFile := fun a b =>
  have : DecidableEq (AList (fun _ : Bytes => Bytes)) :=
    fun x y => decidable_of_iff (x.entries = y.entries) AList.ext_iff.symm
  decidable_of_iff (a.groups.entries = b.groups.entries)
    ⟨fun h => ext_groups (AList.ext h), fun h => by rw [h]⟩

/-- `g_key_file_new`. -/
def empty : KeyFile := ⟨∅, by simp⟩

instance : Inhabited KeyFile := ⟨empty⟩

/-- `g_key_file_get_groups`, in the order of the file. -/
def getGroups (kf : KeyFile) : List Bytes := kf.groups.keys.reverse

/-- `g_key_file_get_string`, NULL as `none`. -/
def getString (kf : KeyFile) (group key : Bytes) : Option Bytes :=
  (kf.groups.lookup group).bind (fun g => g.lookup key)

/-- `g_key_file_set_string`: a name that cannot be a group's is ignored, a group
that is there stays where it is, and a new one goes behind the others. -/
def setString (kf : KeyFile) (group key value : Bytes) : KeyFile :=
  if h : gKeyFileIsGroupName group = true then
    match kf.groups.lookup group with
    | some entries =>
      { groups := kf.groups.replace group (entries.insert key value)
        named := fun g hg => kf.named g (AList.mem_replace.mp hg) }
    | none =>
      { groups := kf.groups.insert group ((∅ : AList _).insert key value)
        named := by
          intro g hg
          rcases AList.mem_insert kf.groups |>.mp hg with rfl | hg
          · exact h
          · exact kf.named g hg }
  else kf

/-- `g_key_file_remove_group`. -/
def removeGroup (kf : KeyFile) (group : Bytes) : KeyFile :=
  { groups := kf.groups.erase group
    named := fun g hg => kf.named g (AList.mem_erase.mp hg).2 }

theorem kreplace_cons {α β : Type} [DecidableEq α] (a : α) (b : β) (e : (_ : α) × β)
    (entries : List ((_ : α) × β)) : List.kreplace a b (e :: entries) =
      if a = e.1 then ⟨a, b⟩ :: entries else e :: List.kreplace a b entries := by
  unfold List.kreplace
  split
  · rename_i h
    exact List.lookmap_cons_some _ _ (if_pos h)
  · rename_i h
    exact List.lookmap_cons_none _ _ (if_neg h)

theorem lookup_replace {α β : Type} [DecidableEq α] {m : AList (fun _ : α => β)} {a : α}
    (h : a ∈ m) (b : β) (a' : α) :
    (m.replace a b).lookup a' = if a' = a then some b else m.lookup a' := by
  obtain ⟨entries, hnodup⟩ := m
  show (entries.kreplace a b).dlookup a' = if a' = a then some b else entries.dlookup a'
  replace h : a ∈ entries.keys := h
  clear hnodup
  induction entries with
  | nil => cases h
  | cons e entries ih =>
    obtain ⟨c, d⟩ := e
    rw [kreplace_cons]
    by_cases hc : a = c
    · -- the first entry is the one that is replaced
      subst hc
      rw [if_pos rfl]
      by_cases ha : a' = a
      · subst ha
        rw [if_pos rfl, List.dlookup_cons_eq]
      · rw [if_neg ha, List.dlookup_cons_ne _ _ ha, List.dlookup_cons_ne _ _ ha]
    · rw [if_neg hc]
      rw [List.keys_cons, List.mem_cons] at h
      by_cases ha : a' = c
      · subst ha
        rw [if_neg (Ne.symm hc), List.dlookup_cons_eq, List.dlookup_cons_eq]
      · rw [List.dlookup_cons_ne _ _ ha, List.dlookup_cons_ne _ _ ha]
        exact ih (h.resolve_left hc)

variable (kf : KeyFile) {g g' k v : Bytes}

theorem getString_setString_self (h : gKeyFileIsGroupName g = true) :
    (kf.setString g k v).getString g k = some v := by
  unfold setString
  rw [dif_pos h]
  split
  · rename_i entries hg
    have hmem : g ∈ kf.groups := AList.lookup_isSome.mp (Option.isSome_of_eq_some hg)
    simp [getString, lookup_replace hmem]
  · simp only [getString, AList.lookup_insert, Option.bind_some]

theorem getString_setString_of_ne (h : g' ≠ g) :
    (kf.setString g k v).getString g' k = kf.getString g' k := by
  unfold setString
  split
  · split
    · rename_i entries hg
      have hmem : g ∈ kf.groups := AList.lookup_isSome.mp (Option.isSome_of_eq_some hg)
      simp [getString, lookup_replace hmem, h]
    · simp [getString, AList.lookup_insert_ne h]
  · rfl

theorem setString_rejected (h : gKeyFileIsGroupName g = false) : kf.setString g k v = kf := by
  simp [setString, h]

@[simp] theorem getString_removeGroup_self : (kf.removeGroup g).getString g k = none := by
  simp [removeGroup, getString]

theorem getString_removeGroup_of_ne (h : g' ≠ g) :
    (kf.removeGroup g).getString g' k = kf.getString g' k := by
  simp [removeGroup, getString, AList.lookup_erase_ne h]

theorem mem_getGroups_of_getString (h : kf.getString g k = some v) : g ∈ kf.getGroups := by
  unfold getString at h
  obtain ⟨grp, hg, -⟩ := Option.bind_eq_some_iff.mp h
  exact List.mem_reverse.mpr (AList.lookup_isSome.mp (Option.isSome_of_eq_some hg))

/-- Whatever is stored is stored under a legal group name. -/
theorem isGroupName_of_getString (h : kf.getString g k = some v) : gKeyFileIsGroupName g = true :=
  kf.named g (List.mem_reverse.mp (mem_getGroups_of_getString kf h))

end KeyFile
end Shim
