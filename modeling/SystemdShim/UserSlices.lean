import Mathlib.Data.Nat.Digits.Defs
import SystemdShim.Service

/- Whose slice it is. The uid is what g_ascii_strtoull makes of the text after
   `user-`, taken if it stops at `.slice` below G_MAXINT. The grammar of that
   function is wider than decimal digits: `parsesUid_iff` says which slices it
   lets through that are no user's. -/
namespace Shim
open Effects

/-- The number that decimal digits denote. -/
def decimal (digits : Bytes) : Nat :=
  Nat.ofDigits 10 (digits.reverse.map (fun c => c.toNat - (chr '0').toNat))

/-- The slice of the user `n`. -/
def UserSlice (slice : Bytes) (n : Int) : Prop :=
  ∃ digits, digits ≠ [] ∧ (∀ c ∈ digits, gAsciiIsdigit c = true) ∧
    slice = ascii "user-" ++ digits ++ ascii ".slice" ∧ n = decimal digits ∧ n < gMaxInt

/-! What g_ascii_strtoull reads. -/

inductive Sign where
  | none
  | plus
  | minus
  deriving DecidableEq

def Sign.text : Sign → Bytes
  | .none => []
  | .plus => [chr '+']
  | .minus => [chr '-']

/-- Whitespace, a sign, and digits, at least one. -/
structure Numeral where
  spaces : Bytes
  sign : Sign
  digits : Bytes
  allSpaces : ∀ c ∈ spaces, isSpace c = true
  allDigits : ∀ c ∈ digits, gAsciiIsdigit c = true
  digits_ne_nil : digits ≠ []

namespace Numeral

def text (n : Numeral) : Bytes := n.spaces ++ n.sign.text ++ n.digits

def magnitude (n : Numeral) : Nat := decimal n.digits

/-- A minus sign negates modulo 2^64. -/
def value (n : Numeral) : Nat :=
  match n.sign with
  | .minus => (gMaxUint64 + 1 - n.magnitude) % (gMaxUint64 + 1)
  | _ => n.magnitude

end Numeral

theorem decimalValue_eq (digits : Bytes) : decimalValue digits = decimal digits := by
  induction digits using List.reverseRecOn with
  | nil => rfl
  | append_singleton digits c ih =>
    have hvalue : decimalValue (digits ++ [c]) =
        10 * decimalValue digits + (c.toNat - (chr '0').toNat) := by
      simp [decimalValue]
    have hdecimal : decimal (digits ++ [c]) =
        (c.toNat - (chr '0').toNat) + 10 * decimal digits := by
      simp [decimal, Nat.ofDigits_cons]
    rw [hvalue, hdecimal, ih]
    omega

theorem isdigit_class : ∀ c, gAsciiIsdigit c = true →
    isSpace c = false ∧ c ≠ chr '-' ∧ c ≠ chr '+' := by
  apply forall_byte
  decide +kernel

theorem head_takeWhile {p : UInt8 → Bool} {s : Bytes} {c : UInt8}
    (h : (s.dropWhile p).head? = some c) : p c = false := by
  have := List.head?_dropWhile_not p s
  rw [h] at this
  simpa using this

/-- The sign, and what is left. -/
theorem exists_sign (s : Bytes) : ∃ (sign : Sign) (rest : Bytes), s = sign.text ++ rest ∧
    (s.head? == some (chr '-')) = decide (sign = .minus) ∧
    (if s.head? == some (chr '-') || s.head? == some (chr '+') then s.tail else s) = rest := by
  cases s with
  | nil => exact ⟨.none, [], rfl, rfl, rfl⟩
  | cons c s =>
    by_cases hm : c = chr '-'
    · subst hm
      exact ⟨.minus, s, rfl, rfl, rfl⟩
    · by_cases hp : c = chr '+'
      · subst hp
        exact ⟨.plus, s, rfl, rfl, rfl⟩
      · refine ⟨.none, c :: s, rfl, ?_, ?_⟩
        · simpa using hm
        · simp [hm, hp]

/-- Where it finds no numeral, nothing is read. -/
theorem strtoull_cases (s : Bytes) :
    (∃ (n : Numeral) (rest : Bytes), s = n.text ++ rest ∧
      ∀ c, rest.head? = some c → gAsciiIsdigit c = false) ∨
    gAsciiStrtoull s = ⟨0, s, false⟩ := by
  obtain ⟨sign, rest, hs, -, htail⟩ := exists_sign (s.dropWhile isSpace)
  by_cases hd : rest.takeWhile gAsciiIsdigit = []
  · right
    unfold gAsciiStrtoull
    simp only [htail, hd, if_true]
  · left
    refine ⟨⟨s.takeWhile isSpace, sign, rest.takeWhile gAsciiIsdigit,
      fun c hc => List.mem_takeWhile_imp hc, fun c hc => List.mem_takeWhile_imp hc, hd⟩,
      rest.dropWhile gAsciiIsdigit, ?_, fun c hc => head_takeWhile hc⟩
    simp only [Numeral.text, List.append_assoc, List.takeWhile_append_dropWhile]
    rw [← hs, List.takeWhile_append_dropWhile]

theorem takeWhile_digits {digits rest : Bytes} (hd : ∀ c ∈ digits, gAsciiIsdigit c = true)
    (hr : ∀ c, rest.head? = some c → gAsciiIsdigit c = false) :
    (digits ++ rest).takeWhile gAsciiIsdigit = digits ∧
      (digits ++ rest).dropWhile gAsciiIsdigit = rest := by
  rw [List.takeWhile_append_of_pos hd, List.dropWhile_append_of_pos hd]
  cases rest with
  | nil => simp
  | cons c rest => simp [hr c rfl]

/-- Past the spaces and the sign of a numeral. -/
theorem dropWhile_spaces (n : Numeral) (rest : Bytes) :
    (n.text ++ rest).dropWhile isSpace = n.sign.text ++ (n.digits ++ rest) := by
  have htext : n.text ++ rest = n.spaces ++ (n.sign.text ++ (n.digits ++ rest)) := by
    simp [Numeral.text]
  rw [htext, List.dropWhile_append_of_pos n.allSpaces]
  obtain ⟨spaces, sign, digits, hs, hd, hne⟩ := n
  cases sign with
  | none =>
    cases digits with
    | nil => exact absurd rfl hne
    | cons c digits =>
      have hc := (isdigit_class c (hd c (List.mem_cons_self ..))).1
      simp [Sign.text, hc]
  | plus => rfl
  | minus => rfl

theorem tail_sign (n : Numeral) (rest : Bytes) :
    let s := n.sign.text ++ (n.digits ++ rest)
    (s.head? == some (chr '-')) = decide (n.sign = .minus) ∧
      (if s.head? == some (chr '-') || s.head? == some (chr '+') then s.tail else s) =
        n.digits ++ rest := by
  obtain ⟨spaces, sign, digits, hs, hd, hne⟩ := n
  cases sign with
  | none =>
    cases digits with
    | nil => exact absurd rfl hne
    | cons c digits =>
      obtain ⟨-, hm, hp⟩ := isdigit_class c (hd c (List.mem_cons_self ..))
      simp [Sign.text, hm, hp]
  | plus => exact ⟨rfl, rfl⟩
  | minus => exact ⟨rfl, rfl⟩

theorem strtoull_numeral (n : Numeral) {rest : Bytes}
    (hr : ∀ c, rest.head? = some c → gAsciiIsdigit c = false) :
    gAsciiStrtoull (n.text ++ rest) =
      if gMaxUint64 < n.magnitude then ⟨gMaxUint64, rest, true⟩ else ⟨n.value, rest, false⟩ := by
  obtain ⟨hneg, htail⟩ := tail_sign n rest
  obtain ⟨htake, hdrop⟩ := takeWhile_digits n.allDigits hr
  unfold gAsciiStrtoull
  simp only [dropWhile_spaces, htail]
  simp only [htake, hdrop, n.digits_ne_nil, if_false, hneg, decimalValue_eq, decide_eq_true_eq]
  unfold Numeral.magnitude
  split
  · rfl
  · unfold Numeral.value
    cases n.sign <;> rfl

/-! The uid. -/

/-- A text before `.slice` that strtoull reads to its end, below G_MAXINT. -/
def Numeral.Fits (n : Numeral) : Prop := n.magnitude ≤ gMaxUint64 ∧ n.value < gMaxInt

theorem not_isdigit_dot : ∀ c, (ascii ".slice").head? = some c → gAsciiIsdigit c = false := by
  intro c hc
  have hdot : (ascii ".slice").head? = some (chr '.') := by decide
  obtain rfl := Option.some.inj (hdot.symm.trans hc)
  decide

/-- What is taken for a uid: nothing at all before `.slice`, or a numeral. -/
theorem strtoull_taken (text : Bytes) (v : Nat) :
    ((gAsciiStrtoull text).erange = false ∧ (gAsciiStrtoull text).stop = ascii ".slice" ∧
      (gAsciiStrtoull text).value < gMaxInt ∧ (gAsciiStrtoull text).value = v) ↔
    (text = ascii ".slice" ∧ v = 0) ∨
    ∃ d : Numeral, text = d.text ++ ascii ".slice" ∧ d.Fits ∧ v = d.value := by
  constructor
  · intro h
    obtain ⟨d, rest, rfl, hr⟩ | hnone := strtoull_cases text
    · right
      rw [strtoull_numeral d hr] at h
      split at h
      · cases h.1
      · rename_i hm
        obtain ⟨-, rfl, hlt, rfl⟩ := h
        exact ⟨d, rfl, ⟨Nat.not_lt.mp hm, hlt⟩, rfl⟩
    · left
      rw [hnone] at h
      exact ⟨h.2.1, h.2.2.2.symm⟩
  · intro h
    obtain ⟨rfl, rfl⟩ | ⟨d, rfl, hfits, rfl⟩ := h
    · have hnone : gAsciiStrtoull (ascii ".slice") = ⟨0, ascii ".slice", false⟩ := by decide
      rw [hnone]
      exact ⟨rfl, rfl, by decide, rfl⟩
    · rw [strtoull_numeral d not_isdigit_dot, if_neg (Nat.not_lt.mpr hfits.1)]
      exact ⟨rfl, rfl, hfits.2, rfl⟩

theorem userSliceUid_iff (slice : Bytes) (n : Int) (hn : n ≠ -1) : userSliceUid slice = n ↔
    (slice = ascii "user-.slice" ∧ n = 0) ∨
    ∃ d : Numeral, slice = ascii "user-" ++ d.text ++ ascii ".slice" ∧ d.Fits ∧ n = d.value := by
  have huser : ascii "user-.slice" = ascii "user-" ++ ascii ".slice" := by decide
  have hlen : (ascii "user-").length = 5 := by decide
  unfold userSliceUid
  by_cases hp : gStrHasPrefix slice (ascii "user-") = true
  · obtain ⟨text, rfl⟩ := List.isPrefixOf_iff_prefix.mp hp
    rw [if_pos hp, List.drop_left' hlen, huser, List.append_right_inj]
    simp only [List.append_assoc, List.append_right_inj]
    have htaken := strtoull_taken text
    constructor
    · intro h
      split at h
      · rename_i hok
        obtain ⟨he, hs, hlt⟩ := hok
        obtain ⟨ht, hv⟩ | ⟨d, ht, hf, hv⟩ := (htaken _).mp ⟨he, hs, hlt, rfl⟩
        · exact .inl ⟨ht, by omega⟩
        · exact .inr ⟨d, ht, hf, by omega⟩
      · exact absurd h.symm hn
    · intro h
      obtain ⟨v, rfl, hv⟩ : ∃ v : Nat, n = v ∧ ((text = ascii ".slice" ∧ v = 0) ∨
          ∃ d : Numeral, text = d.text ++ ascii ".slice" ∧ d.Fits ∧ v = d.value) := by
        obtain ⟨ht, rfl⟩ | ⟨d, ht, hf, rfl⟩ := h
        · exact ⟨0, rfl, .inl ⟨ht, rfl⟩⟩
        · exact ⟨d.value, rfl, .inr ⟨d, ht, hf, rfl⟩⟩
      obtain ⟨he, hs, hlt, rfl⟩ := (htaken v).mpr hv
      exact if_pos ⟨he, hs, hlt⟩
  · have hnot : ∀ text, slice ≠ ascii "user-" ++ text :=
      fun text he => hp (List.isPrefixOf_iff_prefix.mpr ⟨text, he.symm⟩)
    rw [if_neg hp]
    refine iff_of_false (Ne.symm hn) ?_
    intro h
    obtain ⟨he, -⟩ | ⟨d, he, -⟩ := h
    · exact hnot _ (he.trans huser)
    · rw [List.append_assoc] at he
      exact hnot _ he

/-- Read as a user's slice, and none: no digits, or something before them. -/
def Lenient (slice : Bytes) : Prop :=
  slice = ascii "user-.slice" ∨
  ∃ d : Numeral, d.spaces ++ d.sign.text ≠ [] ∧
    slice = ascii "user-" ++ d.text ++ ascii ".slice" ∧ d.Fits

/-- The digits of a user's slice, as a numeral. -/
theorem userSlice_iff (slice : Bytes) (n : Int) : UserSlice slice n ↔
    ∃ d : Numeral, d.spaces ++ d.sign.text = [] ∧
      slice = ascii "user-" ++ d.text ++ ascii ".slice" ∧ d.Fits ∧ n = d.value := by
  constructor
  · intro h
    obtain ⟨digits, hne, hd, rfl, rfl, hlt⟩ := h
    have hlt' : decimal digits < gMaxInt := by omega
    have hle : decimal digits ≤ gMaxUint64 := by
      have : gMaxInt ≤ gMaxUint64 := by decide
      omega
    exact ⟨⟨[], .none, digits, by simp, hd, hne⟩, rfl, rfl, ⟨hle, hlt'⟩, rfl⟩
  · intro h
    obtain ⟨⟨spaces, sign, digits, hs, hd, hne⟩, hplain, rfl, ⟨hle, hlt⟩, rfl⟩ := h
    obtain ⟨rfl, hsign⟩ := List.append_eq_nil_iff.mp hplain
    cases sign with
    | none => exact ⟨digits, hne, hd, rfl, rfl, by exact_mod_cast hlt⟩
    | plus => cases hsign
    | minus => cases hsign

theorem not_isdigit_front (d : Numeral) {c : UInt8} (hc : c ∈ d.spaces ++ d.sign.text) :
    gAsciiIsdigit c = false := by
  rw [Bool.eq_false_iff]
  intro hd
  obtain ⟨hs, hm, hp⟩ := isdigit_class c hd
  obtain hc | hc := List.mem_append.mp hc
  · rw [d.allSpaces c hc] at hs
    cases hs
  · revert hc
    cases d.sign <;> simp [Sign.text, hm, hp]

/-- A slice is not read in two ways. -/
theorem not_lenient_of_userSlice {slice : Bytes} {n : Int} (h : UserSlice slice n) :
    ¬ Lenient slice := by
  intro hl
  obtain ⟨digits, hne, hd, rfl, -, -⟩ := h
  have huser : ascii "user-.slice" = ascii "user-" ++ ascii ".slice" := by decide
  obtain he | ⟨d, hfront, he, -⟩ := hl
  · rw [huser, List.append_assoc, List.append_right_inj, List.append_left_eq_self] at he
    exact hne he
  · rw [List.append_left_inj, List.append_right_inj] at he
    cases hf : d.spaces ++ d.sign.text with
    | nil => exact hfront hf
    | cons c front =>
      -- a byte before the digits of the one numeral is a digit of the other
      have hc : gAsciiIsdigit c = false := not_isdigit_front d (by rw [hf]; simp)
      have hmem : c ∈ digits := by
        rw [he, Numeral.text, hf]
        simp
      rw [hd c hmem] at hc
      cases hc

/-- The uid is read from a user's slice, and nothing else is: cgmanager Chown is
asked for the slices of users, for their own uids. -/
def ParsesUid (slice : Bytes) : Prop :=
  (∀ scope n, n ≠ -1 → ((cgroupUnitGetPathAndUid slice scope).2 = n ↔ UserSlice slice n)) ∧
  ∀ (s s' : Process) (c : Call) (t : ShimTrace), c.slice = some slice →
    callStep s (c, t) = some s' → ∀ controllers path uid gid,
      .chown controllers path uid gid ∈ cgCalls t → UserSlice slice uid

theorem uid_eq (slice : Bytes) (scope : Option Bytes) :
    (cgroupUnitGetPathAndUid slice scope).2 = userSliceUid slice := by
  cases scope <;> rfl

theorem userSliceUid_iff_userSlice {slice : Bytes} (h : ¬ Lenient slice) {n : Int} (hn : n ≠ -1) :
    userSliceUid slice = n ↔ UserSlice slice n := by
  rw [userSliceUid_iff slice n hn, userSlice_iff]
  constructor
  · intro hd
    obtain ⟨hs, -⟩ | ⟨d, hs, hf, hv⟩ := hd
    · exact absurd (.inl hs) h
    · refine ⟨d, ?_, hs, hf, hv⟩
      by_contra hfront
      exact h (.inr ⟨d, hfront, hs, hf⟩)
  · intro hd
    obtain ⟨d, -, hs, hf, hv⟩ := hd
    exact .inr ⟨d, hs, hf, hv⟩

theorem mem_createCalls_chown {path controllers p : Bytes} {uid uid' gid : Int}
    {pids : List UInt32} (h : CgCall.chown controllers p uid' gid ∈ createCalls path uid pids) :
    uid' = uid ∧ uid ≠ -1 := by
  obtain h | ⟨hne, h⟩ | ⟨_, -, h⟩ | h := mem_createCalls.mp h
  · cases h
  · obtain ⟨-, -, rfl, -⟩ := CgCall.chown.inj h
    exact ⟨rfl, hne⟩
  · cases h
  · cases h

theorem parsesUid_of_not_lenient {slice : Bytes} (h : ¬ Lenient slice) : ParsesUid slice := by
  refine ⟨fun scope n hn => ?_, ?_⟩
  · rw [uid_eq]
    exact userSliceUid_iff_userSlice h hn
  · intro s s' c t hslice hstep ctl p uid' gid hm
    obtain ⟨unit, path, uid, pids, hop, hm⟩ | ⟨_, _, -, -, hm⟩ | ⟨_, _, -, -, hm⟩ :=
      callStep_calls hstep hm
    · obtain ⟨rfl, hne⟩ := mem_createCalls_chown hm
      obtain ⟨slice', scope, hslice', -, hpath, -⟩ := Call.op_start hop
      obtain rfl := Option.some.inj (hslice.symm.trans hslice')
      apply (userSliceUid_iff_userSlice h hne).mp
      rw [← uid_eq slice scope, hpath]
    · simp [roundCalls] at hm
    · cases hm

theorem not_parsesUid_of_lenient {slice : Bytes} (h : Lenient slice) : ¬ ParsesUid slice := by
  intro hp
  obtain ⟨n, hn, huid⟩ : ∃ n : Int, n ≠ -1 ∧ userSliceUid slice = n := by
    obtain hs | ⟨d, -, hs, hf⟩ := h
    · exact ⟨0, by decide, (userSliceUid_iff slice 0 (by decide)).mpr (.inl ⟨hs, rfl⟩)⟩
    · have hne : (d.value : Int) ≠ -1 := by omega
      exact ⟨d.value, hne, (userSliceUid_iff slice _ hne).mpr (.inr ⟨d, hs, hf, rfl⟩)⟩
  exact not_lenient_of_userSlice ((hp.1 none n hn).mp ((uid_eq slice none).trans huid)) h

/-- The slices for which the uid is not read by the grammar are those without a
digit and those with whitespace or a sign before the digits. -/
theorem parsesUid_iff (slice : Bytes) : ParsesUid slice ↔ ¬ Lenient slice :=
  ⟨fun h hl => not_parsesUid_of_lenient hl h, parsesUid_of_not_lenient⟩

example : userSliceUid (ascii "user- -18446744073709551615.slice") = 1 := by decide

/-- `user-.slice` is taken for root's slice. -/
theorem not_parsesUid_without_digits : ¬ ∀ slice, ParsesUid slice := fun h =>
  not_parsesUid_of_lenient (.inl rfl) (h (ascii "user-.slice"))

end Shim
