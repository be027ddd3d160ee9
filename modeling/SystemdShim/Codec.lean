import SystemdShim.ObjectPath

/- What the object-path codec keeps of a name. A well-formed text is a sequence
   of tokens, each one byte or one escape, and `unescape_tokens` says that the
   loop with its look-ahead decodes them one by one; the encoder writes such a
   text, so `codec_loss` follows. In the other direction `escape_eq_iff` says
   which names the encoder confuses. -/
namespace Shim

/-- A part of an escaped name. -/
inductive Token where
  | literal (c : UInt8) (h : c ≠ 0 ∧ c ≠ chr '_')
  | escape (x y : UInt8) (hx : gAsciiIsxdigit x = true) (hy : gAsciiIsxdigit y = true)

/-- The byte that two hexadecimal digits spell. -/
def hexByte (x y : UInt8) : UInt8 :=
  UInt8.ofInt (gAsciiXdigitValue x * 16 + gAsciiXdigitValue y)

namespace Token

def text : Token → Bytes
  | .literal c _ => [c]
  | .escape x y _ _ => [chr '_', x, y]

/-- An escape counts where it spells a printable character. -/
def value : Token → Bytes
  | .literal c _ => [c]
  | .escape x y _ _ => if gAsciiIsgraph (hexByte x y) then [hexByte x y] else []

/-- The token stands for the byte `c`, literally or escaped. -/
def Writes : Token → UInt8 → Prop
  | .literal d _, c => d = c
  | .escape x y _ _, c => hexByte x y = c

instance (t : Token) (c : UInt8) : Decidable (t.Writes c) :=
  match t with
  | .literal d _ => inferInstanceAs (Decidable (d = c))
  | .escape x y _ _ => inferInstanceAs (Decidable (hexByte x y = c))

theorem Writes.value {t : Token} {c : UInt8} (h : t.Writes c) (hc : gAsciiIsgraph c = true) :
    t.value = [c] := by
  cases t with
  | literal d hd =>
    obtain rfl := h
    rfl
  | escape x y hx hy =>
    obtain rfl := h
    exact if_pos hc

end Token

/-! Decoding. -/

/-- The loop takes one token at a time. -/
theorem unescapeLoop_token (t : Token) (rest : Bytes) :
    unescapeLoop 0 (t.text ++ rest) = t.value ++ unescapeLoop 0 rest := by
  cases t with
  | literal c h =>
    simp only [Token.text, Token.value, List.singleton_append, unescapeLoop, h.2, if_false]
  | escape x y hx hy =>
    simp only [Token.text, Token.value, List.cons_append, List.nil_append, unescapeLoop,
      List.headD_cons, List.tail_cons, if_true, hx, hy, Bool.and_self, ← hexByte.eq_1]
    split <;> rfl

theorem unescape_flatMap (ts : List Token) :
    unescapeObjectPath (ts.flatMap Token.text) = ts.flatMap Token.value := by
  unfold unescapeObjectPath
  induction ts with
  | nil => rfl
  | cons t ts ih => rw [List.flatMap_cons, List.flatMap_cons, unescapeLoop_token, ih]

theorem value_of_writes {name : Bytes} {ts : List Token}
    (hg : ∀ c ∈ name, gAsciiIsgraph c = true) (h : List.Forall₂ (fun c t => t.Writes c) name ts) :
    ts.flatMap Token.value = name := by
  induction h with
  | nil => rfl
  | @cons c t name ts hw _ ih =>
    rw [List.forall_mem_cons] at hg
    rw [List.flatMap_cons, hw.value hg.1, ih hg.2, List.singleton_append]

/-- Any sequence of tokens is decoded token by token. So whatever writes each
printable byte of a name as one token of either kind is undone. -/
theorem unescape_tokens :
    (∀ ts : List Token, unescapeObjectPath (ts.flatMap Token.text) = ts.flatMap Token.value) ∧
    ∀ (name : Bytes) (ts : List Token), (∀ c ∈ name, gAsciiIsgraph c = true) →
      List.Forall₂ (fun c t => t.Writes c) name ts →
      unescapeObjectPath (ts.flatMap Token.text) = name :=
  ⟨unescape_flatMap, fun _ ts hg h => (unescape_flatMap ts).trans (value_of_writes hg h)⟩

/-- A leading digit escaped, as systemd does, and a literal hexadecimal digit
after an escape. -/
theorem unescape_tokens_leading_digit :
    unescapeObjectPath (ascii "_31a_2Db") = [chr '1', chr 'a', chr '-', chr 'b'] := by
  let ts : List Token :=
    [.escape (chr '3') (chr '1') (by decide) (by decide), .literal (chr 'a') (by decide),
      .escape (chr '2') (chr 'D') (by decide) (by decide), .literal (chr 'b') (by decide)]
  have htext : ascii "_31a_2Db" = ts.flatMap Token.text := by decide
  have hw : List.Forall₂ (fun c (t : Token) => t.Writes c)
      [chr '1', chr 'a', chr '-', chr 'b'] ts :=
    .cons (by decide) (.cons rfl (.cons (by decide) (.cons rfl .nil)))
  rw [htext]
  exact unescape_tokens.2 _ ts (List.all_eq_true.mp (by decide)) hw

/-! Encoding. -/

/-- What is left of a byte that is escaped: all that `char` calls negative come
out as the same two digits. -/
def lossy (c : UInt8) : UInt8 := if c < 0x80 then c else 0xff

def escapesWell (c : UInt8) : Bool :=
  match escapeByte c with
  | [u, x, y] => u == chr '_' && gAsciiIsxdigit x && gAsciiIsxdigit y && hexByte x y == lossy c
  | _ => false

theorem escapesWell_all : ∀ c, escapesWell c = true := by
  apply forall_byte
  decide +kernel

theorem escapeByte_eq (c : UInt8) : ∃ x y, escapeByte c = [chr '_', x, y] ∧
    gAsciiIsxdigit x = true ∧ gAsciiIsxdigit y = true ∧ hexByte x y = lossy c := by
  have hw := escapesWell_all c
  unfold escapesWell at hw
  split at hw
  · rename_i u x y he
    simp only [Bool.and_eq_true, beq_iff_eq] at hw
    obtain ⟨⟨⟨rfl, hx⟩, hy⟩, hv⟩ := hw
    exact ⟨x, y, he, hx, hy, hv⟩
  · cases hw

/-- What escape_object_path writes for one byte. -/
def escapePiece (c : UInt8) : Bytes := if gAsciiIsalnum c then [c] else escapeByte c

theorem escapeObjectPath_cons (c : UInt8) (path : Bytes) :
    escapeObjectPath (c :: path) = escapePiece c ++ escapeObjectPath path := by
  rw [escapeObjectPath, escapePiece]
  split <;> rfl

theorem isalnum_class : ∀ c, gAsciiIsalnum c = true →
    gAsciiIsgraph c = true ∧ c ≠ 0 ∧ c ≠ chr '_' ∧ lossy c = c := by
  apply forall_byte
  decide +kernel

theorem isgraph_lossy : ∀ c, gAsciiIsgraph (lossy c) = gAsciiIsgraph c ∧
    (gAsciiIsgraph c = true → lossy c = c) := by
  apply forall_byte
  decide +kernel

/-- The piece is a token, and counts if the byte is printable. -/
theorem exists_token (c : UInt8) : ∃ t : Token, t.text = escapePiece c ∧
    t.value = if gAsciiIsgraph c then [c] else [] := by
  unfold escapePiece
  split
  · rename_i hc
    obtain ⟨hg, h0, hu, -⟩ := isalnum_class c hc
    exact ⟨.literal c ⟨h0, hu⟩, rfl, (if_pos hg).symm⟩
  · obtain ⟨x, y, he, hx, hy, hv⟩ := escapeByte_eq c
    refine ⟨.escape x y hx hy, he.symm, ?_⟩
    obtain ⟨hg, hc⟩ := isgraph_lossy c
    simp only [Token.value, hv, hg]
    split
    · rename_i h
      rw [hc h]
    · rfl

/-- Unescaping an escaped name drops what is not printable ASCII. -/
theorem unescape_escape (name : Bytes) :
    unescapeObjectPath (escapeObjectPath name) = name.filter gAsciiIsgraph := by
  unfold unescapeObjectPath
  induction name with
  | nil => rfl
  | cons c name ih =>
    obtain ⟨t, ht, hv⟩ := exists_token c
    rw [escapeObjectPath_cons, ← ht, unescapeLoop_token, hv, ih, List.filter_cons]
    split <;> rfl

/-- The round trip removes the bytes outside 0x21 to 0x7e, in place, and so is
the identity on the names that have none. -/
theorem codec_loss (name : Bytes) :
    unescapeObjectPath (escapeObjectPath name) = name.filter (fun c => 0x21 ≤ c && c ≤ 0x7e) ∧
    (unescapeObjectPath (escapeObjectPath name) = name ↔ ∀ c ∈ name, 0x21 ≤ c ∧ c ≤ 0x7e) := by
  have hloss : unescapeObjectPath (escapeObjectPath name) =
      name.filter (fun c => 0x21 ≤ c && c ≤ 0x7e) := unescape_escape name
  refine ⟨hloss, ?_⟩
  rw [hloss, List.filter_eq_self]
  simp

/-! The names the encoder confuses. -/

theorem escapePiece_lossy : ∀ c, escapePiece (lossy c) = escapePiece c := by
  apply forall_byte
  decide +kernel

/-- A piece shows where it ends, and what byte it is of, as far as any piece
shows that. -/
theorem escapePiece_inj {c d : UInt8} {u v : Bytes}
    (h : escapePiece c ++ u = escapePiece d ++ v) : lossy c = lossy d ∧ u = v := by
  obtain ⟨x, y, hc, -, -, hcv⟩ := escapeByte_eq c
  obtain ⟨x', y', hd, -, -, hdv⟩ := escapeByte_eq d
  unfold escapePiece at h
  split at h
  · rename_i hcn
    split at h
    · obtain ⟨rfl, rfl⟩ := List.cons.inj h
      exact ⟨rfl, rfl⟩
    · rw [hd] at h
      exact absurd (List.cons.inj h).1 (isalnum_class c hcn).2.2.1
  · split at h
    · rename_i hdn
      rw [hc] at h
      exact absurd (List.cons.inj h).1.symm (isalnum_class d hdn).2.2.1
    · rw [hc, hd] at h
      simp only [List.cons_append, List.nil_append, List.cons.injEq, true_and] at h
      obtain ⟨rfl, rfl, rfl⟩ := h
      exact ⟨hcv.symm.trans hdv, rfl⟩

theorem escapePiece_ne_nil (c : UInt8) : escapePiece c ≠ [] := by
  obtain ⟨x, y, hc, -⟩ := escapeByte_eq c
  unfold escapePiece
  split
  · exact List.cons_ne_nil _ _
  · rw [hc]
    exact List.cons_ne_nil _ _

theorem escape_eq_iff (a b : Bytes) :
    escapeObjectPath a = escapeObjectPath b ↔ a.map lossy = b.map lossy := by
  induction a generalizing b with
  | nil =>
    cases b with
    | nil => simp
    | cons d b =>
      rw [escapeObjectPath_cons]
      refine iff_of_false (fun h => ?_) (by simp)
      exact escapePiece_ne_nil d (List.append_eq_nil_iff.mp h.symm).1
  | cons c a ih =>
    cases b with
    | nil =>
      rw [escapeObjectPath_cons]
      refine iff_of_false (fun h => ?_) (by simp)
      exact escapePiece_ne_nil c (List.append_eq_nil_iff.mp h).1
    | cons d b =>
      rw [escapeObjectPath_cons, escapeObjectPath_cons, List.map_cons, List.map_cons,
        List.cons.injEq]
      constructor
      · intro h
        obtain ⟨hcd, hab⟩ := escapePiece_inj h
        exact ⟨hcd, (ih b).mp hab⟩
      · intro h
        obtain ⟨hcd, hab⟩ := h
        rw [← escapePiece_lossy c, hcd, escapePiece_lossy d, (ih b).mpr hab]

/-- The names differ in length or in an ASCII byte of one of them. -/
def DifferInAscii (a b : Bytes) : Prop :=
  a.length ≠ b.length ∨
  ∃ (i : Nat) (ha : i < a.length) (hb : i < b.length), a[i] ≠ b[i] ∧ (a[i] < 0x80 ∨ b[i] < 0x80)

theorem lossy_ne_iff (c d : UInt8) : lossy c ≠ lossy d ↔ c ≠ d ∧ (c < 0x80 ∨ d < 0x80) := by
  have hff : ∀ e : UInt8, e < 0x80 → e ≠ 0xff := by
    intro e he h
    subst h
    exact absurd he (by decide)
  unfold lossy
  by_cases hc : c < 0x80
  · by_cases hd : d < 0x80
    · simp [hc, hd]
    · have hcd : c ≠ d := fun h => hd (h ▸ hc)
      simp [hc, hd, hff c hc, hcd]
  · by_cases hd : d < 0x80
    · have hcd : c ≠ d := fun h => hc (h ▸ hd)
      simp [hc, hd, (hff d hd).symm, hcd]
    · simp [hc, hd]

theorem differInAscii_iff (a b : Bytes) : DifferInAscii a b ↔ a.map lossy ≠ b.map lossy := by
  constructor
  · intro h he
    obtain hlen | ⟨i, ha, hb, hne⟩ := h
    · have := congrArg List.length he
      simp only [List.length_map] at this
      exact hlen this
    · have hi : (a.map lossy)[i]? = (b.map lossy)[i]? := by rw [he]
      simp only [List.getElem?_map, List.getElem?_eq_getElem ha, List.getElem?_eq_getElem hb,
        Option.map_some, Option.some.injEq] at hi
      exact (lossy_ne_iff _ _).mpr hne hi
  · intro h
    by_contra hsame
    simp only [DifferInAscii, not_or, not_exists] at hsame
    obtain ⟨hlen, hbytes⟩ := hsame
    have hlen : a.length = b.length := not_not.mp hlen
    apply h
    apply List.ext_getElem (by simpa using hlen)
    intro i ha hb
    rw [List.length_map] at ha hb
    rw [List.getElem_map, List.getElem_map]
    by_contra hne
    exact hbytes i ha hb ((lossy_ne_iff _ _).mp hne)

theorem escape_ne_iff (a b : Bytes) :
    escapeObjectPath a ≠ escapeObjectPath b ↔ DifferInAscii a b := by
  rw [differInAscii_iff, ne_eq, escape_eq_iff]

end Shim
