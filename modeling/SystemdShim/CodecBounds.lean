import SystemdShim.Codec
import SystemdShim.Lib.Buffer

/- The loops of unescape_object_path and escape_object_path over memory, index
   by index, as systemd-shim.c has them, and that they compute the codec of
   `ObjectPath`: no access is out of bounds, whatever the bytes of the path and
   whatever was in the memory that g_malloc returned. -/
namespace Shim.Mem

open Buffer

/-- `g_malloc`: as many bytes as were asked for, with any contents. -/
structure GMalloc where
  mem : Nat → Bytes
  size : ∀ n, (mem n).length = n

def strlen (path : Bytes) : Nat := (chars 0 path).length

/-- The addition of `gint` counters. Past the largest of them C leaves it open;
here it wraps. -/
def gintAdd : Int → Int → Int := wrapAdd (2 * (gMaxInt + 1))

/-! unescape_object_path. -/

/-- The loop from counters `i` and `j` on; what is left is `j` and the memory of
`result`. `add` is the addition of the counters. -/
def unescapeFrom (add : Int → Int → Int) (path : Bytes) :
    Nat → Int → Int → Bytes → Except Fault (Int × Bytes)
  | 0, _, _, _ => .error .unfinished
  | fuel + 1, i, j, result => do
    let c ← readAt path i
    if c = 0 then return (j, result)
    else if c = chr '_' then
      let x ← readAt path (add i 1)
      if gAsciiIsxdigit x then
        -- path[i + 2] is looked at only behind a digit, so not past the NUL
        let y ← readAt path (add i 2)
        if gAsciiIsxdigit y then
          let val := gAsciiXdigitValue x * 16 + gAsciiXdigitValue y
          if gAsciiIsgraph (UInt8.ofInt val) then
            let result ← storeAt result j (UInt8.ofInt val)
            unescapeFrom add path fuel (add (add i 2) 1) (add j 1) result
          else unescapeFrom add path fuel (add (add i 2) 1) j result
        else unescapeFrom add path fuel (add i 1) j result
      else unescapeFrom add path fuel (add i 1) j result
    else
      let result ← storeAt result j c
      unescapeFrom add path fuel (add i 1) (add j 1) result

/-- The number of bytes stored before the terminator, and the memory returned. -/
def unescapeObjectPath (add : Int → Int → Int) (malloc : GMalloc) (fuel : Nat) (path : Bytes) :
    Except Fault (Int × Bytes) := do
  let (j, result) ← unescapeFrom add path fuel 0 0 (malloc.mem (strlen path + 1))
  let result ← storeAt result j 0
  return (j, result)

/-! escape_object_path. -/

def escapeFrom (add : Int → Int → Int) (path : Bytes) :
    Nat → Int → Int → Bytes → Except Fault (Int × Bytes)
  | 0, _, _, _ => .error .unfinished
  | fuel + 1, i, j, result => do
    let c ← readAt path i
    if c = 0 then return (j, result)
    else if gAsciiIsalnum c then
      let result ← storeAt result j c
      escapeFrom add path fuel (add i 1) (add j 1) result
    else
      -- snprintf ends what it prints with a NUL of its own
      let result ← storeAll result j (escapeByte c ++ [0])
      escapeFrom add path fuel (add i 1) (add j 3) result

def escapeObjectPath (add : Int → Int → Int) (malloc : GMalloc) (fuel : Nat) (path : Bytes) :
    Except Fault (Int × Bytes) := do
  let (j, result) ← escapeFrom add path fuel 0 0 (malloc.mem (3 * strlen path + 1))
  let result ← storeAt result j 0
  return (j, result)

/-! What both loops keep. -/

/-- Between two rounds: `rest` is what the loop has not read, from index `n`,
`out` what it has stored; `k` bytes can still be stored for each byte of `rest`. -/
structure Inv (k : Nat) (path : Bytes) (size n : Nat) (rest out result : Bytes) : Prop where
  left : path.drop n = rest ++ [0]
  unended : 0 ∉ rest
  index : n + rest.length < size
  filled : out <+: result
  length : result.length = size
  room : out.length + k * rest.length < size

/-- The memory returned with the number of bytes stored. -/
structure Holds (text : Bytes) (size : Nat) (out : Int × Bytes) : Prop where
  count : out.1 = text.length
  filled : text <+: out.2
  length : out.2.length = size
  room : text.length < size

namespace Inv

variable {k size n : Nat} {path rest out result : Bytes} {c : UInt8}

theorem read (h : Inv k path size n (c :: rest) out result) : readAt path n = .ok c :=
  readAt_drop h.left

theorem read_end (h : Inv k path size n [] out result) : readAt path n = .ok 0 :=
  readAt_drop h.left

/-- Also at the end of the path there is a byte to look at. -/
theorem read_head (h : Inv k path size n rest out result) : readAt path n = .ok (rest.headD 0) := by
  cases rest with
  | nil => exact h.read_end
  | cons c rest => exact h.read

theorem ne_zero (h : Inv k path size n (c :: rest) out result) : c ≠ 0 := by
  intro he
  exact h.unended (he ▸ List.mem_cons_self)

/-- A byte is read and nothing is stored. -/
theorem skip (h : Inv k path size n (c :: rest) out result) :
    Inv k path size (n + 1) rest out result := by
  obtain ⟨hleft, hnul, hindex, hfilled, hlength, hroom⟩ := h
  rw [List.length_cons] at hindex hroom
  refine ⟨drop_succ_of_cons hleft, fun h0 => hnul (List.mem_cons_of_mem _ h0), by omega,
    hfilled, hlength, ?_⟩
  calc out.length + k * rest.length ≤ out.length + k * (rest.length + 1) := by
        rw [Nat.mul_succ]; omega
    _ < size := hroom

/-- A byte is read and `text` is stored for it, perhaps with bytes behind. -/
theorem store {text result' : Bytes} (h : Inv k path size n (c :: rest) out result)
    (hk : text.length ≤ k) (hfilled : out ++ text <+: result')
    (hlength : result'.length = result.length) :
    Inv k path size (n + 1) rest (out ++ text) result' := by
  refine ⟨h.skip.left, h.skip.unended, h.skip.index, hfilled, by rw [hlength, h.length], ?_⟩
  have hroom := h.room
  rw [List.length_cons, Nat.mul_succ] at hroom
  rw [List.length_append]
  omega

theorem storeAt (h : Inv k path size n (c :: rest) out result) (hk : 1 ≤ k) (b : UInt8) :
    ∃ result', storeAt result out.length b = .ok result' ∧
      Inv k path size (n + 1) rest (out ++ [b]) result' := by
  have hroom := h.room
  have hone : 1 ≤ k * (rest.length + 1) := Nat.mul_pos hk (Nat.succ_pos _)
  rw [List.length_cons] at hroom
  obtain ⟨result', hstore, hpre, hlen⟩ :=
    storeAt_prefix b h.filled (by have := h.length; omega)
  exact ⟨result', hstore, h.store hk hpre hlen⟩

/-- At the start everything is left, and the buffer is what g_malloc gave. -/
theorem start (hk : 1 ≤ k) (malloc : GMalloc) (path : Str (0 : UInt8)) :
    Inv k path.mem (k * strlen path.mem + 1) 0 path.text []
      (malloc.mem (k * strlen path.mem + 1)) := by
  have hlen : strlen path.mem = path.text.length := by rw [strlen, path.chars_mem]
  refine ⟨rfl, path.unended, ?_, List.nil_prefix, malloc.size _, by simp [hlen]⟩
  calc 0 + path.text.length ≤ k * strlen path.mem := by
        rw [Nat.zero_add, hlen]; exact Nat.le_mul_of_pos_left _ hk
    _ < k * strlen path.mem + 1 := Nat.lt_succ_self _

theorem holds (h : Inv k path size n rest out result) : Holds out size (out.length, result) :=
  ⟨rfl, h.filled, h.length, by have := h.room; omega⟩

end Inv

/-- The addition of counters that stay inside the buffer. -/
theorem add_nat {add : Int → Int → Int} {size n k : Nat} (hadd : ExactBelow size add)
    (h : n + k < size) : add n k = ((n + k : Nat) : Int) := by
  rw [hadd n k (by omega) (by omega) (by omega)]
  omega

/-! What unescape_object_path does. -/

theorem xdigit_ne_zero {c : UInt8} (h : gAsciiIsxdigit c = true) : c ≠ 0 := by
  rintro rfl
  exact absurd h (by decide)

/-- A digit to look at is not the end of the path. -/
theorem cons_of_xdigit {rest : Bytes} (h : gAsciiIsxdigit (rest.headD 0) = true) :
    ∃ x tail, rest = x :: tail := by
  cases rest with
  | nil => exact absurd rfl (xdigit_ne_zero h)
  | cons x tail => exact ⟨x, tail, rfl⟩

/-- The loop ends, with the decoded text in the buffer. -/
theorem unescapeFrom_spec {add : Int → Int → Int} {path : Bytes} {size : Nat}
    (hadd : ExactBelow size add) : ∀ (fuel n : Nat) (rest out result : Bytes),
    Inv 1 path size n rest out result → rest.length < fuel →
    ∃ res, unescapeFrom add path fuel n out.length result = .ok res ∧
      Holds (out ++ unescapeLoop 0 rest) size res := by
  intro fuel
  induction fuel with
  | zero => intro n rest out result _ hf; omega
  | succ fuel ih =>
    intro n rest out result hinv hf
    cases rest with
    | nil =>
      refine ⟨(out.length, result), ?_, by simpa [unescapeLoop] using hinv.holds⟩
      rw [unescapeFrom, hinv.read_end, ok_bind, if_pos rfl]
      rfl
    | cons c rest =>
      have hidx := hinv.index
      have hroom := hinv.room
      rw [List.length_cons] at hidx hroom hf
      have h1 : add n 1 = ((n + 1 : Nat) : Int) := add_nat hadd (k := 1) (by omega)
      have hj : add out.length 1 = ((out.length + 1 : Nat) : Int) :=
        add_nat hadd (k := 1) (by omega)
      rw [unescapeFrom, hinv.read, ok_bind, if_neg hinv.ne_zero, unescapeLoop]
      by_cases hc : c = chr '_'
      · rw [if_pos hc, if_pos hc, h1, hinv.skip.read_head, ok_bind]
        by_cases hx : gAsciiIsxdigit (rest.headD 0) = true
        · rw [if_pos hx]
          obtain ⟨x, tail, rfl⟩ := cons_of_xdigit hx
          rw [List.length_cons] at hidx hroom hf
          have h2 : add n 2 = ((n + 2 : Nat) : Int) := add_nat hadd (k := 2) (by omega)
          rw [h2, hinv.skip.skip.read_head, ok_bind, hx, List.tail_cons, Bool.true_and]
          by_cases hy : gAsciiIsxdigit (tail.headD 0) = true
          · obtain ⟨y, tail, rfl⟩ := cons_of_xdigit hy
            rw [List.length_cons] at hidx hroom hf
            have h3 : add ((n + 2 : Nat) : Int) 1 = ((n + 3 : Nat) : Int) :=
              add_nat hadd (k := 1) (by omega)
            rw [if_pos hy, if_pos hy, h3]
            simp only [List.headD_cons, unescapeLoop, ← hexByte.eq_1]
            by_cases hg : gAsciiIsgraph (hexByte x y) = true
            · obtain ⟨result', hstore, hinv'⟩ :=
                hinv.skip.skip.storeAt (Nat.le_refl 1) (hexByte x y)
              rw [if_pos hg, if_pos hg, hstore, ok_bind, hj]
              have := ih (n + 3) _ _ _ hinv' (by omega)
              simpa using this
            · rw [if_neg hg, if_neg hg]
              exact ih _ _ _ _ hinv.skip.skip.skip (by omega)
          · rw [if_neg hy, if_neg hy]
            exact ih _ _ _ _ hinv.skip (by simp; omega)
        · rw [if_neg hx]
          simp only [hx, Bool.false_and, Bool.false_eq_true, if_false]
          exact ih _ _ _ _ hinv.skip (by omega)
      · obtain ⟨result', hstore, hinv'⟩ := hinv.storeAt (Nat.le_refl 1) c
        rw [if_neg hc, if_neg hc, hstore, ok_bind, h1, hj]
        have := ih _ _ _ _ hinv' (by omega)
        simpa using this

theorem isgraph_ne_zero {c : UInt8} (h : gAsciiIsgraph c = true) : c ≠ 0 := by
  rintro rfl
  exact absurd h (by decide)

/-- The filter on what an escape spells leaves no NUL, and the path has none. -/
theorem unescapeLoop_unended (skip : Nat) (path : Bytes) (h : 0 ∉ path) :
    0 ∉ unescapeLoop skip path := by
  fun_induction unescapeLoop skip path with
  | case1 => exact h
  | case2 skip c path ih => exact ih (fun h0 => h (List.mem_cons_of_mem _ h0))
  | case3 path _ val hg ih =>
    rw [List.mem_cons, not_or]
    exact ⟨(isgraph_ne_zero hg).symm, ih (fun h0 => h (List.mem_cons_of_mem _ h0))⟩
  | case4 path _ val _ ih => exact ih (fun h0 => h (List.mem_cons_of_mem _ h0))
  | case5 path _ ih => exact ih (fun h0 => h (List.mem_cons_of_mem _ h0))
  | case6 c path hc ih =>
    rw [List.mem_cons, not_or] at h ⊢
    exact ⟨h.1, ih h.2⟩

/-- `result` is a string of `j` bytes, the ones stored before the terminator,
in `size` bytes of memory. -/
structure Returned (size : Nat) (j : Int) (result : Bytes) : Prop where
  length : result.length = size
  stored : 0 ∉ result.take j.toNat
  ended : readAt result j = .ok 0
  strlen : (strlen result : Int) = j

/-- The last store, of the terminator. -/
theorem Holds.finish {text : Bytes} {size : Nat} {out : Int × Bytes} (h : Holds text size out)
    (h0 : 0 ∉ text) : ∃ result, storeAt out.2 out.1 0 = .ok result ∧
      Returned size out.1 result ∧ chars 0 result = text := by
  obtain ⟨result, hstore, hpre, hlen⟩ := storeAt_prefix 0 h.filled (by rw [h.length]; exact h.room)
  have htext : chars 0 result = text := chars_of_prefix h0 hpre
  rw [← h.count] at hstore
  refine ⟨result, hstore, ⟨by rw [hlen, h.length], ?_, ?_, ?_⟩, htext⟩
  · obtain ⟨rest, rfl⟩ := hpre
    rw [h.count]
    simpa using h0
  · obtain ⟨rest, rfl⟩ := hpre
    rw [h.count]
    refine readAt_drop (?_ : _ = 0 :: rest)
    simp
  · rw [Mem.strlen, htext, h.count]

/-- The run ends without a fault and returns `text` in `size` bytes of memory. -/
def ReturnsText (run : Except Fault (Int × Bytes)) (size : Nat) (text : Bytes) : Prop :=
  ∃ j result, run = .ok (j, result) ∧ Returned size j result ∧ chars 0 result = text

/-- What follows both loops: `result[j] = 0`. -/
theorem ReturnsText.of_loop {loop : Except Fault (Int × Bytes)} {text : Bytes} {size : Nat}
    (h : ∃ out, loop = .ok out ∧ Holds text size out) (h0 : 0 ∉ text) :
    ReturnsText (loop >>= fun out => storeAt out.2 out.1 0 >>= fun result => .ok (out.1, result))
      size text := by
  obtain ⟨out, hloop, hholds⟩ := h
  obtain ⟨result, hstore, hret, htext⟩ := hholds.finish h0
  exact ⟨out.1, result, by rw [hloop, ok_bind, hstore, ok_bind], hret, htext⟩

theorem unescapeObjectPath_run {add : Int → Int → Int} (malloc : GMalloc) (path : Str (0 : UInt8))
    {fuel : Nat} (hf : strlen path.mem < fuel) (hadd : ExactBelow (strlen path.mem + 1) add) :
    ReturnsText (unescapeObjectPath add malloc fuel path.mem) (strlen path.mem + 1)
      (Shim.unescapeObjectPath path.text) := by
  have hstart := Inv.start (Nat.le_refl 1) malloc path
  rw [Nat.one_mul] at hstart
  rw [strlen, path.chars_mem] at hf
  exact ReturnsText.of_loop (unescapeFrom_spec hadd fuel 0 _ _ _ hstart hf)
    (unescapeLoop_unended 0 _ path.unended)

theorem exactBelow_gintAdd {size : Nat} (h : size ≤ gMaxInt + 1) : ExactBelow size gintAdd :=
  exactBelow_wrapAdd (Nat.mul_le_mul_left 2 h)

/-- On every path, malformed or not, the loop ends, every index it reads is in
the string or that of its NUL, every index it stores to is in the
`strlen (path) + 1` bytes of the result, and what it stores is the text
returned. `gint` counters do the same as long as they can count the path. -/
theorem unescape_in_bounds (malloc : GMalloc) (path : Str (0 : UInt8)) (fuel : Nat)
    (hf : strlen path.mem < fuel) :
    ReturnsText (unescapeObjectPath (· + ·) malloc fuel path.mem) (strlen path.mem + 1)
      (Shim.unescapeObjectPath path.text) ∧
    (strlen path.mem ≤ gMaxInt →
      ReturnsText (unescapeObjectPath gintAdd malloc fuel path.mem) (strlen path.mem + 1)
        (Shim.unescapeObjectPath path.text)) := by
  refine ⟨unescapeObjectPath_run malloc path hf (exactBelow_add _), ?_⟩
  intro hlen
  exact unescapeObjectPath_run malloc path hf (exactBelow_gintAdd (Nat.succ_le_succ hlen))

/-- An escape, an underscore before another character, and half an escape at
the end, with memory that held something else. -/
theorem unescape_in_bounds_malformed :
    ReturnsText (unescapeObjectPath gintAdd ⟨fun n => List.replicate n 0xaa, by simp⟩ 8
      (ascii "_2d_g_4" ++ [0])) 8 (ascii "-g4") := by
  let path : Str (0 : UInt8) := ⟨ascii "_2d_g_4", by decide⟩
  have hlen : strlen path.mem = 7 := by decide
  have htext : Shim.unescapeObjectPath path.text = ascii "-g4" := by decide
  have h := (unescape_in_bounds ⟨fun n => List.replicate n 0xaa, by simp⟩ path 8
    (by rw [hlen]; decide)).2 (by rw [hlen]; decide)
  rw [hlen, htext] at h
  exact h

/-! What escape_object_path does. -/

theorem escapeFrom_spec {add : Int → Int → Int} {path : Bytes} {size : Nat}
    (hadd : ExactBelow size add) : ∀ (fuel n : Nat) (rest out result : Bytes),
    Inv 3 path size n rest out result → rest.length < fuel →
    ∃ res, escapeFrom add path fuel n out.length result = .ok res ∧
      Holds (out ++ Shim.escapeObjectPath rest) size res := by
  intro fuel
  induction fuel with
  | zero => intro n rest out result _ hf; omega
  | succ fuel ih =>
    intro n rest out result hinv hf
    cases rest with
    | nil =>
      refine ⟨(out.length, result), ?_, by simpa [Shim.escapeObjectPath] using hinv.holds⟩
      rw [escapeFrom, hinv.read_end, ok_bind, if_pos rfl]
      rfl
    | cons c rest =>
      have hidx := hinv.index
      have hroom := hinv.room
      rw [List.length_cons] at hidx hroom hf
      have h1 : add n 1 = ((n + 1 : Nat) : Int) := add_nat hadd (k := 1) (by omega)
      rw [escapeFrom, hinv.read, ok_bind, if_neg hinv.ne_zero, Shim.escapeObjectPath]
      by_cases hc : gAsciiIsalnum c = true
      · have hj : add out.length 1 = ((out.length + 1 : Nat) : Int) :=
          add_nat hadd (k := 1) (by omega)
        obtain ⟨result', hstore, hinv'⟩ := hinv.storeAt (by omega) c
        rw [if_pos hc, if_pos hc, hstore, ok_bind, h1, hj]
        have := ih (n + 1) _ _ _ hinv' (by omega)
        simpa using this
      · have hj : add out.length 3 = ((out.length + 3 : Nat) : Int) :=
          add_nat hadd (k := 3) (by omega)
        obtain ⟨x, y, he, -⟩ := escapeByte_eq c
        have hlen : (escapeByte c).length = 3 := by rw [he]; rfl
        obtain ⟨result', hstore, hpre, hlength⟩ := storeAll_prefix (escapeByte c ++ [0]) hinv.filled
          (by rw [hinv.length, List.length_append, hlen, List.length_singleton]; omega)
        have hinv' : Inv 3 path size (n + 1) rest (out ++ escapeByte c) result' := by
          refine hinv.store (by omega) ?_ hlength
          rw [← List.append_assoc] at hpre
          exact (List.prefix_append _ _).trans hpre
        rw [if_neg hc, if_neg hc, hstore, ok_bind, h1, hj]
        have := ih (n + 1) _ _ _ hinv' (by omega)
        rw [List.length_append, hlen, List.append_assoc] at this
        exact this

theorem escapeByte_ne_nul : ∀ c, 0 ∉ escapeByte c := by
  apply forall_byte
  decide +kernel

theorem escapeObjectPath_unended (path : Bytes) (h : 0 ∉ path) :
    0 ∉ Shim.escapeObjectPath path := by
  induction path with
  | nil => exact h
  | cons c path ih =>
    rw [List.mem_cons, not_or] at h
    rw [Shim.escapeObjectPath]
    split
    · rw [List.mem_cons, not_or]
      exact ⟨h.1, ih h.2⟩
    · rw [List.mem_append, not_or]
      exact ⟨escapeByte_ne_nul c, ih h.2⟩

theorem escapeObjectPath_run {add : Int → Int → Int} (malloc : GMalloc) (path : Str (0 : UInt8))
    {fuel : Nat} (hf : strlen path.mem < fuel) (hadd : ExactBelow (3 * strlen path.mem + 1) add) :
    ReturnsText (escapeObjectPath add malloc fuel path.mem) (3 * strlen path.mem + 1)
      (Shim.escapeObjectPath path.text) := by
  have hstart := Inv.start (k := 3) (by omega) malloc path
  rw [strlen, path.chars_mem] at hf
  exact ReturnsText.of_loop (escapeFrom_spec hadd fuel 0 _ _ _ hstart hf)
    (escapeObjectPath_unended _ path.unended)

/-! The texts that escape_object_path writes. -/

def isLowerHex (c : UInt8) : Bool := gAsciiIsdigit c || (chr 'a' ≤ c && c ≤ chr 'f')

/-- Letters and digits, and escapes of two lower-case hexadecimal digits. -/
inductive Escaped : Bytes → Prop where
  | nil : Escaped []
  | plain {c : UInt8} {text : Bytes} (hc : gAsciiIsalnum c = true) :
    Escaped text → Escaped (c :: text)
  | escape {x y : UInt8} {text : Bytes} (hx : isLowerHex x = true) (hy : isLowerHex y = true) :
    Escaped text → Escaped (chr '_' :: x :: y :: text)

theorem escapeByte_lowerHex : ∀ c, (escapeByte c).tail.all isLowerHex = true := by
  apply forall_byte
  decide +kernel

theorem escaped_escapeObjectPath (path : Bytes) : Escaped (Shim.escapeObjectPath path) := by
  induction path with
  | nil => exact .nil
  | cons c path ih =>
    rw [Shim.escapeObjectPath]
    split
    · rename_i hc
      exact .plain hc ih
    · obtain ⟨x, y, he, -⟩ := escapeByte_eq c
      have hhex := escapeByte_lowerHex c
      rw [he] at hhex ⊢
      simp only [List.tail_cons, List.all_cons, List.all_nil, Bool.and_true, Bool.and_eq_true]
        at hhex
      exact .escape hhex.1 hhex.2 ih

theorem lowerHex_alnum : ∀ c, isLowerHex c = true → gAsciiIsalnum c = true ∧ c ≠ chr '_' := by
  apply forall_byte
  decide +kernel

namespace Escaped

/-- Every byte may stand in an object path. -/
theorem valid {text : Bytes} (h : Escaped text) :
    ∀ c ∈ text, gAsciiIsalnum c = true ∨ c = chr '_' := by
  induction h with
  | nil => simp
  | plain hc _ ih =>
    rw [List.forall_mem_cons]
    exact ⟨.inl hc, ih⟩
  | escape hx hy _ ih =>
    simp only [List.forall_mem_cons]
    exact ⟨.inr trivial, .inl (lowerHex_alnum _ hx).1, .inl (lowerHex_alnum _ hy).1, ih⟩

/-- Every underscore starts an escape. -/
theorem underscore {text : Bytes} (h : Escaped text) : ∀ before after,
    text = before ++ chr '_' :: after →
    ∃ x y rest, after = x :: y :: rest ∧ isLowerHex x = true ∧ isLowerHex y = true ∧
      Escaped before ∧ Escaped rest := by
  induction h with
  | nil => intro before after he; simp at he
  | @plain c text hc htext ih =>
    intro before after he
    cases before with
    | nil => exact absurd (List.cons.inj he).1 (isalnum_class c hc).2.2.1
    | cons b before =>
      obtain ⟨hb, he⟩ := List.cons.inj he
      obtain ⟨x, y, rest, hafter, hx, hy, hbefore, hrest⟩ := ih before after he
      exact ⟨x, y, rest, hafter, hx, hy, hb ▸ .plain hc hbefore, hrest⟩
  | @escape x y text hx hy htext ih =>
    intro before after he
    match before, he with
    | [], he =>
      obtain ⟨-, rfl⟩ := List.cons.inj he
      exact ⟨x, y, text, rfl, hx, hy, .nil, htext⟩
    | [_], he =>
      have hu := (List.cons.inj (List.cons.inj he).2).1
      exact absurd hu (lowerHex_alnum x hx).2
    | [_, _], he =>
      have hu := (List.cons.inj (List.cons.inj (List.cons.inj he).2).2).1
      exact absurd hu (lowerHex_alnum y hy).2
    | b :: b' :: b'' :: before, he =>
      simp only [List.cons_append, List.cons.injEq] at he
      obtain ⟨rfl, rfl, rfl, he⟩ := he
      obtain ⟨x', y', rest, hafter, hx', hy', hbefore, hrest⟩ := ih before after he
      exact ⟨x', y', rest, hafter, hx', hy', .escape hx hy hbefore, hrest⟩

end Escaped

/-- On every path that is not empty the loop ends without a store outside the
`3 * strlen (path) + 1` bytes of the result, the NULs of snprintf included, and
the text returned is an element of an object path: not empty, of letters,
digits and underscores only, and each underscore between two well-formed parts
with the two digits of its own escape behind it. `gint` counters do the same as
long as they can count the result. -/
theorem escape_in_bounds (malloc : GMalloc) (path : Str (0 : UInt8)) (hne : path.text ≠ [])
    (fuel : Nat) (hf : strlen path.mem < fuel) :
    ReturnsText (escapeObjectPath (· + ·) malloc fuel path.mem) (3 * strlen path.mem + 1)
      (Shim.escapeObjectPath path.text) ∧
    (3 * strlen path.mem ≤ gMaxInt →
      ReturnsText (escapeObjectPath gintAdd malloc fuel path.mem) (3 * strlen path.mem + 1)
        (Shim.escapeObjectPath path.text)) ∧
    Shim.escapeObjectPath path.text ≠ [] ∧
    (∀ c ∈ Shim.escapeObjectPath path.text, gAsciiIsalnum c = true ∨ c = chr '_') ∧
    ∀ before after, Shim.escapeObjectPath path.text = before ++ chr '_' :: after →
      ∃ x y rest, after = x :: y :: rest ∧ isLowerHex x = true ∧ isLowerHex y = true ∧
        Escaped before ∧ Escaped rest := by
  have hescaped := escaped_escapeObjectPath path.text
  refine ⟨escapeObjectPath_run malloc path hf (exactBelow_add _), ?_, ?_, hescaped.valid,
    hescaped.underscore⟩
  · intro hlen
    exact escapeObjectPath_run malloc path hf (exactBelow_gintAdd (Nat.succ_le_succ hlen))
  · intro hnil
    have hmap := (escape_eq_iff path.text []).mp hnil
    exact hne (List.map_eq_nil_iff.mp hmap)

/-- The last byte is a negative `char`. -/
theorem escape_in_bounds_negative :
    ReturnsText (escapeObjectPath gintAdd ⟨fun n => List.replicate n 0xaa, by simp⟩ 4
      [chr 'a', chr '-', 0xc3, 0]) 10 (ascii "a_2d_ff") := by
  let path : Str (0 : UInt8) := ⟨[chr 'a', chr '-', 0xc3], by decide⟩
  have hlen : strlen path.mem = 3 := by decide
  have htext : Shim.escapeObjectPath path.text = ascii "a_2d_ff" := by decide
  have h := (escape_in_bounds ⟨fun n => List.replicate n 0xaa, by simp⟩ path (List.cons_ne_nil _ _)
    4 (by rw [hlen]; decide)).2.1 (by rw [hlen]; decide)
  rw [hlen, htext] at h
  exact h

end Shim.Mem
