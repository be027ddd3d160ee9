import Mathlib.Data.List.TakeWhile
import Mathlib.Tactic.Common

/- Memory that a program touches by index, each access checked against its
   bounds, and strings that end with a terminator. A buffer that is filled from
   its start holds what was stored as a prefix: `storeAt_prefix` and
   `storeAll_prefix` carry that over a store, `chars_of_prefix` reads the string
   off once the terminator is stored. Counters are integers under an addition
   of their own; `ExactBelow` says how far that is the true one. -/
namespace Buffer

variable {α : Type}

/-- How a program over buffers stops short. -/
inductive Fault where
  | read (i : Int)
  | store (i : Int)
  | unfinished
  deriving DecidableEq, Repr

/-- `buf[i]`. -/
def readAt (buf : List α) (i : Int) : Except Fault α :=
  if h : 0 ≤ i ∧ i.toNat < buf.length then .ok (buf.get ⟨i.toNat, h.2⟩) else .error (.read i)

/-- `buf[i] = a`. -/
def storeAt (buf : List α) (i : Int) (a : α) : Except Fault (List α) :=
  if 0 ≤ i ∧ i.toNat < buf.length then .ok (buf.set i.toNat a) else .error (.store i)

/-- One store after the other, from index `i` on. -/
def storeAll : List α → Int → List α → Except Fault (List α)
  | buf, _, [] => .ok buf
  | buf, i, a :: as => (storeAt buf i a).bind (fun buf => storeAll buf (i + 1) as)

theorem ok_bind {β ε : Type} (a : α) (f : α → Except ε β) : (Except.ok a >>= f) = f a := rfl

/-- Reading the first of what is left of a buffer behind `n` elements. -/
theorem readAt_drop {buf rest : List α} {a : α} {n : Nat} (h : buf.drop n = a :: rest) :
    readAt buf n = .ok a := by
  have hn : n < buf.length := by
    have := congrArg List.length h
    simp only [List.length_drop, List.length_cons] at this
    omega
  rw [List.drop_eq_getElem_cons hn, List.cons.injEq] at h
  unfold readAt
  rw [dif_pos ⟨by omega, by simpa using hn⟩]
  exact congrArg Except.ok h.1

theorem drop_succ_of_cons {buf rest : List α} {a : α} {n : Nat} (h : buf.drop n = a :: rest) :
    buf.drop (n + 1) = rest := by
  rw [← List.tail_drop, h, List.tail_cons]

/-- A store behind what is already there keeps it. -/
theorem storeAt_prefix {xs buf : List α} (a : α) (h : xs <+: buf) (hroom : xs.length < buf.length) :
    ∃ buf', storeAt buf xs.length a = .ok buf' ∧ xs ++ [a] <+: buf' ∧
      buf'.length = buf.length := by
  obtain ⟨rest, rfl⟩ := h
  cases rest with
  | nil => simp at hroom
  | cons b rest =>
    refine ⟨xs ++ a :: rest, ?_, ⟨rest, by simp⟩, by simp⟩
    unfold storeAt
    rw [if_pos ⟨by omega, by simp⟩]
    simp

theorem storeAll_prefix {xs buf : List α} (as : List α) (h : xs <+: buf)
    (hroom : xs.length + as.length ≤ buf.length) :
    ∃ buf', storeAll buf xs.length as = .ok buf' ∧ xs ++ as <+: buf' ∧
      buf'.length = buf.length := by
  induction as generalizing xs buf with
  | nil => exact ⟨buf, rfl, by simpa using h, rfl⟩
  | cons a as ih =>
    rw [List.length_cons] at hroom
    obtain ⟨buf₁, hstore, hpre, hlen⟩ := storeAt_prefix a h (by omega)
    have hnext : ((xs ++ [a]).length : Int) = xs.length + 1 := by simp
    obtain ⟨buf', hall, hpre', hlen'⟩ := ih hpre (by simp; omega)
    refine ⟨buf', ?_, by simpa using hpre', by omega⟩
    rw [storeAll, hstore]
    rw [hnext] at hall
    exact hall

/-! Terminated strings. -/

variable [DecidableEq α]

/-- The string that starts a buffer, up to its terminator. -/
def chars (nul : α) (buf : List α) : List α := buf.takeWhile (fun a => a ≠ nul)

theorem chars_of_prefix {nul : α} {xs buf : List α} (hx : nul ∉ xs) (h : xs ++ [nul] <+: buf) :
    chars nul buf = xs := by
  obtain ⟨rest, rfl⟩ := h
  unfold chars
  rw [List.append_assoc, List.takeWhile_append_of_pos]
  · simp
  · intro a ha
    have : a ≠ nul := fun he => hx (he ▸ ha)
    simpa using this

/-- A string in memory: its terminator comes last and nowhere before. -/
structure Str (nul : α) where
  text : List α
  unended : nul ∉ text

def Str.mem {nul : α} (s : Str nul) : List α := s.text ++ [nul]

@[simp] theorem Str.chars_mem {nul : α} (s : Str nul) : chars nul s.mem = s.text :=
  chars_of_prefix s.unended (List.prefix_refl _)

/-! Counters. -/

/-- `add` is the true addition where the sum stays below `size`. -/
def ExactBelow (size : Nat) (add : Int → Int → Int) : Prop :=
  ∀ i k, 0 ≤ i → 0 ≤ k → i + k < size → add i k = i + k

theorem exactBelow_add (size : Nat) : ExactBelow size (· + ·) := fun _ _ _ _ _ => rfl

/-- Two's complement in `word` values: the sum wraps. -/
def wrapAdd (word : Nat) (i k : Int) : Int := (i + k).bmod word

theorem exactBelow_wrapAdd {word size : Nat} (h : 2 * size ≤ word) :
    ExactBelow size (wrapAdd word) := by
  intro i k hi hk hb
  apply Int.bmod_eq_of_le_mul_two
  · omega
  · omega

end Buffer
