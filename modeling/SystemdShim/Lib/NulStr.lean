import Mathlib.Tactic.Common
import SystemdShim.Lib.Buffer

/- Strings strung together in memory, each with its terminator. A pointer is
   what is left of the memory from where it points. `foreachPair` walks a table
   of pairs of strings up to an empty one; over the memory of a table it is a
   fold over the pairs (`foreachPair_mem`). `next` takes one record off a text
   of terminated entries, up to a number of elements at a time; `records` says
   what records that gives, and `findSome_records` that a search for an entry
   is not misled where no entry is longer than a record may be. -/
namespace NulStr
open Buffer

variable {α σ ρ β : Type} [DecidableEq α]

/-! Tables of pairs. -/

/-- Behind the string that starts here: `strchr (s, 0) + 1`. -/
def after (z : α) : List α → Option (List α)
  | [] => none
  | x :: s => if x = z then some s else after z s

/-- The pointer to the second string, when the first is at `i`:
`*(i) ? strchr (i, 0) + 1 : i`. -/
def second (z : α) (i : List α) : Option (List α) :=
  if i.head? = some z then some i else after z i

/-- The loop over a table: `i` is at a first string and `j` at a second one.
The body may end it with a result; `none` is a read behind the memory. -/
def foreachPair (z : α) (body : σ → List α → List α → Except ρ σ) :
    Nat → List α → List α → σ → Option (Except ρ σ)
  | 0, _, _, _ => none
  | _ + 1, [], _, _ => none
  | n + 1, x :: i, j, s =>
    if x = z then some (.ok s)
    else match body s (chars z (x :: i)) (chars z j) with
      | .error r => some (.error r)
      | .ok s => do
        let i ← after z j
        let j ← second z i
        foreachPair z body n i j s

/-- An entry of a table: an empty first string would end it. -/
structure Pair (z : α) where
  key : List α
  val : List α
  named : key ≠ []
  key_str : z ∉ key
  val_str : z ∉ val

variable {z : α}

def Pair.mem (p : Pair z) : List α := p.key ++ [z] ++ p.val ++ [z]

/-- The memory of a table, with the terminator that ends it. -/
def mem (t : List (Pair z)) : List α := t.flatMap Pair.mem ++ [z]

theorem after_append {s : List α} (hs : z ∉ s) (rest : List α) :
    after z (s ++ z :: rest) = some rest := by
  induction s with
  | nil => simp [after]
  | cons x s ih =>
    rw [List.mem_cons, not_or] at hs
    rw [List.cons_append, after, if_neg (Ne.symm hs.1)]
    exact ih hs.2

theorem chars_append {s : List α} (hs : z ∉ s) (rest : List α) : chars z (s ++ z :: rest) = s :=
  chars_of_prefix hs ⟨rest, by simp⟩

omit [DecidableEq α] in
theorem mem_cons (p : Pair z) (t : List (Pair z)) :
    mem (p :: t) = p.key ++ z :: (p.val ++ z :: mem t) := by
  simp [mem, Pair.mem]

/-- At the start of a table the second pointer is behind the first string; at
its end both stay at the last terminator. -/
theorem second_mem (t : List (Pair z)) :
    ∃ j, second z (mem t) = some j ∧ ∀ p t', t = p :: t' → j = p.val ++ z :: mem t' := by
  cases t with
  | nil => exact ⟨[z], by simp [second, mem], nofun⟩
  | cons p t =>
    have hne : (mem (p :: t)).head? ≠ some z := by
      rw [mem_cons]
      cases hk : p.key with
      | nil => exact absurd hk p.named
      | cons x k =>
        have := p.key_str
        rw [hk, List.mem_cons, not_or] at this
        simpa using Ne.symm this.1
    refine ⟨_, by rw [second, if_neg hne, mem_cons]; exact after_append p.key_str _, ?_⟩
    intro p' t' h
    obtain ⟨rfl, rfl⟩ := List.cons.inj h
    rfl

/-- From a pointer to a table on, the loop is a fold over its pairs. -/
theorem foreachPair_from (body : σ → List α → List α → Except ρ σ) (t : List (Pair z)) (n : Nat)
    (hn : t.length < n) (j : List α) (hj : ∀ p t', t = p :: t' → j = p.val ++ z :: mem t') (s : σ) :
    foreachPair z body n (mem t) j s =
      some (t.foldlM (fun s p => body s p.key p.val) s) := by
  induction t generalizing n j s with
  | nil =>
    obtain ⟨n, rfl⟩ : ∃ k, n = k + 1 := ⟨n - 1, by simp at hn; omega⟩
    show foreachPair z body (n + 1) ([] ++ [z]) j s = _
    simp [foreachPair, pure, Except.pure]
  | cons p t ih =>
    rw [List.length_cons] at hn
    obtain ⟨n, rfl⟩ : ∃ k, n = k + 1 := ⟨n - 1, by omega⟩
    obtain rfl := hj p t rfl
    obtain ⟨x, k, hk⟩ := List.exists_cons_of_ne_nil p.named
    have hx : x ≠ z := fun h => p.key_str (by rw [hk, ← h]; exact List.mem_cons_self ..)
    have hkey : chars z (x :: (k ++ z :: (p.val ++ z :: mem t))) = p.key := by
      rw [← List.cons_append, ← hk]
      exact chars_append p.key_str _
    have hmem : mem (p :: t) = x :: (k ++ z :: (p.val ++ z :: mem t)) := by
      rw [mem_cons, hk, List.cons_append]
    rw [hmem, foreachPair, if_neg hx, hkey, chars_append p.val_str, List.foldlM_cons]
    cases hb : body s p.key p.val with
    | error r => rfl
    | ok s' =>
      obtain ⟨j', hj', hspec⟩ := second_mem t
      simp only [after_append p.val_str, Option.bind_eq_bind, Option.bind_some, hj']
      exact ih n (by omega) j' hspec s'

/-- The walk over a table from its start. -/
def forPairs (z : α) (body : σ → List α → List α → Except ρ σ) (table : List α) (s : σ) :
    Option (Except ρ σ) := do
  let j ← after z table
  foreachPair z body (table.length + 1) table j s

omit [DecidableEq α] in
theorem length_le_mem (t : List (Pair z)) : t.length ≤ (mem t).length := by
  induction t with
  | nil => simp
  | cons p t ih => rw [mem_cons]; simp only [List.length_append, List.length_cons]; omega

/-- The walk stays in the memory of a table, and is the fold over its pairs. -/
theorem foreachPair_mem (body : σ → List α → List α → Except ρ σ) (t : List (Pair z)) (s : σ) :
    forPairs z body (mem t) s = some (t.foldlM (fun s p => body s p.key p.val) s) := by
  have hlen := length_le_mem t
  unfold forPairs
  cases t with
  | nil =>
    simp only [mem, List.flatMap_nil, List.nil_append, after, if_true, Option.bind_eq_bind,
      Option.bind_some]
    exact foreachPair_from body [] _ (by simp) [] nofun s
  | cons p t =>
    have ha : after z (mem (p :: t)) = some (p.val ++ z :: mem t) := by
      rw [mem_cons]
      exact after_append p.key_str _
    rw [ha, Option.bind_eq_bind, Option.bind_some]
    apply foreachPair_from body (p :: t) _ (by omega)
    intro p' t' h
    obtain ⟨rfl, rfl⟩ := List.cons.inj h
    rfl

/-! Records of a text. -/

/-- The next record: elements up to a terminator, which goes with it, but no
more than `n`. Nothing is left behind the record that the text ends in. -/
def next (z : α) : Nat → List α → List α × Option (List α)
  | 0, text => ([], some text)
  | _ + 1, [] => ([], none)
  | n + 1, x :: text =>
    if x = z then ([], some text) else ((x :: (next z n text).1), (next z n text).2)

/-- An entry in pieces of `n`, with what is left of it as the last one. -/
def pieces (n : Nat) (e : List α) : List (List α) :=
  if _h : n ≠ 0 ∧ n ≤ e.length then e.take n :: pieces n (e.drop n) else [e]
termination_by e.length
decreasing_by simp only [List.length_drop]; omega

/-- The records of a text whose entries are separated by terminators. -/
def records (z : α) (n : Nat) (text : List α) : List (List α) :=
  (text.splitOn z).flatMap (pieces n)

omit [DecidableEq α] in
theorem pieces_short {n : Nat} {e : List α} (h : e.length < n) : pieces n e = [e] := by
  rw [pieces, dif_neg]
  omega

omit [DecidableEq α] in
theorem pieces_long {n : Nat} {e : List α} (h0 : n ≠ 0) (h : n ≤ e.length) :
    pieces n e = e.take n :: pieces n (e.drop n) := by
  rw [pieces, dif_pos ⟨h0, h⟩]

/-- A text is its first entry alone, or that, a terminator and the rest. -/
theorem exists_entry (z : α) (text : List α) : ∃ e, z ∉ e ∧
    (text = e ∧ text.splitOn z = [e] ∨
      ∃ rest, text = e ++ z :: rest ∧ text.splitOn z = e :: rest.splitOn z) := by
  by_cases h : z ∈ text
  · obtain ⟨e, rest, rfl, he⟩ := List.eq_append_cons_of_mem h
    exact ⟨e, he, .inr ⟨rest, rfl, List.splitOn_append_cons_self_of_not_mem he rest⟩⟩
  · exact ⟨text, h, .inl ⟨rfl, List.splitOn_eq_singleton h⟩⟩

theorem next_short {n : Nat} {e : List α} (he : z ∉ e) (h : e.length < n) (rest : List α) :
    next z n (e ++ z :: rest) = (e, some rest) ∧ next z n e = (e, none) := by
  induction e generalizing n with
  | nil =>
    obtain ⟨n, rfl⟩ : ∃ k, n = k + 1 := ⟨n - 1, by simp at h; omega⟩
    simp [next]
  | cons x e ih =>
    rw [List.mem_cons, not_or] at he
    rw [List.length_cons] at h
    obtain ⟨n, rfl⟩ : ∃ k, n = k + 1 := ⟨n - 1, by omega⟩
    obtain ⟨h₁, h₂⟩ := ih he.2 (by omega : e.length < n)
    rw [List.cons_append, next, next, if_neg (Ne.symm he.1), if_neg (Ne.symm he.1), h₁, h₂]
    exact ⟨rfl, rfl⟩

theorem next_long {n : Nat} {e : List α} (he : z ∉ e) (h : n ≤ e.length) (rest : List α) :
    next z n (e ++ rest) = (e.take n, some (e.drop n ++ rest)) := by
  induction e generalizing n with
  | nil =>
    obtain rfl : n = 0 := by simpa using h
    simp [next]
  | cons x e ih =>
    cases n with
    | zero => simp [next]
    | succ n =>
      rw [List.mem_cons, not_or] at he
      rw [List.length_cons] at h
      have := ih he.2 (by omega : n ≤ e.length)
      rw [List.cons_append, next, if_neg (Ne.symm he.1), this]
      rfl

theorem not_mem_next (n : Nat) (text : List α) : z ∉ (next z n text).1 := by
  induction text generalizing n with
  | nil => cases n <;> simp [next]
  | cons x text ih =>
    cases n with
    | zero => simp [next]
    | succ n =>
      rw [next]
      split
      · simp
      · rename_i hx
        rw [List.mem_cons, not_or]
        exact ⟨Ne.symm hx, ih n⟩

theorem length_next (n : Nat) (text : List α) : (next z n text).1.length ≤ n := by
  induction text generalizing n with
  | nil => cases n <;> simp [next]
  | cons x text ih =>
    cases n with
    | zero => simp [next]
    | succ n =>
      rw [next]
      split
      · simp
      · simpa using ih n

/-- A record that does not end the text takes something off it. -/
theorem next_shorter {n : Nat} {text rest : List α} (h0 : n ≠ 0)
    (h : (next z n text).2 = some rest) : rest.length < text.length := by
  have shorter : ∀ n text, (next z n text).2 = some rest → rest.length ≤ text.length := by
    intro n text
    induction text generalizing n with
    | nil => cases n <;> simp +contextual [next]
    | cons x text ih =>
      intro h
      cases n with
      | zero =>
        obtain rfl := Option.some.inj h
        exact Nat.le_refl _
      | succ n =>
        rw [next] at h
        split at h
        · obtain rfl := Option.some.inj h
          exact Nat.le_succ _
        · exact Nat.le_succ_of_le (ih n h)
  obtain ⟨n, rfl⟩ : ∃ k, n = k + 1 := ⟨n - 1, by omega⟩
  cases text with
  | nil => simp [next] at h
  | cons x text =>
    rw [next] at h
    split at h
    · obtain rfl := Option.some.inj h
      exact Nat.lt_succ_self _
    · exact Nat.lt_succ_of_le (shorter n text h)

/-- The records are what `next` gives, one after the other. -/
theorem records_next {n : Nat} (h0 : n ≠ 0) (text : List α) :
    records z n text = (next z n text).1 :: match (next z n text).2 with
      | some rest => records z n rest
      | none => [] := by
  obtain ⟨e, he, ⟨rfl, hsplit⟩ | ⟨rest, rfl, hsplit⟩⟩ := exists_entry z text
  · rw [records, hsplit]
    by_cases hn : n ≤ text.length
    · have hnext := next_long he hn []
      have hdrop : z ∉ text.drop n := fun h => he (List.mem_of_mem_drop h)
      rw [List.append_nil] at hnext
      rw [hnext, List.append_nil]
      simp [records, List.splitOn_eq_singleton hdrop, pieces_long h0 hn]
    · rw [(next_short he (by omega) []).2]
      simp [pieces_short (by omega : text.length < n)]
  · rw [records, hsplit, List.flatMap_cons]
    by_cases hn : n ≤ e.length
    · have hdrop : z ∉ e.drop n := fun h => he (List.mem_of_mem_drop h)
      rw [next_long he hn, pieces_long h0 hn]
      simp only [records, List.splitOn_append_cons_self_of_not_mem hdrop, List.flatMap_cons,
        List.cons_append]
    · rw [(next_short he (by omega) rest).1, pieces_short (by omega : e.length < n)]
      rfl

omit [DecidableEq α] in
/-- An entry that a record has room for is found as it is. -/
theorem findSome_pieces {f : List α → Option β} (hf : f [] = none) {n : Nat} (h0 : n ≠ 0)
    {e : List α} (he : e.length ≤ n) : (pieces n e).findSome? f = f e := by
  by_cases h : e.length < n
  · rw [pieces_short h, List.findSome?_singleton]
  · obtain rfl : n = e.length := by omega
    have hnil : ([] : List α).length < e.length := by rw [List.length_nil]; omega
    rw [pieces_long h0 (by omega), List.take_length, List.drop_length, pieces_short hnil]
    cases h : f e with
    | none => simp [h, hf]
    | some b => simp [h]

theorem findSome_records {f : List α → Option β} (hf : f [] = none) {n : Nat} (h0 : n ≠ 0)
    {text : List α} (hshort : ∀ e ∈ text.splitOn z, e.length ≤ n) :
    (records z n text).findSome? f = (text.splitOn z).findSome? f := by
  unfold records
  generalize text.splitOn z = es at hshort
  induction es with
  | nil => rfl
  | cons e es ih =>
    rw [List.forall_mem_cons] at hshort
    rw [List.flatMap_cons, List.findSome?_append, ih hshort.2, List.findSome?_cons,
      findSome_pieces hf h0 hshort.1]
    cases f e <;> rfl

end NulStr
