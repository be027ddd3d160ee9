import Mathlib.Tactic.Common

/- The hierarchy a separator puts on the words of an alphabet. `cuts d w` are
   the parts of `w` before each occurrence of `d`, shortest first, and
   `stages d w` adds `w` itself: the chain of words from the top of the
   hierarchy down to `w`. One chain starts another exactly when its last word
   is the other's, or the other goes on from it with a separator. -/
namespace Stages

variable {α : Type}

theorem map_cons_prefix {x y : α} {S T : List (List α)} (hS : S ≠ []) :
    S.map (x :: ·) <+: T.map (y :: ·) ↔ x = y ∧ S <+: T := by
  constructor
  · intro h
    have hx : x = y := by
      cases S with
      | nil => exact absurd rfl hS
      | cons s S =>
        cases T with
        | nil => simp at h
        | cons t T =>
          simp only [List.map_cons, List.cons_prefix_cons] at h
          exact (List.cons.inj h.1).1
    subst hx
    exact ⟨rfl, (List.prefix_map_iff_of_injective (fun _ _ e => (List.cons.inj e).2)).mp h⟩
  · intro h
    obtain ⟨rfl, h⟩ := h
    exact h.map _

variable [DecidableEq α]

/-- The parts of a word before each separator. -/
def cuts (d : α) : List α → List (List α)
  | [] => []
  | x :: w => (if x = d then [[]] else []) ++ (cuts d w).map (x :: ·)

/-- The chain of words down to `w`. -/
def stages (d : α) (w : List α) : List (List α) := cuts d w ++ [w]

theorem cuts_append (d : α) (u v : List α) :
    cuts d (u ++ v) = cuts d u ++ (cuts d v).map (u ++ ·) := by
  induction u with
  | nil => simp [cuts]
  | cons x u ih => simp [cuts, ih, Function.comp_def]

theorem cuts_eq_nil {d : α} {w : List α} (h : d ∉ w) : cuts d w = [] := by
  induction w with
  | nil => rfl
  | cons x w ih =>
    rw [List.mem_cons, not_or] at h
    simp [cuts, ih h.2, Ne.symm h.1]

theorem stages_cons (d x : α) (w : List α) :
    stages d (x :: w) = (if x = d then [[]] else []) ++ (stages d w).map (x :: ·) := by
  simp [stages, cuts]

theorem prefix_of_mem_cuts {d : α} {c w : List α} (hc : c ∈ cuts d w) : c <+: w := by
  induction w generalizing c with
  | nil => simp [cuts] at hc
  | cons y w ih =>
    rw [cuts, List.mem_append] at hc
    rcases hc with hc | hc
    · split at hc
      · simp at hc; subst hc; exact List.nil_prefix
      · simp at hc
    · obtain ⟨c', hc', rfl⟩ := List.mem_map.mp hc
      exact List.cons_prefix_cons.mpr ⟨rfl, ih hc'⟩

theorem mem_cuts {d x : α} {c w : List α} (hc : c ∈ cuts d w) (hx : x ∈ c) : x ∈ w :=
  (prefix_of_mem_cuts hc).subset hx

theorem cuts_ne_nil {d : α} {w : List α} (h : d ∈ w) : cuts d w ≠ [] := by
  obtain ⟨u, v, rfl⟩ := List.append_of_mem h
  simp [cuts_append, cuts]

theorem stages_ne_nil (d : α) (w : List α) : stages d w ≠ [] := by simp [stages]

/-- The chain of `a` starts the chain of `b` exactly when `b` is `a` or goes
on from `a` with a separator. -/
theorem stages_prefix_iff (d : α) (a b : List α) :
    stages d a <+: stages d b ↔ a = b ∨ a ++ [d] <+: b := by
  induction a generalizing b with
  | nil =>
    -- the chain of the empty word starts another if that one opens with a cut
    cases b with
    | nil => simp
    | cons y b =>
      rw [stages_cons]
      by_cases hy : y = d
      · simp [stages, cuts, hy]
      · rw [if_neg hy, List.nil_append]
        have : ¬ (stages d [] <+: (stages d b).map (y :: ·)) := by
          cases hT : stages d b with
          | nil => exact absurd hT (stages_ne_nil d b)
          | cons t T => simp [stages, cuts]
        simp [this, Ne.symm hy]
  | cons x a ih =>
    -- the words must open alike, and then their rests decide
    cases b with
    | nil =>
      rw [stages_cons]
      cases hS : stages d a with
      | nil => exact absurd hS (stages_ne_nil d a)
      | cons s S => by_cases hx : x = d <;> simp [stages, cuts, hx]
    | cons y b =>
      rw [stages_cons, stages_cons]
      have hb : (x :: a = y :: b ∨ x :: a ++ [d] <+: y :: b) ↔
          x = y ∧ stages d a <+: stages d b := by
        rw [ih b]
        simp only [List.cons_append, List.cons_prefix_cons, List.cons.injEq]
        tauto
      rw [hb, ← map_cons_prefix (stages_ne_nil d a)]
      cases hS : stages d a with
      | nil => exact absurd hS (stages_ne_nil d a)
      | cons s S =>
        cases hT : stages d b with
        | nil => exact absurd hT (stages_ne_nil d b)
        | cons t T =>
          by_cases hx : x = d <;> by_cases hy : y = d
          · simp [hx, hy]
          · have : x ≠ y := fun h => hy (h ▸ hx)
            simp [hx, hy, Ne.symm hy]
          · simp [hx, hy]
          · simp [hx, hy]

/-- Cutting at `x` what was strung together with `x` gives the parts back. -/
theorem splitOn_flatMap {x : α} {parts : List (List α)} {last : List α}
    (hp : ∀ p ∈ parts, x ∉ p) (hl : x ∉ last) :
    (parts.flatMap (· ++ [x]) ++ last).splitOn x = parts ++ [last] := by
  induction parts with
  | nil => exact List.splitOn_eq_singleton hl
  | cons p parts ih =>
    rw [List.forall_mem_cons] at hp
    simp only [List.flatMap_cons, List.append_assoc, List.cons_append, List.nil_append]
    rw [List.splitOn_append_cons_self_of_not_mem hp.1, ih hp.2]

omit [DecidableEq α] in
/-- A prefix that ends in `d` does not reach into a part without `d`. -/
theorem concat_prefix_append_iff {d : α} {u v w : List α} (hw : d ∉ w) :
    u ++ [d] <+: v ++ w ↔ u ++ [d] <+: v := by
  refine ⟨fun h => ?_, fun h => h.trans (List.prefix_append v w)⟩
  rcases List.prefix_or_prefix_of_prefix h (List.prefix_append v w) with h' | ⟨r, hr⟩
  · exact h'
  · -- otherwise `v` ends before the `d`, which then is in `w`
    rw [← hr] at h
    have hrw : r <+: w := (List.prefix_append_right_inj v).mp h
    rcases List.eq_nil_or_concat r with rfl | ⟨r', y, rfl⟩
    · exact ⟨[], by rw [← hr, List.append_nil, List.append_nil]⟩
    · rw [List.concat_eq_append, ← List.append_assoc] at hr
      obtain ⟨-, hy⟩ := List.append_inj' hr rfl
      obtain rfl := List.head_eq_of_cons_eq hy
      exact absurd (hrw.subset (by simp)) hw

end Stages
