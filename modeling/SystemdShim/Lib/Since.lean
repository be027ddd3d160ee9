import Mathlib.Tactic.Common

/- Looking back over a finite history, oldest entry first. `Since P Q es` says
   that some entry satisfies `P` and every entry after it `Q`. `since_append`
   is the rule for a history that grows: the last stretch decides on its own,
   or passes on what held before. `Along R es` says that every entry is in
   relation `R` to the history before it, and `along_snoc_iff` is its rule. -/
namespace History

variable {ε : Type}

def Since (P Q : ε → Prop) : List ε → Prop
  | [] => False
  | e :: es => (P e ∧ ∀ e' ∈ es, Q e') ∨ Since P Q es

instance decidableSince (P Q : ε → Prop) [DecidablePred P] [DecidablePred Q] :
    (es : List ε) → Decidable (Since P Q es)
  | [] => inferInstanceAs (Decidable False)
  | e :: es =>
    have := decidableSince P Q es
    inferInstanceAs (Decidable ((P e ∧ ∀ e' ∈ es, Q e') ∨ Since P Q es))

variable {P Q : ε → Prop} {es fs : List ε}

theorem since_iff : Since P Q es ↔ ∃ es₁ e es₂, es = es₁ ++ e :: es₂ ∧ P e ∧ ∀ e' ∈ es₂, Q e' := by
  induction es with
  | nil => simp [Since]
  | cons x es ih =>
    constructor
    · intro h
      obtain ⟨hp, hq⟩ | h := h
      · exact ⟨[], x, es, rfl, hp, hq⟩
      · obtain ⟨es₁, e, es₂, rfl, hp, hq⟩ := ih.mp h
        exact ⟨x :: es₁, e, es₂, rfl, hp, hq⟩
    · intro h
      obtain ⟨es₁, e, es₂, he, hp, hq⟩ := h
      cases es₁ with
      | nil =>
        obtain ⟨rfl, rfl⟩ := List.cons.inj he
        exact .inl ⟨hp, hq⟩
      | cons y es₁ =>
        obtain ⟨rfl, rfl⟩ := List.cons.inj he
        exact .inr (ih.mpr ⟨es₁, e, es₂, rfl, hp, hq⟩)

theorem since_append :
    Since P Q (es ++ fs) ↔ Since P Q fs ∨ (Since P Q es ∧ ∀ f ∈ fs, Q f) := by
  induction es with
  | nil => simp [Since]
  | cons e es ih =>
    simp only [List.cons_append, Since, ih, List.forall_mem_append]
    tauto

theorem since_snoc {e : ε} : Since P Q (es ++ [e]) ↔ P e ∨ (Since P Q es ∧ Q e) := by
  rw [since_append]
  simp [Since]

/-- Within a stretch where every entry satisfies `Q`. -/
theorem since_of_forall (hq : ∀ e ∈ es, Q e) : Since P Q es ↔ ∃ e ∈ es, P e := by
  induction es with
  | nil => simp [Since]
  | cons e es ih =>
    rw [List.forall_mem_cons] at hq
    simp only [Since, ih hq.2, List.mem_cons, exists_eq_or_imp]
    exact or_congr_left (and_iff_left hq.2)

/-- Within a stretch with no `P`. -/
theorem not_since (hp : ∀ e ∈ es, ¬ P e) : ¬ Since P Q es := by
  rw [since_iff]
  intro h
  obtain ⟨es₁, e, es₂, rfl, h, -⟩ := h
  exact hp e (by simp) h

/-- By the times of the entries. -/
theorem since_times : Since P Q es ↔
    ∃ (n : Nat) (e : ε), es[n]? = some e ∧ P e ∧
      ∀ (m : Nat) (e' : ε), n < m → es[m]? = some e' → Q e' := by
  rw [since_iff]
  constructor
  · intro h
    obtain ⟨es₁, e, es₂, rfl, hp, hq⟩ := h
    refine ⟨es₁.length, e, by simp, hp, fun m e' hm he' => hq e' ?_⟩
    rw [List.getElem?_append_right (Nat.le_of_lt hm), List.getElem?_cons,
      if_neg (by omega)] at he'
    exact List.mem_of_getElem? he'
  · intro h
    obtain ⟨n, e, hn, hp, hq⟩ := h
    obtain ⟨hlt, rfl⟩ := List.getElem?_eq_some_iff.mp hn
    refine ⟨es.take n, es[n], es.drop (n + 1), by simp, hp, fun e' he' => ?_⟩
    obtain ⟨m, hm⟩ := List.mem_iff_getElem?.mp he'
    rw [List.getElem?_drop] at hm
    exact hq (n + 1 + m) e' (by omega) hm

/-- Every entry is in relation `R` to the history before it. -/
def Along (R : List ε → ε → Prop) (es : List ε) : Prop :=
  ∀ (n : Nat) (e : ε), es[n]? = some e → R (es.take n) e

theorem along_nil {R : List ε → ε → Prop} : Along R [] := by simp [Along]

theorem along_snoc_iff {R : List ε → ε → Prop} {e : ε} :
    Along R (es ++ [e]) ↔ Along R es ∧ R es e := by
  constructor
  · intro h
    refine ⟨fun n e' hn => ?_, ?_⟩
    · have hlt := (List.getElem?_eq_some_iff.mp hn).1
      have he := h n e' (by rwa [List.getElem?_append_left hlt])
      rwa [List.take_append_of_le_length (Nat.le_of_lt hlt)] at he
    · have he := h es.length e List.getElem?_concat_length
      rwa [List.take_left] at he
  · intro h
    obtain ⟨h, he⟩ := h
    intro n e' hn
    by_cases hlt : n < es.length
    · rw [List.getElem?_append_left hlt] at hn
      rw [List.take_append_of_le_length (Nat.le_of_lt hlt)]
      exact h n e' hn
    · have hn' : n = es.length := by
        have := (List.getElem?_eq_some_iff.mp hn).1
        simp only [List.length_append, List.length_singleton] at this
        omega
      subst hn'
      rw [List.getElem?_concat_length] at hn
      rw [← Option.some.inj hn, List.take_left]
      exact he

theorem along_snoc {R : List ε → ε → Prop} {e : ε} (h : Along R es) (he : R es e) :
    Along R (es ++ [e]) := along_snoc_iff.mpr ⟨h, he⟩

end History
