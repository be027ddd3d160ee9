import Mathlib.Data.List.Induction
import Mathlib.Tactic.Common

/- Runs of a labelled machine. `step s l` is the state after label `l`, or
   `none` where `l` is not enabled. `run_induct` proves a property of the
   labels so far and the state they lead to; `trail_invariant` one of every
   step of a run, given what the run is assumed to avoid; `trail_keeps` one of
   the end of a run, for every step of some kind before it. -/
namespace Runs

variable {σ ℓ : Type}

/-- The state after a list of labels, first label first. -/
def run (step : σ → ℓ → Option σ) : σ → List ℓ → Option σ
  | s, [] => some s
  | s, l :: ls => (step s l).bind (fun s' => run step s' ls)

theorem run_append (step : σ → ℓ → Option σ) (s : σ) (ls ms : List ℓ) :
    run step s (ls ++ ms) = (run step s ls).bind (fun s' => run step s' ms) := by
  induction ls generalizing s with
  | nil => rfl
  | cons l ls ih =>
    simp only [List.cons_append, run]
    cases step s l with
    | none => rfl
    | some s' => exact ih s'

theorem run_snoc (step : σ → ℓ → Option σ) (s : σ) (ls : List ℓ) (l : ℓ) :
    run step s (ls ++ [l]) = (run step s ls).bind (fun s' => step s' l) := by
  rw [run_append]
  congr 1
  funext s'
  simp only [run]
  cases step s' l <;> rfl

theorem run_snoc_some {step : σ → ℓ → Option σ} {s s'' : σ} {ls : List ℓ} {l : ℓ}
    (h : run step s (ls ++ [l]) = some s'') :
    ∃ s', run step s ls = some s' ∧ step s' l = some s'' := by
  rw [run_snoc] at h
  exact Option.bind_eq_some_iff.mp h

/-- A property of the labels so far and the state they lead to. -/
theorem run_induct {step : σ → ℓ → Option σ} {s₀ : σ} {P : List ℓ → σ → Prop} (h0 : P [] s₀)
    (hs : ∀ ls s l s', run step s₀ ls = some s → P ls s → step s l = some s' → P (ls ++ [l]) s') :
    ∀ ls s, run step s₀ ls = some s → P ls s := by
  intro ls
  induction ls using List.reverseRecOn with
  | nil =>
    intro s h
    obtain rfl := Option.some.inj h
    exact h0
  | append_singleton ls l ih =>
    intro s'' h
    obtain ⟨s', hr, hl⟩ := run_snoc_some h
    exact hs ls s' l s'' hr (ih s' hr) hl

/-- An invariant of the state alone. -/
theorem run_invariant {step : σ → ℓ → Option σ} {s₀ : σ} {I : σ → Prop} (h0 : I s₀)
    (hs : ∀ s l s', I s → step s l = some s' → I s') :
    ∀ ls s, run step s₀ ls = some s → I s :=
  run_induct (P := fun _ s => I s) h0 (fun _ s l s' _ hI hl => hs s l s' hI hl)

/-- Each label of a run, with the state it was taken in. -/
def trail (step : σ → ℓ → Option σ) : σ → List ℓ → List (σ × ℓ)
  | _, [] => []
  | s, l :: ls => (s, l) :: match step s l with
    | some s' => trail step s' ls
    | none => []

theorem trail_append {step : σ → ℓ → Option σ} {s s' : σ} {ls : List ℓ}
    (h : run step s ls = some s') (ms : List ℓ) :
    trail step s (ls ++ ms) = trail step s ls ++ trail step s' ms := by
  induction ls generalizing s with
  | nil =>
    obtain rfl := Option.some.inj h
    rfl
  | cons k ls ih =>
    simp only [run] at h
    obtain ⟨s₁, hk, h⟩ := Option.bind_eq_some_iff.mp h
    simp only [List.cons_append, trail, hk, ih h]

theorem trail_snoc {step : σ → ℓ → Option σ} {s s' : σ} {ls : List ℓ} {l : ℓ}
    (h : run step s ls = some s') : trail step s (ls ++ [l]) = trail step s ls ++ [(s', l)] := by
  rw [trail_append h]
  simp only [trail]
  cases step s' l <;> rfl

theorem mem_trail {step : σ → ℓ → Option σ} {s s' : σ} {ls : List ℓ} (h : run step s ls = some s')
    (l : ℓ) (ms : List ℓ) : (s', l) ∈ trail step s (ls ++ l :: ms) := by
  rw [trail_append h]
  exact List.mem_append_right _ (List.mem_cons_self ..)

/-- An invariant of the steps that `A` allows, and what it says of each step. -/
theorem trail_invariant {step : σ → ℓ → Option σ} {I : σ → Prop} {A G : σ → ℓ → Prop}
    (hs : ∀ s l s', I s → A s l → step s l = some s' → I s' ∧ G s l) {s t : σ} {ls : List ℓ}
    (h0 : I s) (hrun : run step s ls = some t) (hA : ∀ x ∈ trail step s ls, A x.1 x.2) :
    ∀ x ∈ trail step s ls, G x.1 x.2 := by
  induction ls generalizing s with
  | nil => simp [trail]
  | cons l ls ih =>
    simp only [run] at hrun
    obtain ⟨s', hl, hrun⟩ := Option.bind_eq_some_iff.mp hrun
    simp only [trail, hl, List.mem_cons, forall_eq_or_imp] at hA ⊢
    obtain ⟨hI, hG⟩ := hs s l s' h0 hA.1 hl
    exact ⟨hG, ih hI hrun hA.2⟩

/-- What a step marked by `M` establishes, and no later step undoes, holds at
the end of the run. -/
theorem trail_keeps {step : σ → ℓ → Option σ} {I : σ → Prop} {M : σ → ℓ → Prop} {K : σ → σ → Prop}
    (hI : ∀ s l s', I s → step s l = some s' → I s')
    (hM : ∀ s l s', I s → M s l → step s l = some s' → K s s')
    (hK : ∀ u s l s', I s → K u s → step s l = some s' → K u s') {s t : σ} {ls : List ℓ}
    (h0 : I s) (hrun : run step s ls = some t) :
    I t ∧ ∀ x ∈ trail step s ls, M x.1 x.2 → K x.1 t := by
  refine run_induct (P := fun ls t => I t ∧ ∀ x ∈ trail step s ls, M x.1 x.2 → K x.1 t)
    ⟨h0, by simp [trail]⟩ ?_ ls t hrun
  intro ls t l t' hr ih hl
  obtain ⟨hIt, hKt⟩ := ih
  refine ⟨hI t l t' hIt hl, ?_⟩
  rw [trail_snoc hr, List.forall_mem_append]
  refine ⟨fun x hx hm => hK x.1 t l t' hIt (hKt x hx hm) hl, fun x hx hm => ?_⟩
  rw [List.mem_singleton.mp hx] at hm ⊢
  exact hM t l t' hIt hm hl

end Runs
