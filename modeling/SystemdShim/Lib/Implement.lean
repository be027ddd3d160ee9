import SystemdShim.Lib.Prog

/- Programs whose acts are programs themselves. `implement` runs a program with
   each act done by a program of a lower level, which has acts and a state of its
   own. `Realises` cuts a run of the lower level into the acts it does, and
   `replay_implement` says that every run is cut so: the upper run it gives is a
   run of the program, and what holds of all of those holds of it. `keeps`
   carries a relation between the two traces from one act to all of them. -/
namespace Effects

variable {A B : Type} {R : A → Type} {S : B → Type} {H K α β τ : Type}

namespace Prog

/-- Where a sequence ends, its first part has returned, or all of it halted. -/
theorem replay_bind_some [DecidableEq A] {p : Prog A R H α} {f : α → Prog A R H β} {t : Trace R}
    {o : Except H β} (h : (p.bind f).replay t = some o) :
    (∃ t₁ t₂ a, t = t₁ ++ t₂ ∧ p.replay t₁ = some (.ok a) ∧ (f a).replay t₂ = some o) ∨
      ∃ x, p.replay t = some (.error x) ∧ o = .error x := by
  induction p generalizing t with
  | ret a => exact .inl ⟨[], t, a, rfl, rfl, h⟩
  | halt x =>
    cases t with
    | nil =>
      obtain rfl := Option.some.inj h
      exact .inr ⟨x, rfl, rfl⟩
    | cons e t => simp [bind, replay] at h
  | act a k ih =>
    obtain ⟨r, t', rfl, hk⟩ := replay_act_some h
    obtain ⟨t₁, t₂, b, rfl, h₁, h₂⟩ | ⟨x, hx, rfl⟩ := ih r hk
    · exact .inl ⟨⟨a, r⟩ :: t₁, t₂, b, rfl, by rw [replay_act]; exact h₁, h₂⟩
    · exact .inr ⟨x, by rw [replay_act]; exact hx, rfl⟩

/-- Each act done by a program of the lower level, each halt passed down. -/
def implement (impl : (a : A) → Proc B S K τ (R a)) (down : H → K) :
    Prog A R H α → Proc B S K τ α
  | .ret a => pure a
  | .halt x => Proc.halt (down x)
  | .act a k => impl a >>= fun r => (k r).implement impl down

end Prog

section Realises
variable [DecidableEq B] (impl : (a : A) → Proc B S K τ (R a))

/-- The run `T` of the lower level, from the state `s` to `s'`, is one run after
the other of what does the acts of `t`. -/
inductive Realises : τ → Trace R → Trace S → τ → Prop
  | nil (s : τ) : Realises s [] [] s
  | cons {s s₁ s' : τ} {a : A} {r : R a} {t : Trace R} {T₁ T : Trace S}
      (head : ((impl a).run s).replay T₁ = some (.ok (r, s₁))) (tail : Realises s₁ t T s') :
      Realises s (⟨a, r⟩ :: t) (T₁ ++ T) s'

variable {impl} {s s' : τ} {t : Trace R} {T : Trace S}

/-- What the program of each act keeps of the two traces so far, a realisation
keeps. -/
theorem Realises.keeps {P : τ → Trace R → Trace S → Prop}
    (hact : ∀ a s t T, P s t T → (impl a).wp s (fun T' o => ∀ r s', o = .ok (r, s') →
      P s' (t ++ [⟨a, r⟩]) (T ++ T'))) {t₀ : Trace R} {T₀ : Trace S} (h0 : P s t₀ T₀)
    (h : Realises impl s t T s') : P s' (t₀ ++ t) (T₀ ++ T) := by
  induction h generalizing t₀ T₀ with
  | nil s => simpa using h0
  | cons head _ ih =>
    have hstep := (Prog.wp_iff_replay _ _).mp (hact _ _ t₀ T₀ h0) _ _ head _ _ rfl
    simpa using ih hstep

variable [DecidableEq A] {J : τ → Prop} {down : H → K}

/-- Every run of the lower level realises a run of the program, and ends as that
does, where no act's program halts. -/
theorem replay_implement (hJ : ∀ a s, J s → (impl a).wp s
      (fun _ o => ∃ r s', o = .ok (r, s') ∧ J s')) (p : Prog A R H α) {o : Except K (α × τ)}
    (hs : J s) (h : ((p.implement impl down).run s).replay T = some o) :
    ∃ t s', Realises impl s t T s' ∧ J s' ∧
      ((∃ a, o = .ok (a, s') ∧ p.replay t = some (.ok a)) ∨
        ∃ x, o = .error (down x) ∧ p.replay t = some (.error x)) := by
  induction p generalizing s T with
  | ret a =>
    cases T with
    | nil =>
      obtain rfl := Option.some.inj h
      exact ⟨[], s, .nil s, hs, .inl ⟨a, rfl, rfl⟩⟩
    | cons e T => cases h
  | halt x =>
    cases T with
    | nil =>
      obtain rfl := Option.some.inj h
      exact ⟨[], s, .nil s, hs, .inr ⟨x, rfl, rfl⟩⟩
    | cons e T => cases h
  | act a k ih =>
    have hact := (Prog.wp_iff_replay _ _).mp (hJ a s hs)
    obtain ⟨T₁, T₂, ⟨r, s₁⟩, rfl, h₁, h₂⟩ | ⟨x, hx, -⟩ := Prog.replay_bind_some h
    · obtain ⟨_, _, he, hs₁⟩ := hact _ _ h₁
      obtain ⟨rfl, rfl⟩ := Prod.mk.inj (Except.ok.inj he)
      obtain ⟨t, s', hreal, hs', hend⟩ := ih r hs₁ h₂
      refine ⟨⟨a, r⟩ :: t, s', .cons h₁ hreal, hs', ?_⟩
      rw [Prog.replay_act]
      exact hend
    · obtain ⟨_, _, he, -⟩ := hact _ _ hx
      cases he

end Realises

end Effects
