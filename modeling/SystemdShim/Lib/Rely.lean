import Mathlib.Logic.Relation
import SystemdShim.Lib.Prog

/- Programs amid surroundings that move on their own. The states of the
   `Surroundings` change between the acts of a program, and by its acts; a
   program must make sure of `permits` before each act. `Prog.safe` says that it
   does, whatever the surroundings do, and that it ends as `Q` says; `Guards` is
   the form with an invariant over both states, with one rule for each program
   former. A program whose footprint leaves the invariant alone guards it by
   `of_footprint`. -/
namespace Effects

variable {A : Type} {R : A → Type} {H M σ α β : Type}

structure Surroundings (R : A → Type) (M : Type) where
  /-- What may happen between two acts. -/
  moves : M → M → Prop
  /-- The state after an act, if the answer is one that can come. -/
  answer : M → Event R → Option M
  permits : M → A → Prop
  refl : ∀ m, moves m m
  trans : ∀ {m m' m''}, moves m m' → moves m' m'' → moves m m''

namespace Prog
variable {W : Surroundings R M}

/-- Every act is permitted in every state it may come to be done in, and the
program ends as `Q` says. -/
def safe (W : Surroundings R M) : Prog A R H α → M → (Except H α → M → Prop) → Prop
  | .ret a, m, Q => ∀ m', W.moves m m' → Q (.ok a) m'
  | .halt h, m, Q => ∀ m', W.moves m m' → Q (.error h) m'
  | .act a k, m, Q => ∀ m', W.moves m m' →
      W.permits m' a ∧ ∀ r m'', W.answer m' ⟨a, r⟩ = some m'' → (k r).safe W m'' Q

variable {Q Q' : Except H α → M → Prop}

/-- The surroundings have moved on. -/
theorem safe_moves {p : Prog A R H α} {m m' : M} (h : p.safe W m Q) (hm : W.moves m m') :
    p.safe W m' Q := by
  cases p with
  | ret a => exact fun m'' hm' => h m'' (W.trans hm hm')
  | halt x => exact fun m'' hm' => h m'' (W.trans hm hm')
  | act a k => exact fun m'' hm' => h m'' (W.trans hm hm')

theorem safe_mono {p : Prog A R H α} {m : M} (h : p.safe W m Q) (hQ : ∀ o m, Q o m → Q' o m) :
    p.safe W m Q' := by
  induction p generalizing m with
  | ret a => exact fun m' hm => hQ _ _ (h m' hm)
  | halt x => exact fun m' hm => hQ _ _ (h m' hm)
  | act a k ih =>
    intro m' hm
    obtain ⟨hp, hk⟩ := h m' hm
    exact ⟨hp, fun r m'' hr => ih r (hk r m'' hr)⟩

/-- Now, and by the next act. -/
theorem safe_act {a : A} {k : R a → Prog A R H α} {m : M} (h : (Prog.act a k).safe W m Q) :
    W.permits m a ∧ ∀ r m', W.answer m ⟨a, r⟩ = some m' → (k r).safe W m' Q := h m (W.refl m)

theorem safe_bind {p : Prog A R H α} {f : α → Prog A R H β} {m : M} {Q : Except H β → M → Prop}
    (h : p.safe W m (fun o m' => match o with
      | .ok a => (f a).safe W m' Q
      | .error x => Q (.error x) m')) : (p.bind f).safe W m Q := by
  induction p generalizing m with
  | ret a => exact h m (W.refl m)
  | halt x => exact h
  | act a k ih =>
    intro m' hm
    obtain ⟨hp, hk⟩ := h m' hm
    exact ⟨hp, fun r m'' hr => ih r (hk r m'' hr)⟩

/-- A program is safe that does only acts which are permitted wherever `I`
holds, and keep `I`. -/
theorem safe_of_wp [∀ a, Nonempty (R a)] {allowed : A → Bool} {I : M → Prop}
    {Φ : Except H α → Prop} (hI : ∀ m m', W.moves m m' → I m → I m')
    (hp : ∀ m a, allowed a = true → I m → W.permits m a)
    (ha : ∀ m a r m', allowed a = true → I m → W.answer m ⟨a, r⟩ = some m' → I m')
    {p : Prog A R H α} {m : M} (h : p.wp (fun t o => (∀ e ∈ t, allowed e.1 = true) ∧ Φ o))
    (hm : I m) :
    p.safe W m (fun o m' => Φ o ∧ I m') := by
  induction p generalizing m with
  | ret a => exact fun m' hm' => ⟨h.2, hI m m' hm' hm⟩
  | halt x => exact fun m' hm' => ⟨h.2, hI m m' hm' hm⟩
  | act a k ih =>
    intro m' hm'
    have hIm := hI m m' hm' hm
    have hallowed : allowed a = true := by
      obtain ⟨r⟩ := (inferInstance : Nonempty (R a))
      obtain ⟨t, o, ht, -⟩ := wp_exists (h r)
      exact ht _ (List.mem_cons_self ..)
    refine ⟨hp m' a hallowed hIm, fun r m'' hr => ?_⟩
    apply ih r _ (ha m' a r m'' hallowed hIm hr)
    apply wp_mono (h r)
    intro t o ho
    exact ⟨fun e he => ho.1 e (List.mem_cons_of_mem _ he), ho.2⟩

/-- Surroundings that take every answer say something of every run. -/
theorem wp_of_safe (htotal : ∀ m e, ∃ m', W.answer m e = some m') {p : Prog A R H α} {m : M}
    (h : p.safe W m Q) :
    p.wp (fun t o => (∀ e ∈ t, ∃ m, W.permits m e.1) ∧ ∃ m', Q o m') := by
  induction p generalizing m with
  | ret a => exact ⟨by simp, m, h m (W.refl m)⟩
  | halt x => exact ⟨by simp, m, h m (W.refl m)⟩
  | act a k ih =>
    intro r
    obtain ⟨hp, hk⟩ := safe_act h
    obtain ⟨m', hm'⟩ := htotal m ⟨a, r⟩
    apply wp_mono (ih r (hk r m' hm'))
    intro t o ho
    obtain ⟨ht, hQ⟩ := ho
    refine ⟨?_, hQ⟩
    rw [List.forall_mem_cons]
    exact ⟨⟨m, hp⟩, ht⟩

/-- A run in which the surroundings only answer ends as a safe one does. -/
theorem safe_replay [DecidableEq A] {p : Prog A R H α} {m m' : M} {t : Trace R} {o : Except H α}
    (h : p.safe W m Q) (hr : p.replay t = some o) (ht : t.foldlM W.answer m = some m') :
    Q o m' := by
  induction p generalizing m t with
  | ret a =>
    cases t with
    | nil =>
      obtain rfl := Option.some.inj hr
      obtain rfl := Option.some.inj ht
      exact h m (W.refl m)
    | cons e t => cases hr
  | halt x =>
    cases t with
    | nil =>
      obtain rfl := Option.some.inj hr
      obtain rfl := Option.some.inj ht
      exact h m (W.refl m)
    | cons e t => cases hr
  | act a k ih =>
    obtain ⟨r, t', rfl, hk⟩ := replay_act_some hr
    rw [List.foldlM_cons] at ht
    obtain ⟨m₁, h₁, ht⟩ := Option.bind_eq_some_iff.mp ht
    exact ih r ((safe_act h).2 r m₁ h₁) hk ht

end Prog

namespace Proc
variable {W : Surroundings R M}

def safe (W : Surroundings R M) (x : Proc A R H σ α) (s : σ) (m : M)
    (Q : Except H (α × σ) → M → Prop) : Prop := (x.run s).safe W m Q

/-- The first part, then the rest from every end it allows. -/
theorem safe_seq {x : Proc A R H σ α} {f : α → Proc A R H σ β} {s : σ} {m : M}
    {P : Except H (α × σ) → M → Prop} {Q : Except H (β × σ) → M → Prop} (hx : x.safe W s m P)
    (hok : ∀ a s' m', P (.ok (a, s')) m' → (f a).safe W s' m' Q)
    (herr : ∀ h m', P (.error h) m' → Q (.error h) m') : (x >>= f).safe W s m Q := by
  apply Prog.safe_bind
  apply Prog.safe_mono hx
  intro o m' h
  cases o with
  | ok p => exact hok p.1 p.2 m' h
  | error e => exact herr e m' h

/-- After a first part that always returns. -/
theorem safe_seq_ok {x : Proc A R H σ α} {f : α → Proc A R H σ β} {s : σ} {m : M}
    {P : α → σ → M → Prop} {Q : Except H (β × σ) → M → Prop}
    (hx : x.safe W s m (fun o m' => ∃ a s', o = .ok (a, s') ∧ P a s' m'))
    (hok : ∀ a s' m', P a s' m' → (f a).safe W s' m' Q) : (x >>= f).safe W s m Q := by
  apply safe_seq hx
  · intro a s' m' h
    obtain ⟨_, _, he, h⟩ := h
    obtain ⟨rfl, rfl⟩ := Prod.mk.inj (Except.ok.inj he)
    exact hok a s' m' h
  · intro h m' he
    obtain ⟨_, _, he, -⟩ := he
    cases he

section Formers
variable {s : σ} {m : M} {Q : Except H (β × σ) → M → Prop}

theorem safe_pure (b : β) : (pure b : Proc A R H σ β).safe W s m Q ↔
    ∀ m', W.moves m m' → Q (.ok (b, s)) m' := Iff.rfl

theorem safe_act_bind (a : A) (f : R a → Proc A R H σ β) :
    (perform a >>= f : Proc A R H σ β).safe W s m Q ↔
      ∀ m', W.moves m m' → W.permits m' a ∧
        ∀ r m'', W.answer m' ⟨a, r⟩ = some m'' → (f r).safe W s m'' Q := Iff.rfl

theorem safe_get_bind (f : σ → Proc A R H σ β) :
    (MonadState.get >>= f : Proc A R H σ β).safe W s m Q ↔ (f s).safe W s m Q := Iff.rfl

theorem safe_modify (g : σ → σ) {Q : Except H (PUnit × σ) → M → Prop} :
    (modify g : Proc A R H σ PUnit).safe W s m Q ↔
      ∀ m', W.moves m m' → Q (.ok (⟨⟩, g s)) m' := Iff.rfl

end Formers

/-- `J` at a return, `K` at a halt. -/
def Settles (J : σ → M → Prop) (K : H → Prop) : Except H (α × σ) → M → Prop
  | .ok (_, s), m => J s m
  | .error h, _ => K h

/-- From `J`, the program is safe, and returns with `J'` or halts with `K`. -/
def Guards (W : Surroundings R M) (J J' : σ → M → Prop) (K : H → Prop)
    (x : Proc A R H σ α) : Prop :=
  ∀ s m, J s m → x.safe W s m (Settles J' K)

/-- What the surroundings cannot undo. -/
def Stable (W : Surroundings R M) (J : σ → M → Prop) : Prop :=
  ∀ s m m', W.moves m m' → J s m → J s m'

namespace Guards
variable {J J' J'' : σ → M → Prop} {K : H → Prop}

theorem pure (hJ : Stable W J) (a : α) : Guards W J J K (Pure.pure a : Proc A R H σ α) :=
  fun s m hs m' hm => hJ s m m' hm hs

theorem modify (hJ : Stable W J') {g : σ → σ} (h : ∀ s m, J s m → J' (g s) m) :
    Guards W J J' K (modify g : Proc A R H σ PUnit) :=
  fun s m hs m' hm => hJ _ m m' hm (h s m hs)

theorem act (hJ : Stable W J) {a : A} (hp : ∀ s m, J s m → W.permits m a)
    (ha : ∀ s m r m', J s m → W.answer m ⟨a, r⟩ = some m' → J s m') :
    Guards W J J K (perform a : Proc A R H σ (R a)) := by
  intro s m hs m₁ h₁
  have hs₁ := hJ s m m₁ h₁ hs
  refine ⟨hp s m₁ hs₁, fun r m₂ h₂ m₃ h₃ => ?_⟩
  exact hJ s m₂ m₃ h₃ (ha s m₁ r m₂ hs₁ h₂)

theorem ite {c : Prop} [Decidable c] {x y : Proc A R H σ α} (hx : Guards W J J' K x)
    (hy : Guards W J J' K y) : Guards W J J' K (if c then x else y) := by
  by_cases h : c
  · simp only [h, if_true]; exact hx
  · simp only [h, if_false]; exact hy

theorem halt {h : H} (hk : K h) : Guards W J J' K (Proc.halt h : Proc A R H σ α) :=
  fun _ _ _ _ _ => hk

theorem bind {x : Proc A R H σ α} {f : α → Proc A R H σ β} (hx : Guards W J J' K x)
    (hf : ∀ a, Guards W J' J'' K (f a)) : Guards W J J'' K (x >>= f) := by
  intro s m hs
  apply safe_seq (hx s m hs)
  · intro a s' m' h
    exact hf a s' m' h
  · intro h m' hk
    exact hk

theorem weaken {x : Proc A R H σ α} {J₁ J₁' : σ → M → Prop} (hx : Guards W J J' K x)
    (h : ∀ s m, J₁ s m → J s m) (h' : ∀ s m, J' s m → J₁' s m) : Guards W J₁ J₁' K x := by
  intro s m hs
  apply Prog.safe_mono (hx s m (h s m hs))
  intro o m' ho
  cases o with
  | ok p => exact h' p.2 m' ho
  | error e => exact ho

/-- A program that changes the state only in ways that leave `J` alone, by acts
that are permitted and leave it alone too. -/
theorem of_footprint [∀ a, Nonempty (R a)] {allowed : A → Bool} {changes : σ → σ → Prop}
    {x : Proc A R H σ α} (hx : Footprint allowed changes x) (hJ : Stable W J)
    (hc : ∀ s s' m, changes s s' → J s m → J s' m)
    (hp : ∀ s m a, allowed a = true → J s m → W.permits m a)
    (ha : ∀ s m a r m', allowed a = true → J s m → W.answer m ⟨a, r⟩ = some m' → J s m') :
    Guards W J J K x := by
  intro s m hs
  -- `J` holds of every state that changes from `s` can lead to
  have hstart : ∀ s', Relation.ReflTransGen changes s s' → J s' m := by
    intro s' h
    induction h with
    | refl => exact hs
    | tail _ h ih => exact hc _ _ m h ih
  have hwp := hx (fun s' => Relation.ReflTransGen changes s s') (fun _ _ h h' => h'.tail h) s .refl
  have hsafe := Prog.safe_of_wp (W := W)
    (I := fun m => ∀ s', Relation.ReflTransGen changes s s' → J s' m)
    (fun m m' hm h s' hs' => hJ s' m m' hm (h s' hs'))
    (fun m a hal h => hp s m a hal (h s .refl))
    (fun m a r m' hal h hr s' hs' => ha s' m a r m' hal (h s' hs') hr) hwp hstart
  apply Prog.safe_mono hsafe
  intro o m' ho
  obtain ⟨hend, hI⟩ := ho
  cases o with
  | ok p => exact hI p.2 hend
  | error e => exact hend.elim

end Guards

/-- From a state of the surroundings with `I`, the program is safe, and leaves them
with `I` whichever way it ends. -/
def Preserves (W : Surroundings R M) (I : M → Prop) (x : Proc A R H σ α) : Prop :=
  ∀ s m, I m → x.safe W s m (fun _ m' => I m')

namespace Preserves
variable {I : M → Prop} (hI : ∀ m m', W.moves m m' → I m → I m')

section
include hI

theorem pure (a : α) : Preserves W I (Pure.pure a : Proc A R H σ α) :=
  fun _ m hm m' hm' => hI m m' hm' hm

theorem halt (h : H) : Preserves W I (Proc.halt h : Proc A R H σ α) :=
  fun _ m hm m' hm' => hI m m' hm' hm

theorem act {a : A} (hp : ∀ m, I m → W.permits m a)
    (ha : ∀ m r m', I m → W.answer m ⟨a, r⟩ = some m' → I m') :
    Preserves W I (perform a : Proc A R H σ (R a)) := by
  intro s m hm m₁ h₁
  have hm₁ := hI m m₁ h₁ hm
  refine ⟨hp m₁ hm₁, fun r m₂ h₂ m₃ h₃ => ?_⟩
  exact hI m₂ m₃ h₃ (ha m₁ r m₂ hm₁ h₂)

theorem of_footprint [∀ a, Nonempty (R a)] {allowed : A → Bool} {changes : σ → σ → Prop}
    {x : Proc A R H σ α} (hx : Footprint allowed changes x)
    (hp : ∀ m a, allowed a = true → I m → W.permits m a)
    (ha : ∀ m a r m', allowed a = true → I m → W.answer m ⟨a, r⟩ = some m' → I m') :
    Preserves W I x := by
  intro s m hm
  have hwp := hx (fun _ => True) (fun _ _ _ => id) s trivial
  apply Prog.safe_mono (Prog.safe_of_wp hI hp ha hwp hm)
  exact fun _ _ ho => ho.2

end

theorem bind {x : Proc A R H σ α} {f : α → Proc A R H σ β} (hx : Preserves W I x)
    (hf : ∀ a, Preserves W I (f a)) : Preserves W I (x >>= f) := by
  intro s m hm
  apply safe_seq (hx s m hm)
  · exact fun a s' m' => hf a s' m'
  · exact fun _ _ => id

theorem ite {c : Prop} [Decidable c] {x y : Proc A R H σ α} (hx : Preserves W I x)
    (hy : Preserves W I y) : Preserves W I (if c then x else y) := by
  by_cases h : c
  · simp only [h, if_true]; exact hx
  · simp only [h, if_false]; exact hy

end Preserves
end Proc
end Effects
