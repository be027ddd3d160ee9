import Mathlib.Control.Basic
import Mathlib.Tactic.Common

/- Sequential programs that act on their surroundings. A program is a tree:
   it returns, halts for good, or performs one act and goes on with whatever
   answer comes back. Nothing is assumed about the answers, so a statement
   about every run of the tree is a statement about every outcome of every
   act. `replay` checks a recorded trace against the tree; `wp` is the
   demonic weakest precondition over traces and final results, and `wp_bind`
   is the rule that composes it. `Proc` threads a state through a program.
   `Keeps` packages the commonest specification: an invariant of the state,
   and a property of each act on the way; `Footprint` says once what a program
   may do, for every invariant that this preserves. `Thread` is a program
   under way, for machines that interleave it with other parties. -/
namespace Effects

inductive Prog (A : Type) (R : A → Type) (H α : Type) where
  | ret (a : α)
  | halt (h : H)
  | act (a : A) (k : R a → Prog A R H α)

/-- An act and the answer it got. -/
abbrev Event {A : Type} (R : A → Type) := (a : A) × R a

abbrev Trace {A : Type} (R : A → Type) := List (Event R)

variable {A : Type} {R : A → Type} {H σ α β : Type}

namespace Prog

def bind : Prog A R H α → (α → Prog A R H β) → Prog A R H β
  | .ret a, f => f a
  | .halt h, _ => .halt h
  | .act a k, f => .act a (fun r => (k r).bind f)

instance : Monad (Prog A R H) where
  pure := .ret
  bind := Prog.bind

instance : LawfulMonad (Prog A R H) := by
  have bind_ret : ∀ {α : Type} (p : Prog A R H α), p.bind .ret = p := by
    intro α p
    induction p with
    | ret a => rfl
    | halt h => rfl
    | act a k ih => exact congrArg (Prog.act a) (funext ih)
  apply LawfulMonad.mk' (Prog A R H) bind_ret (fun _ _ => rfl)
  intro α β γ p f g
  induction p with
  | ret a => rfl
  | halt h => rfl
  | act a k ih => exact congrArg (Prog.act a) (funext ih)

/-- Whether `t` is a complete run of the program, and what it ends in. -/
def replay [DecidableEq A] : Prog A R H α → Trace R → Option (Except H α)
  | .ret a, [] => some (.ok a)
  | .halt h, [] => some (.error h)
  | .act a k, ⟨b, r⟩ :: t => if e : b = a then replay (k (e ▸ r)) t else none
  | _, _ => none

/-- The run in surroundings that answer each act by `ω`. -/
def exec (ω : ∀ a, R a) : Prog A R H α → Trace R × Except H α
  | .ret a => ([], .ok a)
  | .halt h => ([], .error h)
  | .act a k => (⟨a, ω a⟩ :: (exec ω (k (ω a))).1, (exec ω (k (ω a))).2)

/-- Every complete run, with its result, satisfies `Q`. -/
def wp : Prog A R H α → (Trace R → Except H α → Prop) → Prop
  | .ret a, Q => Q [] (.ok a)
  | .halt h, Q => Q [] (.error h)
  | .act a k, Q => ∀ r, (k r).wp (fun t o => Q (⟨a, r⟩ :: t) o)

theorem replay_act [DecidableEq A] (a : A) (k : R a → Prog A R H α) (r : R a) (t : Trace R) :
    replay (.act a k) (⟨a, r⟩ :: t) = replay (k r) t := by simp [replay]

theorem replay_act_some [DecidableEq A] {a : A} {k : R a → Prog A R H α} {t : Trace R}
    {o : Except H α} (h : replay (.act a k) t = some o) :
    ∃ r t', t = ⟨a, r⟩ :: t' ∧ replay (k r) t' = some o := by
  cases t with
  | nil => simp [replay] at h
  | cons e t =>
    obtain ⟨b, r⟩ := e
    simp only [replay] at h
    split at h
    · rename_i e
      subst e
      exact ⟨r, t, rfl, h⟩
    · simp at h

theorem replay_exec [DecidableEq A] (ω : ∀ a, R a) (p : Prog A R H α) :
    p.replay (p.exec ω).1 = some (p.exec ω).2 := by
  induction p with
  | ret a => rfl
  | halt h => rfl
  | act a k ih => rw [exec, replay_act]; exact ih (ω a)

theorem exec_bind (ω : ∀ a, R a) (p : Prog A R H α) (f : α → Prog A R H β) :
    (p.bind f).exec ω = match (p.exec ω).2 with
      | .ok a => ((p.exec ω).1 ++ ((f a).exec ω).1, ((f a).exec ω).2)
      | .error h => ((p.exec ω).1, .error h) := by
  induction p with
  | ret a => rfl
  | halt h => rfl
  | act a k ih =>
    simp only [bind, exec, ih (ω a)]
    cases ((k (ω a)).exec ω).2 <;> rfl

theorem mem_exec {ω : ∀ a, R a} {p : Prog A R H α} {e : Event R} (h : e ∈ (p.exec ω).1) :
    e.2 = ω e.1 := by
  induction p with
  | ret a => simp [exec] at h
  | halt x => simp [exec] at h
  | act a k ih =>
    rcases List.mem_cons.mp h with rfl | h
    · rfl
    · exact ih (ω a) h

/-- The weakest precondition is about exactly the runs that `replay` accepts. -/
theorem wp_iff_replay [DecidableEq A] (p : Prog A R H α) (Q : Trace R → Except H α → Prop) :
    p.wp Q ↔ ∀ t o, p.replay t = some o → Q t o := by
  induction p generalizing Q with
  | ret a =>
    constructor
    · intro h t o hr
      cases t with
      | nil => simp only [replay, Option.some.injEq] at hr; exact hr ▸ h
      | cons e t => simp [replay] at hr
    · exact fun h => h [] _ rfl
  | halt x =>
    constructor
    · intro h t o hr
      cases t with
      | nil => simp only [replay, Option.some.injEq] at hr; exact hr ▸ h
      | cons e t => simp [replay] at hr
    · exact fun h => h [] _ rfl
  | act a k ih =>
    constructor
    · intro h t o hr
      obtain ⟨r, t', rfl, hk⟩ := replay_act_some hr
      exact (ih r _).mp (h r) t' o hk
    · intro h r
      exact (ih r _).mpr (fun t o hk => h _ o (by rw [replay_act]; exact hk))

theorem wp_exec [DecidableEq A] {p : Prog A R H α} {Q : Trace R → Except H α → Prop}
    (ω : ∀ a, R a) (h : p.wp Q) : Q (p.exec ω).1 (p.exec ω).2 :=
  (wp_iff_replay p Q).mp h _ _ (replay_exec ω p)

theorem wp_mono {p : Prog A R H α} {Q Q' : Trace R → Except H α → Prop}
    (h : p.wp Q) (hQ : ∀ t o, Q t o → Q' t o) : p.wp Q' := by
  induction p generalizing Q Q' with
  | ret a => exact hQ _ _ h
  | halt x => exact hQ _ _ h
  | act a k ih => exact fun r => ih r (h r) (fun t o => hQ _ o)

theorem wp_of_forall {p : Prog A R H α} {Q : Trace R → Except H α → Prop}
    (h : ∀ t o, Q t o) : p.wp Q := by
  induction p generalizing Q with
  | ret a => exact h _ _
  | halt x => exact h _ _
  | act a k ih => exact fun r => ih r (fun t o => h _ o)

theorem wp_and {p : Prog A R H α} {Q Q' : Trace R → Except H α → Prop} (h : p.wp Q)
    (h' : p.wp Q') : p.wp (fun t o => Q t o ∧ Q' t o) := by
  induction p generalizing Q Q' with
  | ret a => exact ⟨h, h'⟩
  | halt x => exact ⟨h, h'⟩
  | act a k ih => exact fun r => ih r (h r) (h' r)

theorem wp_bind (p : Prog A R H α) (f : α → Prog A R H β) (Q : Trace R → Except H β → Prop) :
    (p.bind f).wp Q ↔ p.wp (fun t o => match o with
      | .ok a => (f a).wp (fun t' o' => Q (t ++ t') o')
      | .error h => Q t (.error h)) := by
  induction p generalizing Q with
  | ret a => rfl
  | halt h => rfl
  | act a k ih => exact forall_congr' (fun r => ih r _)

/-- Some run exists: when every act can be answered, no program is stuck. -/
theorem wp_exists [∀ a, Nonempty (R a)] {p : Prog A R H α} {Q : Trace R → Except H α → Prop}
    (h : p.wp Q) : ∃ t o, Q t o := by
  induction p generalizing Q with
  | ret a => exact ⟨[], _, h⟩
  | halt x => exact ⟨[], _, h⟩
  | act a k ih =>
    obtain ⟨r⟩ := (inferInstance : Nonempty (R a))
    obtain ⟨t, o, ho⟩ := ih r (h r)
    exact ⟨_, o, ho⟩

theorem replay_exists [DecidableEq A] [∀ a, Nonempty (R a)] (p : Prog A R H α) :
    ∃ t o, p.replay t = some o :=
  wp_exists ((wp_iff_replay p _).mpr (fun _ _ h => h))

end Prog

/-! Programs with a state. -/

abbrev Proc (A : Type) (R : A → Type) (H σ α : Type) := StateT σ (Prog A R H) α

namespace Proc

def perform (a : A) : Proc A R H σ (R a) := fun s => .act a (fun r => .ret (r, s))

def halt (h : H) : Proc A R H σ α := fun _ => .halt h

/-- Every run from `s` satisfies `Q`, which sees the trace, the result and the
final state. -/
def wp (x : Proc A R H σ α) (s : σ) (Q : Trace R → Except H (α × σ) → Prop) : Prop :=
  (x.run s).wp Q

/-- What is left to show after a first part has run. -/
def andThen (f : α → Proc A R H σ β) (Q : Trace R → Except H (β × σ) → Prop) :
    Trace R → Except H (α × σ) → Prop
  | t, .ok (a, s) => (f a).wp s (fun t' o => Q (t ++ t') o)
  | t, .error h => Q t (.error h)

variable {Q Q' : Trace R → Except H (α × σ) → Prop}

theorem wp_mono {x : Proc A R H σ α} {s : σ} (h : x.wp s Q) (hQ : ∀ t o, Q t o → Q' t o) :
    x.wp s Q' := Prog.wp_mono h hQ

@[simp] theorem wp_pure (a : α) (s : σ) :
    (pure a : Proc A R H σ α).wp s Q ↔ Q [] (.ok (a, s)) := Iff.rfl

@[simp] theorem wp_halt (h : H) (s : σ) : (halt h : Proc A R H σ α).wp s Q ↔ Q [] (.error h) :=
  Iff.rfl

@[simp] theorem wp_get (s : σ) (Q : Trace R → Except H (σ × σ) → Prop) :
    (get : Proc A R H σ σ).wp s Q ↔ Q [] (.ok (s, s)) := Iff.rfl

@[simp] theorem wp_modify (f : σ → σ) (s : σ) (Q : Trace R → Except H (PUnit × σ) → Prop) :
    (modify f : Proc A R H σ PUnit).wp s Q ↔ Q [] (.ok (⟨⟩, f s)) := Iff.rfl

theorem wp_bind (x : Proc A R H σ α) (f : α → Proc A R H σ β) (s : σ)
    (Q : Trace R → Except H (β × σ) → Prop) :
    (x >>= f).wp s Q ↔ x.wp s (andThen f Q) := by
  refine (Prog.wp_bind (x.run s) (fun p => (f p.1).run p.2) Q).trans (iff_of_eq ?_)
  unfold wp
  congr 1
  funext t o
  cases o <;> rfl

@[simp] theorem andThen_ok (f : α → Proc A R H σ β) (Q : Trace R → Except H (β × σ) → Prop)
    (t : Trace R) (p : α × σ) :
    andThen f Q t (.ok p) ↔ (f p.1).wp p.2 (fun t' o => Q (t ++ t') o) := Iff.rfl

/-- The first part's specification, then the rest from every end it allows. -/
theorem wp_seq {x : Proc A R H σ α} {f : α → Proc A R H σ β} {s : σ}
    {P : Trace R → Except H (α × σ) → Prop} {Q : Trace R → Except H (β × σ) → Prop}
    (hx : x.wp s P) (hok : ∀ t a s', P t (.ok (a, s')) → (f a).wp s' (fun t' o => Q (t ++ t') o))
    (herr : ∀ t h, P t (.error h) → Q t (.error h)) : (x >>= f).wp s Q := by
  rw [wp_bind]
  refine wp_mono hx (fun t o h => ?_)
  cases o with
  | ok p => exact hok t p.1 p.2 h
  | error e => exact herr t e h

/-- After a first part that always returns. -/
theorem wp_seq_ok {x : Proc A R H σ α} {f : α → Proc A R H σ β} {s : σ}
    {P : Trace R → α → σ → Prop} {Q : Trace R → Except H (β × σ) → Prop}
    (hx : x.wp s (fun t o => ∃ a s', o = .ok (a, s') ∧ P t a s'))
    (hok : ∀ t a s', P t a s' → (f a).wp s' (fun t' o => Q (t ++ t') o)) : (x >>= f).wp s Q := by
  rw [wp_bind]
  apply wp_mono hx
  intro t o h
  obtain ⟨a, s', rfl, h⟩ := h
  exact hok t a s' h

/-! The result in surroundings that answer each act by `ω`. -/

def result (ω : ∀ a, R a) (x : Proc A R H σ α) (s : σ) : Except H (α × σ) := ((x.run s).exec ω).2

section Result
variable (ω : ∀ a, R a) (s : σ)

@[simp] theorem result_pure (a : α) : (pure a : Proc A R H σ α).result ω s = .ok (a, s) := rfl

@[simp] theorem result_get : (get : Proc A R H σ σ).result ω s = .ok (s, s) := rfl

theorem result_bind (x : Proc A R H σ α) (f : α → Proc A R H σ β) :
    (x >>= f).result ω s = (x.result ω s).bind (fun p => (f p.1).result ω p.2) := by
  show (Prog.exec ω (Prog.bind (x.run s) (fun p => (f p.1).run p.2))).2 = _
  rw [Prog.exec_bind]
  unfold result
  cases ((x.run s).exec ω).2 <;> rfl

/-- Where the first part returns. -/
theorem result_bind_ok {x : Proc A R H σ α} {f : α → Proc A R H σ β} {a : α} {s' : σ}
    (h : x.result ω s = .ok (a, s')) : (x >>= f).result ω s = (f a).result ω s' := by
  rw [result_bind, h]
  rfl

end Result

/-- `J` at a return, `K` at a halt. -/
def Ends (J : σ → Prop) (K : H → Prop) : Except H (α × σ) → Prop
  | .ok (_, s) => J s
  | .error h => K h

/-- From a state where `J` holds, every act satisfies `E`, and the program
returns with `J` again or halts with `K`. -/
def Keeps (J : σ → Prop) (E : Event R → Prop) (K : H → Prop) (x : Proc A R H σ α) : Prop :=
  ∀ s, J s → x.wp s (fun t o => (∀ e ∈ t, E e) ∧ Ends J K o)

namespace Keeps
variable {J : σ → Prop} {E : Event R → Prop} {K : H → Prop}

theorem pure (a : α) : Keeps J E K (Pure.pure a : Proc A R H σ α) :=
  fun _ hs => ⟨by simp, hs⟩

theorem halt {h : H} (hk : K h) : Keeps J E K (Proc.halt h : Proc A R H σ α) :=
  fun _ _ => ⟨by simp, hk⟩

theorem bind {x : Proc A R H σ α} {f : α → Proc A R H σ β} (hx : Keeps J E K x)
    (hf : ∀ a, Keeps J E K (f a)) : Keeps J E K (x >>= f) := by
  intro s hs
  refine wp_seq (hx s hs) ?_ (fun _ _ h => h)
  intro t a s' h
  obtain ⟨ht, hs'⟩ := h
  apply wp_mono (hf a s' hs')
  intro t' o h
  obtain ⟨ht', hend⟩ := h
  exact ⟨fun e he => (List.mem_append.mp he).elim (ht e) (ht' e), hend⟩

theorem act {a : A} (h : ∀ r, E ⟨a, r⟩) : Keeps J E K (perform a : Proc A R H σ (R a)) :=
  fun _ hs r => ⟨by simpa using h r, hs⟩

theorem get : Keeps J E K (get : Proc A R H σ σ) := fun _ hs => ⟨by simp, hs⟩

/-- A branch on the state: the invariant of the state read is at hand. -/
theorem get_bind {f : σ → Proc A R H σ β}
    (hf : ∀ s, J s → (f s).wp s (fun t o => (∀ e ∈ t, E e) ∧ Ends J K o)) :
    Keeps J E K (MonadState.get >>= f : Proc A R H σ β) := by
  intro s hs
  rw [wp_bind, wp_get, andThen_ok]
  exact hf s hs

theorem modify {g : σ → σ} (h : ∀ s, J s → J (g s)) :
    Keeps J E K (modify g : Proc A R H σ PUnit) :=
  fun s hs => ⟨by simp, h s hs⟩

theorem ite {c : Prop} [Decidable c] {x y : Proc A R H σ α} (hx : c → Keeps J E K x)
    (hy : ¬c → Keeps J E K y) : Keeps J E K (if c then x else y) := by
  by_cases h : c
  · simp only [h, if_true]; exact hx h
  · simp only [h, if_false]; exact hy h

theorem mono {E' : Event R → Prop} {K' : H → Prop} {x : Proc A R H σ α} (hx : Keeps J E K x)
    (hE : ∀ e, E e → E' e) (hK : ∀ h, K h → K' h) : Keeps J E' K' x := by
  intro s hs
  apply wp_mono (hx s hs)
  intro t o h
  obtain ⟨ht, hend⟩ := h
  refine ⟨fun e he => hE e (ht e he), ?_⟩
  cases o with
  | ok p => exact hend
  | error h => exact hK h hend

/-- The invariant, where the program returns. -/
theorem wp_ok {x : Proc A R H σ α} {s : σ} (hx : Keeps J E K x) (hs : J s) :
    x.wp s (fun _ o => ∀ p, o = .ok p → J p.2) := by
  apply wp_mono (hx s hs)
  intro t o h p h'
  obtain ⟨-, hend⟩ := h
  obtain rfl := h'
  exact hend

end Keeps

/-- `x` performs only acts that `allowed` admits, changes the state only as
`changes` says, so that it keeps whatever such changes preserve, and returns. -/
def Footprint (allowed : A → Bool) (changes : σ → σ → Prop) (x : Proc A R H σ α) : Prop :=
  ∀ J : σ → Prop, (∀ s s', changes s s' → J s → J s') →
    Keeps J (fun e => allowed e.1 = true) (fun _ => False) x

namespace Footprint
variable {allowed : A → Bool} {changes : σ → σ → Prop}

theorem pure (a : α) : Footprint allowed changes (Pure.pure a : Proc A R H σ α) :=
  fun _ _ => .pure a

theorem bind {x : Proc A R H σ α} {f : α → Proc A R H σ β} (hx : Footprint allowed changes x)
    (hf : ∀ a, Footprint allowed changes (f a)) : Footprint allowed changes (x >>= f) :=
  fun J hJ => .bind (hx J hJ) (fun a => hf a J hJ)

theorem act {a : A} (h : allowed a = true) :
    Footprint allowed changes (perform a : Proc A R H σ (R a)) :=
  fun _ _ => .act (fun _ => h)

theorem get : Footprint allowed changes (MonadState.get : Proc A R H σ σ) := fun _ _ => .get

theorem modify {g : σ → σ} (h : ∀ s, changes s (g s)) :
    Footprint allowed changes (modify g : Proc A R H σ PUnit) :=
  fun _ hJ => .modify (fun s hs => hJ s _ (h s) hs)

theorem ite {c : Prop} [Decidable c] {x y : Proc A R H σ α} (hx : Footprint allowed changes x)
    (hy : Footprint allowed changes y) : Footprint allowed changes (if c then x else y) :=
  fun J hJ => .ite (fun _ => hx J hJ) (fun _ => hy J hJ)

theorem mono {allowed' : A → Bool} {changes' : σ → σ → Prop} {x : Proc A R H σ α}
    (hx : Footprint allowed changes x) (ha : ∀ a, allowed a = true → allowed' a = true)
    (hc : ∀ s s', changes s s' → changes' s s') : Footprint allowed' changes' x :=
  fun J hJ => (hx J (fun s s' h => hJ s s' (hc s s' h))).mono (fun e => ha e.1) (fun _ => id)

/-- The footprint, as an invariant with a property of every act. -/
theorem keeps {x : Proc A R H σ α} (hx : Footprint allowed changes x) {J : σ → Prop}
    {E : Event R → Prop} {K : H → Prop} (hJ : ∀ s s', changes s s' → J s → J s')
    (hE : ∀ e : Event R, allowed e.1 = true → E e) : Keeps J E K x :=
  (hx J hJ).mono hE (fun _ => False.elim)

/-- From one state, with the return at hand. -/
theorem wp {x : Proc A R H σ α} (hx : Footprint allowed changes x) {J : σ → Prop} {s : σ}
    (hs : J s) (hJ : ∀ s s', changes s s' → J s → J s') :
    x.wp s (fun t o => ∃ a s', o = .ok (a, s') ∧ J s' ∧ ∀ e ∈ t, allowed e.1 = true) := by
  apply wp_mono (hx J hJ s hs)
  intro t o h
  obtain ⟨ht, hend⟩ := h
  cases o with
  | ok p => exact ⟨p.1, p.2, rfl, hend, ht⟩
  | error h => exact hend.elim

end Footprint
end Proc

/-! A program under way. -/

/-- What a program has done so far, and what is left of it. -/
structure Thread (A : Type) (R : A → Type) (H α : Type) where
  sofar : Trace R
  rest : Prog A R H α

namespace Thread

def start (p : Prog A R H α) : Thread A R H α := ⟨[], p⟩

/-- The program performs its next act and gets the answer recorded in `e`. -/
def step [DecidableEq A] (th : Thread A R H α) (e : Event R) : Option (Thread A R H α) :=
  match th.rest with
  | .act a k => if h : e.1 = a then some ⟨th.sofar ++ [e], k (h ▸ e.2)⟩ else none
  | _ => none

/-- Every way to complete the run, from what has been done so far, satisfies `Q`. -/
def wp (th : Thread A R H α) (Q : Trace R → Except H α → Prop) : Prop :=
  th.rest.wp (fun t o => Q (th.sofar ++ t) o)

theorem step_cases [DecidableEq A] {th th' : Thread A R H α} {e : Event R}
    (h : th.step e = some th') :
    ∃ k, th.rest = .act e.1 k ∧ th' = ⟨th.sofar ++ [e], k e.2⟩ := by
  unfold step at h
  split at h
  · rename_i a k hk
    split at h
    · rename_i ha
      subst ha
      exact ⟨k, hk, (Option.some.inj h).symm⟩
    · simp at h
  · simp at h

/-- A specification of the whole program stays one of the thread, act by act. -/
theorem wp_step [DecidableEq A] {th th' : Thread A R H α} {e : Event R}
    {Q : Trace R → Except H α → Prop} (h : th.wp Q) (hs : th.step e = some th') : th'.wp Q := by
  obtain ⟨k, hk, rfl⟩ := step_cases hs
  unfold wp at h ⊢
  rw [hk] at h
  have := h e.2
  simpa only [List.append_assoc, List.singleton_append] using this

/-- Where the program has returned, it has met its specification. -/
theorem wp_ret {th : Thread A R H α} {Q : Trace R → Except H α → Prop} {a : α} (h : th.wp Q)
    (hr : th.rest = .ret a) : Q th.sofar (.ok a) := by
  unfold wp at h
  rw [hr] at h
  have : Q (th.sofar ++ []) (.ok a) := h
  rwa [List.append_nil] at this

theorem wp_halt {th : Thread A R H α} {Q : Trace R → Except H α → Prop} {x : H} (h : th.wp Q)
    (hr : th.rest = .halt x) : Q th.sofar (.error x) := by
  unfold wp at h
  rw [hr] at h
  have : Q (th.sofar ++ []) (.error x) := h
  rwa [List.append_nil] at this

/-- A thread that has gone on by the acts of `t` has the rest of the run to do. -/
theorem replay_steps [DecidableEq A] {th th' : Thread A R H α} {t : Trace R}
    (h : t.foldlM step th = some th') (t' : Trace R) :
    th.rest.replay (t ++ t') = th'.rest.replay t' := by
  induction t generalizing th with
  | nil =>
    obtain rfl := Option.some.inj h
    rfl
  | cons e t ih =>
    obtain ⟨th₁, hs, ht⟩ := Option.bind_eq_some_iff.mp h
    obtain ⟨k, hk, rfl⟩ := step_cases hs
    rw [List.cons_append, hk, Prog.replay_act]
    exact ih ht

end Thread
end Effects
