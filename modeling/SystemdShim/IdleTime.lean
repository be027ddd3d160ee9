import SystemdShim.IdleExit
import SystemdShim.SuspendGap
import SystemdShim.Lib.Since

/- How long the process has been idle when it exits. The timer runs ten seconds
   from its last setting on, so what counts is what a handler still does after
   it has set the timer. The Manager's methods set it last; reads of properties
   and everything in the unit subtree set it first, and the time they take from
   there on is taken off the ten seconds. -/
namespace Shim
open Effects History

variable {systemdVersion : Nat}

/-! Where a callback sets the timer. -/

/-- However the callback goes on, it sets the timer again before it returns. -/
def Rearms {α : Type} (rest : Prog Act Ans Halt α) : Prop :=
  rest.wp (fun t o => ∀ q, o = .ok q → ∃ e ∈ t, e.1 = .timeoutAdd 10000)

def Rearming {α : Type} (x : ShimM α) : Prop := ∀ p, Rearms (x.run p)

theorem not_rearms_ret {α : Type} (q : α) : ¬ Rearms (.ret q : Prog Act Ans Halt α) := by
  intro h
  obtain ⟨e, he, -⟩ := h q rfl
  cases he

theorem Rearms.act {α : Type} {a : Act} {k : Ans a → Prog Act Ans Halt α}
    (h : Rearms (.act a k)) (ha : a ≠ .timeoutAdd 10000) (r : Ans a) : Rearms (k r) := by
  apply Prog.wp_mono (h r)
  intro t o ho q hq
  obtain ⟨e, he, hadd⟩ := ho q hq
  obtain rfl | he := List.mem_cons.mp he
  · exact absurd hadd ha
  · exact ⟨e, he, hadd⟩

namespace Rearming
variable {α β : Type} {x : ShimM α} {f : α → ShimM β}

theorem first (hx : Rearming x) : Rearming (x >>= f) := by
  intro p
  refine Proc.wp_seq (hx p) ?_ (fun _ _ _ _ h => by cases h)
  intro t a p' h
  obtain ⟨e, he, hadd⟩ := h _ rfl
  exact Prog.wp_of_forall (fun t' o q _ => ⟨e, List.mem_append_left _ he, hadd⟩)

theorem last (hf : ∀ a, Rearming (f a)) : Rearming (x >>= f) := by
  intro p
  refine Proc.wp_seq (P := fun _ _ => True) (Prog.wp_of_forall (fun _ _ => trivial)) ?_
    (fun _ _ _ _ h => by cases h)
  intro t a p' _
  apply Prog.wp_mono (hf a p')
  intro t' o h q hq
  obtain ⟨e, he, hadd⟩ := h q hq
  exact ⟨e, List.mem_append_right _ he, hadd⟩

theorem hadActivity : Rearming Shim.hadActivity :=
  .last (fun _ => .last (fun _ => .first (fun _ _ _ _ => ⟨_, List.mem_cons_self .., rfl⟩)))

/-- Every handler sets the timer, the Manager's methods at their end. -/
theorem handle (systemdVersion : Nat) (r : Request) : Rearming (r.handle systemdVersion) := by
  cases r with
  | manager sender methodName parameters => exact .last (fun _ => .last (fun _ => hadActivity))
  | managerProperty propertyName => exact .first (.first hadActivity)
  | unit node methodName => exact .first (.first hadActivity)
  | unitProperty node propertyName => exact .first (.first hadActivity)
  | enumerate => exact .first (.first hadActivity)
  | introspect node => exact .first (.first hadActivity)

end Rearming

/-! What the loop keeps. -/

/-- Time passes while a handler runs that has already set the timer for the
last time. -/
def Lingers (s : Loop) (l : Label systemdVersion) : Prop :=
  ∃ c serial r d, s.running = some c ∧ c.callback = .call serial r ∧ ¬ Rearms c.thread.rest ∧
    l = .tick d ∧ 0 < d

/-- So it has in the handler of the request dispatched last. -/
def Lingered (t : List (Loop × Label systemdVersion)) : Prop :=
  Since (fun x => Lingers x.1 x.2) (fun x => ∀ i, x.2 ≠ .dispatch i) t

/-- The handler of a request is about to return. -/
def HandlerReturns (s : Loop) : Prop :=
  ∃ c serial r q, s.running = some c ∧ c.callback = .call serial r ∧ c.thread.rest = .ret q

/-- No timer expires within ten seconds of `T`. -/
def Loop.spares (s : Loop) (T : Int) : Prop := ∀ x ∈ s.sources, T + 10000000 ≤ x.2

/-- A handler that will not set the timer again has set it just now. -/
def Fresh (s : Loop) : Prop :=
  ∀ c serial r, s.running = some c → c.callback = .call serial r →
    Rearms c.thread.rest ∨ s.spares s.clock

/-- The timer does not go off within ten seconds of `T`. -/
structure Rested (T : Int) (s : Loop) : Prop where
  past : T ≤ s.clock
  pending : s.spares T
  fired : ∀ c id, s.running = some c → c.callback = .timeout id → T + 10000000 ≤ s.clock

theorem rested_returned {T : Int} {s : Loop} (h : Rested T s) (cb : Callback) (p : Process) :
    Rested T (s.returned cb p) := by
  have hfired : ∀ c id, (s.returned cb p).running = some c → c.callback = .timeout id →
      T + 10000000 ≤ (s.returned cb p).clock := by
    intro c id hrun
    rw [running_returned] at hrun
    cases hrun
  cases cb with
  | call serial r => exact ⟨h.past, h.pending, hfired⟩
  | timeout id => exact ⟨h.past, fun x hx => h.pending x (List.mem_of_mem_filter hx), hfired⟩

theorem answer_sources {m m' : Watch} {e : Event Ans} (h : time.answer m e = some m') :
    m'.clock = m.clock ∧ ∀ x ∈ m'.sources, x ∈ m.sources ∨
      ∃ interval : Nat, e.1 = .timeoutAdd interval ∧ x.2 = m.clock + 1000 * interval := by
  obtain ⟨a, r⟩ := e
  cases a with
  | timeoutAdd interval =>
    obtain rfl := Option.some.inj (Option.ite_none_right_eq_some.mp h).2
    refine ⟨rfl, fun x hx => ?_⟩
    obtain hx | hx := List.mem_append.mp hx
    · exact .inl hx
    · rw [List.mem_singleton.mp hx]
      exact .inr ⟨interval, rfl, rfl⟩
  | sourceRemove id =>
    obtain rfl := Option.some.inj h
    exact ⟨rfl, fun x hx => .inl (List.mem_of_mem_filter hx)⟩
  | getMonotonicTime =>
    obtain rfl := Option.some.inj (Option.ite_none_right_eq_some.mp h).2
    exact ⟨rfl, fun x hx => .inl hx⟩
  | _ =>
    obtain rfl := Option.some.inj h
    exact ⟨rfl, fun x hx => .inl hx⟩

/-- An act of the callback leaves the clock, and the sources it leaves are old
ones, or one of ten seconds and no other. -/
theorem loop_act {s s' : Loop} {e : Event Ans} {suspends : List Int} (h : Held suspends s)
    (hs : loopStep s (.act e : Label systemdVersion) = some s') :
    s'.clock = s.clock ∧ ((∀ x ∈ s'.sources, x ∈ s.sources) ∧ e.1 ≠ .timeoutAdd 10000 ∨
      ∀ x ∈ s'.sources, x.2 = s.clock + 10000000) := by
  obtain ⟨c, th, s₁, hrun, hth, hp, rfl⟩ := loopStep_act hs
  obtain ⟨k, hk, rfl⟩ := Thread.step_cases hth
  rw [held_running hrun, hk] at h
  have hpermits := (Prog.safe_act h).1.1
  obtain ⟨hclock, hsources⟩ := answer_sources (answer_perform systemdVersion suspends hp)
  refine ⟨hclock, ?_⟩
  by_cases hadd : ∃ interval, e.1 = .timeoutAdd interval
  · obtain ⟨interval, hadd⟩ := hadd
    obtain ⟨rfl, hempty⟩ := hpermits interval hadd
    refine .inr (fun x hx => ?_)
    obtain hold | ⟨interval', hadd', hx⟩ := hsources x hx
    · rw [hempty] at hold
      cases hold
    · obtain rfl := Act.timeoutAdd.inj (hadd.symm.trans hadd')
      exact hx
  · refine .inl ⟨fun x hx => ?_, fun he => hadd ⟨10000, he⟩⟩
    obtain hold | ⟨interval, hadd', -⟩ := hsources x hx
    · exact hold
    · exact absurd ⟨interval, hadd'⟩ hadd

/-- A handler that does not linger has set the timer just now, or will. -/
theorem fresh_tick {s : Loop} {d : Nat} (h : Fresh s)
    (hl : ¬ Lingers s (.tick d : Label systemdVersion)) :
    Fresh { s with clock := s.clock + d } := by
  intro c serial r hrun hcall
  by_cases hrearms : Rearms c.thread.rest
  · exact .inl hrearms
  · have hd : d = 0 := by
      by_contra hd
      exact hl ⟨c, serial, r, d, hrun, hcall, hrearms, rfl, Nat.pos_of_ne_zero hd⟩
    subst hd
    have hspares := (h c serial r hrun hcall).resolve_left hrearms
    refine .inr (fun x hx => ?_)
    have hx := hspares x hx
    show s.clock + (0 : Nat) + 10000000 ≤ x.2
    omega

theorem fresh_act {s s' : Loop} {e : Event Ans} {suspends : List Int} (hheld : Held suspends s)
    (h : Fresh s) (hs : loopStep s (.act e : Label systemdVersion) = some s') : Fresh s' := by
  intro c serial r hrun hcall
  obtain ⟨hclock, hkept | hnew⟩ := loop_act hheld hs
  · obtain ⟨hsources, hadd⟩ := hkept
    obtain ⟨c₀, th, s₁, hrun₀, hth, -, rfl⟩ := loopStep_act hs
    obtain rfl := Option.some.inj hrun
    obtain ⟨k, hk, rfl⟩ := Thread.step_cases hth
    obtain hrearms | hspares := h c₀ serial r hrun₀ hcall
    · rw [hk] at hrearms
      exact .inl (hrearms.act hadd e.2)
    · rw [hclock]
      exact .inr (fun x hx => hspares x (hsources x hx))
  · exact .inr (fun x hx => Int.le_of_eq (by rw [hclock, hnew x hx]))

theorem fresh_dispatch {s s' : Loop} {i : Nat}
    (hs : loopStep s (.dispatch i : Label systemdVersion) = some s') : Fresh s' := by
  obtain ⟨serial, r, queue, -, -, rfl⟩ := loopStep_dispatch hs
  intro c _ _ hrun _
  obtain rfl := Option.some.inj hrun
  exact .inl (Rearming.handle systemdVersion r s.process)

theorem fresh_step {s s' : Loop} {l : Label systemdVersion} {suspends : List Int}
    (hheld : Held suspends s) (h : Fresh s) (hl : ¬ Lingers s l) (hs : loopStep s l = some s') :
    Fresh s' := by
  cases l with
  | arrive r =>
    obtain rfl := Option.some.inj hs
    exact h
  | tick d =>
    obtain rfl := Option.some.inj hs
    exact fresh_tick h hl
  | dispatch i => exact fresh_dispatch hs
  | fire id =>
    obtain ⟨-, rfl⟩ := loopStep_fire hs
    intro c serial r hrun hcall
    obtain rfl := Option.some.inj hrun
    cases hcall
  | act e => exact fresh_act hheld h hs
  | finish =>
    intro c serial r hrun _
    obtain ⟨c₀, -, ⟨q, -, rfl⟩ | ⟨x, -, rfl⟩⟩ := loopStep_finish hs
    · rw [running_returned] at hrun
      cases hrun
    · cases hrun
  | send =>
    obtain ⟨m, outbox, -, rfl⟩ := loopStep_send hs
    exact h

theorem rested_step {s s' : Loop} {l : Label systemdVersion} {suspends : List Int} {T : Int}
    (hheld : Held suspends s) (h : Rested T s) (hs : loopStep s l = some s') : Rested T s' := by
  cases l with
  | arrive r =>
    obtain rfl := Option.some.inj hs
    exact ⟨h.past, h.pending, h.fired⟩
  | tick d =>
    obtain rfl := Option.some.inj hs
    have hle : s.clock ≤ s.clock + d := Int.le_add_of_nonneg_right (Int.natCast_nonneg d)
    refine ⟨Int.le_trans h.past hle, h.pending, fun c id hrun hcb => ?_⟩
    calc T + 10000000 ≤ s.clock := h.fired c id hrun hcb
      _ ≤ s.clock + d := hle
  | dispatch i =>
    obtain ⟨serial, r, queue, -, -, rfl⟩ := loopStep_dispatch hs
    refine ⟨h.past, h.pending, fun c id hrun hcb => ?_⟩
    obtain rfl := Option.some.inj hrun
    cases hcb
  | fire id =>
    obtain ⟨x, hx, -, hexpired⟩ := loopStep_expired hs
    obtain ⟨-, rfl⟩ := loopStep_fire hs
    refine ⟨h.past, h.pending, fun _ _ _ _ => ?_⟩
    -- its time has come, and that is ten seconds from `T` or later
    calc T + 10000000 ≤ x.2 := h.pending x hx
      _ ≤ s.clock := hexpired
  | act e =>
    obtain ⟨hclock, hsources⟩ := loop_act hheld hs
    refine ⟨hclock ▸ h.past, fun x hx => ?_, fun c id hrun hcb => ?_⟩
    · obtain ⟨hkept, -⟩ | hnew := hsources
      · exact h.pending x (hkept x hx)
      · have hpast := h.past
        have hx := hnew x hx
        omega
    · obtain ⟨c₀, th, s₁, hrun₀, -, -, rfl⟩ := loopStep_act hs
      obtain rfl := Option.some.inj hrun
      rw [hclock]
      exact h.fired c₀ id hrun₀ hcb
  | finish =>
    obtain ⟨c, -, ⟨q, -, rfl⟩ | ⟨x, -, rfl⟩⟩ := loopStep_finish hs
    · exact rested_returned h c.callback q.2
    · exact ⟨h.past, nofun, nofun⟩
  | send =>
    obtain ⟨m, outbox, -, rfl⟩ := loopStep_send hs
    exact ⟨h.past, h.pending, h.fired⟩

/-- A handler that returns leaves a timer of ten seconds from then on. -/
theorem rested_handler {s s' : Loop} (h : Fresh s) (hret : HandlerReturns s)
    (hs : loopStep s (.finish : Label systemdVersion) = some s') : Rested s.clock s' := by
  obtain ⟨c, serial, r, q, hrun, hcall, hq⟩ := hret
  have hspares : s.spares s.clock := by
    apply (h c serial r hrun hcall).resolve_left
    rw [hq]
    exact not_rearms_ret q
  have hrested : Rested s.clock s := by
    refine ⟨Int.le_refl _, hspares, fun c' id hrun' hcb => ?_⟩
    obtain rfl := Option.some.inj (hrun.symm.trans hrun')
    rw [hcall] at hcb
    cases hcb
  obtain ⟨c', -, ⟨q', -, rfl⟩ | ⟨x, -, rfl⟩⟩ := loopStep_finish hs
  · exact rested_returned hrested c'.callback q'.2
  · exact ⟨Int.le_refl _, nofun, nofun⟩

/-- Whatever earlier handlers did, a handler starts afresh. -/
theorem fresh_run (ls : List (Label systemdVersion)) (s : Loop)
    (hrun : Runs.run loopStep bootLoop ls = some s) :
    (∃ suspends, Held suspends s) ∧
      (¬ Lingered (Runs.trail loopStep bootLoop ls) → Fresh s) := by
  refine Runs.run_induct (P := fun ls s => (∃ suspends, Held suspends s) ∧
    (¬ Lingered (Runs.trail loopStep bootLoop ls) → Fresh s)) ⟨⟨[], held_boot⟩, fun _ => nofun⟩
    ?_ ls s hrun
  intro ls s l s' hr hi hs
  obtain ⟨⟨suspends, hheld⟩, hfresh⟩ := hi
  obtain ⟨suspends', hheld', -⟩ := held_step hheld hs
  refine ⟨⟨suspends', hheld'⟩, fun hnot => ?_⟩
  rw [Lingered, Runs.trail_snoc hr, since_snoc, not_or] at hnot
  obtain ⟨hl, hnot⟩ := hnot
  by_cases hd : ∃ i, l = .dispatch i
  · obtain ⟨i, rfl⟩ := hd
    exact fresh_dispatch hs
  · have hlingered : ¬ Lingered (Runs.trail loopStep bootLoop ls) :=
      fun h => hnot ⟨h, fun i hi => hd ⟨i, hi⟩⟩
    exact fresh_step hheld (hfresh hlingered) hl hs

theorem rested_run {ls : List (Label systemdVersion)} {s : Loop}
    (hrun : Runs.run loopStep bootLoop ls = some s) :
    ∀ x ∈ Runs.trail loopStep bootLoop ls, x.2 = .finish ∧ HandlerReturns x.1 ∧ Fresh x.1 →
      Rested x.1.clock s := by
  refine (Runs.trail_keeps (I := fun s => ∃ suspends, Held suspends s)
    (M := fun s l => l = .finish ∧ HandlerReturns s ∧ Fresh s)
    (K := fun u s => Rested u.clock s) ?_ ?_ ?_ ⟨[], held_boot⟩ hrun).2
  · intro s l s' hi hs
    obtain ⟨suspends, hheld⟩ := hi
    obtain ⟨suspends', hheld', -⟩ := held_step hheld hs
    exact ⟨suspends', hheld'⟩
  · intro s l s' _ hm hs
    obtain ⟨rfl, hret, hfresh⟩ := hm
    exact rested_handler hfresh hret hs
  · intro u s l s' hi hk hs
    obtain ⟨suspends, hheld⟩ := hi
    exact rested_step hheld hk hs

/-- A handler that takes no time once it has set the timer for the last time has
been done with for ten seconds when the process exits, whatever the handlers
before and after it did. -/
theorem idle_since_done {before after : List (Label systemdVersion)} {s₁ s : Loop}
    (hbefore : Runs.run loopStep bootLoop before = some s₁) (hret : HandlerReturns s₁)
    (hlingered : ¬ Lingered (Runs.trail loopStep bootLoop before))
    (hrun : Runs.run loopStep bootLoop (before ++ .finish :: after) = some s) (hexit : Exits s) :
    s₁.clock + 10000000 ≤ s.clock := by
  obtain ⟨c, id, status, hc, hcb, -⟩ := exits_callback (inv_run _ s hrun) hexit
  have hfresh := (fresh_run before s₁ hbefore).2 hlingered
  have hrested := rested_run hrun _ (Runs.mem_trail hbefore _ _) ⟨rfl, hret, hfresh⟩
  exact hrested.fired c id hc hcb

/-- Three seconds before the handler sets the timer. -/
def subscribesSlowly : List (Label 208) :=
  [.arrive subscribe, .dispatch 0, .act ⟨.returnValue [], ()⟩, .tick 3000000,
    .act ⟨.timeoutAdd 10000, (1 : Nat)⟩]

/-- And ten after it. -/
def exitsAfter : List (Label 208) := [.tick 10000000, .fire 1, .act ⟨.flushSync, ()⟩]

theorem idle_since_done_subscribe : ∃ s₁ s, Runs.run loopStep bootLoop subscribesSlowly = some s₁ ∧
    Runs.run loopStep bootLoop (subscribesSlowly ++ .finish :: exitsAfter) = some s ∧
    s₁.clock + 10000000 ≤ s.clock := by
  refine ⟨_, _, rfl, rfl, idle_since_done (rfl : Runs.run loopStep bootLoop subscribesSlowly = _)
    ⟨_, 0, _, _, rfl, rfl, rfl⟩ (not_since ?_) (rfl : Runs.run loopStep bootLoop
      (subscribesSlowly ++ .finish :: exitsAfter) = some _) ⟨_, 0, rfl, rfl⟩⟩
  have hother : ∀ {s : Loop} {l : Label 208}, (∀ d, l ≠ .tick d) → ¬ Lingers s l := by
    intro s l hl h
    obtain ⟨_, _, _, d, -, -, -, htick, -⟩ := h
    exact hl d htick
  iterate 3 refine List.forall_mem_cons.mpr ⟨hother nofun, ?_⟩
  refine List.forall_mem_cons.mpr ⟨fun h => ?_, ?_⟩
  · obtain ⟨c, _, _, _, hrun, -, hrearms, -⟩ := h
    obtain rfl := Option.some.inj hrun
    exact hrearms (fun _ _ _ => ⟨_, List.mem_cons_self .., rfl⟩)
  refine List.forall_mem_cons.mpr ⟨hother nofun, ?_⟩
  exact List.forall_mem_nil _

/-- A slice is started. -/
def startsSlice : List (Label 208) :=
  [.arrive (startUnitOf (ascii "a.slice")), .dispatch 0,
    .act ⟨.cgmanagerCall (.create (ascii "all") (ascii "a.slice")), some ()⟩,
    .act ⟨.cgmanagerCall (.setValue (ascii "systemd") (ascii "a.slice") (ascii "notify_on_release")
      (ascii "1")), some ()⟩,
    .act ⟨.saveToFile (KeyFile.empty.setString (ascii "a.slice") (ascii "path") (ascii "a.slice")),
      true⟩,
    .act ⟨.returnValue [.o (ascii "/")], ()⟩,
    .act ⟨.emitSignal (some []) "JobRemoved" [.u 0, .o (ascii "/"), .s [], .s []], ()⟩,
    .act ⟨.timeoutAdd 10000, (1 : Nat)⟩, .finish]

/-- Abandon, from a client, on the slice's object. -/
def abandonSlice : { r : Request // Deliverable 208 r } :=
  ⟨.unit (some (ascii "a_2eslice")) "Abandon",
    .call _ (.unit _ scopeIface ⟨"Abandon", []⟩ (by decide) (by decide))⟩

/-- cgmanager takes twelve seconds to answer Prune. -/
def abandonsSlowly : List (Label 208) :=
  [.arrive abandonSlice, .dispatch 0,
    .act ⟨.sourceRemove 1, ()⟩, .act ⟨.timeoutAdd 10000, (2 : Nat)⟩,
    .act ⟨.sourceRemove 2, ()⟩, .act ⟨.timeoutAdd 10000, (3 : Nat)⟩, .act ⟨.sourceRemove 3, ()⟩,
    .act ⟨.timeoutAdd 10000, (4 : Nat)⟩, .tick 12000000,
    .act ⟨.cgmanagerCall (.prune (ascii "all") (ascii "a.slice")), some ()⟩,
    .act ⟨.saveToFile ((KeyFile.empty.setString (ascii "a.slice") (ascii "path")
      (ascii "a.slice")).removeGroup (ascii "a.slice")), true⟩,
    .act ⟨.returnValue [], ()⟩]

/-- The timer has expired by the time Abandon returns, and the process exits at
once. -/
theorem not_idle_after_abandon : ¬ ∀ (systemdVersion : Nat) (ls : List (Label systemdVersion))
    (s : Loop), Runs.run loopStep bootLoop ls = some s → Exits s →
    ∀ x ∈ Runs.trail loopStep bootLoop ls, x.2 = .finish → HandlerReturns x.1 →
      x.1.clock + 10000000 ≤ s.clock := by
  intro h
  have hidle := h 208
    ((startsSlice ++ abandonsSlowly) ++ .finish :: [.fire 4, .act ⟨.flushSync, ()⟩]) _ rfl
    ⟨_, 0, rfl, rfl⟩ _
    (Runs.mem_trail (rfl : Runs.run loopStep bootLoop (startsSlice ++ abandonsSlowly) = some _) _ _)
    rfl ⟨_, 1, _, _, rfl, rfl, rfl⟩
  exact absurd hidle (by decide)

end Shim
