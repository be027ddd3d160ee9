import SystemdShim.IdleTime
import SystemdShim.TimerHandle

/- Whether a process that nobody asks anything of comes to its end. Only the
   inactivity timer ends it, and only a handler sets the timer: one that has
   handled a request leaves a source that expires within ten seconds, and one
   that has handled none has no source at all. A shutdown keeps the process from
   exiting, but not the timer from firing. -/
namespace Shim
open Effects

variable {systemdVersion : Nat}

/-- What an act does to the claim that a timer of ten seconds is attached. -/
def timedStep (attached : Prop) (e : Event Ans) : Prop :=
  match e.1 with
  | .timeoutAdd interval => attached ∨ interval = 10000
  | .sourceRemove _ => False
  | _ => attached

/-- Such a timer is attached after the acts, if `attached` says whether one was
before them. -/
def timed (attached : Prop) (t : ShimTrace) : Prop := t.foldl timedStep attached

theorem timedStep_mono {P P' : Prop} (h : P → P') (e : Event Ans) :
    timedStep P e → timedStep P' e := by
  obtain ⟨a, r⟩ := e
  cases a with
  | timeoutAdd interval => exact Or.imp_left h
  | sourceRemove id => exact fun h => h
  | _ => exact h

theorem timed_mono {P P' : Prop} (h : P → P') (t : ShimTrace) : timed P t → timed P' t := by
  induction t generalizing P P' with
  | nil => exact h
  | cons e t ih => exact ih (timedStep_mono h e)

theorem timed_append (P : Prop) (t t' : ShimTrace) : timed P (t ++ t') = timed (timed P t) t' :=
  List.foldl_append

theorem timedStep_untimed {e : Event Ans} (h : isTimerAct e.1 = false) (P : Prop) :
    timedStep P e = P := by
  obtain ⟨a, r⟩ := e
  cases a <;> first | rfl | cases h

theorem timed_untimed {t : ShimTrace} (h : ∀ e ∈ t, isTimerAct e.1 = false) (P : Prop) :
    timed P t = P := by
  induction t with
  | nil => rfl
  | cons e t ih =>
    obtain ⟨he, ht⟩ := List.forall_mem_cons.mp h
    show timed (timedStep P e) t = P
    rw [timedStep_untimed he, ih ht]

/-- Once the timer is set, what was attached before does not count. -/
theorem timed_of_added {t : ShimTrace} (h : ∃ e ∈ t, e.1 = .timeoutAdd 10000) {P P' : Prop} :
    timed P t → timed P' t := by
  induction t generalizing P P' with
  | nil =>
    obtain ⟨e, he, -⟩ := h
    cases he
  | cons e t ih =>
    obtain ⟨e', he', hadd⟩ := h
    obtain rfl | he' := List.mem_cons.mp he'
    · have hset : timedStep P' e' := by
        obtain ⟨a, r⟩ := e'
        obtain rfl := hadd
        exact .inr rfl
      exact timed_mono (fun _ => hset) t
    · exact ih ⟨e', he', hadd⟩

/-! What a handler leaves. -/

/-- Where a timer is attached, one still is when `x` returns. -/
def KeepsTimer {α : Type} (x : ShimM α) : Prop :=
  ∀ p, x.wp p (fun t o => ∀ q, o = .ok q → timed True t)

theorem keepsTimer_footprint {α : Type} {allowed : Act → Bool} {changes : Process → Process → Prop}
    {x : ShimM α} (hx : Proc.Footprint allowed changes x)
    (ha : ∀ a, allowed a = true → isTimerAct a = false) : KeepsTimer x := by
  have hkeeps : Proc.Keeps (fun _ : Process => True) (fun e => isTimerAct e.1 = false)
      (fun _ => True) x := hx.keeps (fun _ _ _ _ => trivial) (fun e => ha e.1)
  intro p
  apply Proc.wp_mono (hkeeps p trivial)
  intro t o h _ _
  rw [timed_untimed h.1]
  trivial

theorem keepsTimer_act {a : Act} (ha : isTimerAct a = false) : KeepsTimer (act a) :=
  fun _ r _ _ => by
    rw [timed_untimed (t := [⟨a, r⟩]) (fun e he => by rw [List.mem_singleton.mp he]; exact ha)]
    trivial

theorem keepsTimer_bind {α β : Type} {x : ShimM α} {f : α → ShimM β} (hx : KeepsTimer x)
    (hf : ∀ a, KeepsTimer (f a)) : KeepsTimer (x >>= f) := by
  intro p
  refine Proc.wp_seq (hx p) ?_ (fun _ _ _ _ h => by cases h)
  intro t a p' ht
  apply Proc.wp_mono (hf a p')
  intro t' o ht' q hq
  rw [timed_append]
  exact timed_mono (fun _ => ht _ rfl) t' (ht' q hq)

theorem keepsTimer_hadActivity : KeepsTimer hadActivity := by
  intro p
  apply Proc.wp_mono (wp_hadActivity p)
  intro t o h _ _
  obtain ⟨id, rfl, -⟩ := h
  rw [timed_append]
  exact .inr rfl

theorem closed_keepsTimer : Closed (fun _ x => KeepsTimer x) where
  pure _ := fun _ _ _ => trivial
  bind := keepsTimer_bind
  halt _ := fun _ _ h => by cases h
  inquiry hx := keepsTimer_footprint hx
    (fun _ h => (isUntimed_iff.mp (isUntimed_of_isInquiry h)).1)
  hadActivity := keepsTimer_hadActivity
  cgroup hx := keepsTimer_footprint hx
    (fun _ h => (isUntimed_iff.mp (isUntimed_of_isCgroupAct h)).1)
  returnValue _ := keepsTimer_act rfl
  returnGError _ := keepsTimer_act rfl
  emitSignal _ _ _ := keepsTimer_act rfl

theorem keepsTimer_powerUnitStart (action : PowerAction) : KeepsTimer (powerUnitStart action) := by
  apply keepsTimer_footprint (PowerWork.powerUnitStart action)
  intro a ha
  cases a <;> first | rfl | cases ha

/-- Every request leaves a timer attached, whether there was one before or not. -/
theorem wp_handle_timed (r : Request) (p : Process) (P : Prop) :
    (r.handle systemdVersion).wp p (fun t o => ∀ q, o = .ok q → timed P t) := by
  have hkeeps : KeepsTimer (r.handle systemdVersion) :=
    closed_keepsTimer.handle r (fun _ _ _ _ action => keepsTimer_powerUnitStart action)
  apply Prog.wp_mono (Prog.wp_and (hkeeps p) (Rearming.handle systemdVersion r p))
  intro t o h q hq
  exact timed_of_added (h.2 q hq) (h.1 q hq)

/-! What the loop keeps. -/

/-- A timeout source is attached that expires within ten seconds. -/
def Loop.ticks (s : Loop) : Prop := ∃ x ∈ s.sources, x.2 ≤ s.clock + 10000000

theorem ticks_perform {s s' : Loop} {cb : Callback} {e : Event Ans} (h : s.perform cb e = some s')
    (ht : timedStep s.ticks e) : s'.ticks := by
  obtain ⟨a, r⟩ := e
  cases a with
  | timeoutAdd interval =>
    obtain rfl := Option.some.inj (Option.ite_none_right_eq_some.mp h).2
    obtain ⟨x, hx, hle⟩ | rfl := ht
    · exact ⟨x, List.mem_append_left _ hx, hle⟩
    · exact ⟨_, List.mem_append_right _ (List.mem_singleton_self _), Int.le_refl _⟩
  | sourceRemove id => cases ht
  | getMonotonicTime =>
    obtain rfl := Option.some.inj (Option.ite_none_right_eq_some.mp h).2
    exact ht
  | returnValue value =>
    obtain rfl := Option.some.inj h
    cases cb <;> exact ht
  | returnGError error =>
    obtain rfl := Option.some.inj h
    cases cb <;> exact ht
  | _ =>
    obtain rfl := Option.some.inj h
    exact ht

theorem ticks_tick {s : Loop} (h : s.ticks) (d : Nat) : { s with clock := s.clock + d }.ticks := by
  obtain ⟨x, hx, hle⟩ := h
  refine ⟨x, hx, ?_⟩
  show x.2 ≤ s.clock + d + 10000000
  omega

/-- A process that has handled a request ends within ten seconds of idleness,
or is shutting down; one that has handled none has nothing to wait for. -/
structure Ending (s : Loop) : Prop where
  idle : s.running = none → s.handled ≠ [] → s.process.inShutdown = false → s.ticks
  fresh : s.running = none → s.handled = [] → s.sources = []
  call : ∀ c serial r, s.running = some c → c.callback = .call serial r →
    c.thread.rest.wp (fun t o => ∀ q, o = .ok q → timed s.ticks t)
  timeout : ∀ c id, s.running = some c → c.callback = .timeout id → s.handled ≠ [] ∧
    c.thread.rest.wp (fun _ o => ∀ q, o = .ok q → q.2.inShutdown = true)

theorem ending_boot : Ending bootLoop := ⟨fun _ h => absurd rfl h, fun _ _ => rfl, nofun, nofun⟩

theorem ending_dispatch {s : Loop} (serial : Nat) (r : Request) (queue : List (Nat × Request)) :
    Ending { s with
      queue := queue
      running := some ⟨.call serial r, .start ((r.handle systemdVersion).run s.process)⟩ } := by
  refine ⟨nofun, nofun, fun c serial' r' hrun _ => ?_, fun c id hrun hcb => ?_⟩
  · obtain rfl := Option.some.inj hrun
    exact wp_handle_timed r s.process _
  · obtain rfl := Option.some.inj hrun
    cases hcb

theorem ending_fire {s : Loop} {id : Nat} (h : s.handled ≠ []) :
    Ending { s with running := some ⟨.timeout id, .start (exitOnInactivity.run s.process)⟩ } := by
  refine ⟨nofun, nofun, fun c serial r hrun hcb => ?_, fun c id' hrun _ => ⟨h, ?_⟩⟩
  · obtain rfl := Option.some.inj hrun
    cases hcb
  · obtain rfl := Option.some.inj hrun
    apply Prog.wp_mono (wp_exitOnInactivity s.process)
    intro t o ho q hq
    obtain ⟨hp, -, rfl⟩ | ⟨-, -, rfl⟩ := ho
    · obtain rfl := Except.ok.inj hq
      exact hp
    · cases hq

theorem ending_act {s s' : Loop} {e : Event Ans} (h : Ending s)
    (hs : loopStep s (.act e : Label systemdVersion) = some s') : Ending s' := by
  obtain ⟨c, th, s₁, hrun, hth, hp, rfl⟩ := loopStep_act hs
  obtain ⟨k, hk, rfl⟩ := Thread.step_cases hth
  refine ⟨nofun, nofun, fun c' serial r hrun' hcb => ?_, fun c' id hrun' hcb => ?_⟩
  · obtain rfl := Option.some.inj hrun'
    have hcall := h.call c serial r hrun hcb
    rw [hk] at hcall
    apply Prog.wp_mono (hcall e.2)
    intro t o ho q hq
    exact timed_mono (ticks_perform hp) t (ho q hq)
  · obtain rfl := Option.some.inj hrun'
    obtain ⟨hhandled, hwp⟩ := h.timeout c id hrun hcb
    rw [hk] at hwp
    have hsame : s₁.handled = s.handled := by rw [(performed hp).frame]
    exact ⟨fun hnone => hhandled (hsame.symm.trans hnone), hwp e.2⟩

/-- The handler leaves the timer; the timer's callback leaves a shutdown. -/
theorem ending_returned {s : Loop} {c : Running} {q : Unit × Process} (h : Ending s)
    (hrun : s.running = some c) (hret : c.thread.rest = .ret q) :
    Ending (s.returned c.callback q.2) := by
  obtain ⟨cb, th⟩ := c
  have hidle : ∀ c, (s.returned cb q.2).running ≠ some c := by simp [running_returned]
  cases cb with
  | call serial r =>
    have hcall := h.call _ serial r hrun rfl
    rw [hret] at hcall
    exact ⟨fun _ _ _ => hcall q rfl, fun _ hnone => by simp [Loop.returned] at hnone,
      fun c _ _ hc => absurd hc (hidle c), fun c _ hc => absurd hc (hidle c)⟩
  | timeout id =>
    obtain ⟨hhandled, hwp⟩ := h.timeout _ id hrun rfl
    rw [hret] at hwp
    refine ⟨fun _ _ hup => ?_, fun _ hnone => absurd hnone hhandled,
      fun c _ _ hc => absurd hc (hidle c), fun c _ hc => absurd hc (hidle c)⟩
    cases (hwp q rfl).symm.trans hup

theorem ending_step {s s' : Loop} {l : Label systemdVersion} (h : Ending s)
    (hs : loopStep s l = some s') : Ending s' := by
  cases l with
  | arrive r =>
    obtain rfl := Option.some.inj hs
    exact ⟨h.idle, h.fresh, h.call, h.timeout⟩
  | tick d =>
    obtain rfl := Option.some.inj hs
    refine ⟨fun hrun hh hup => ticks_tick (h.idle hrun hh hup) d, h.fresh, ?_, h.timeout⟩
    intro c serial r hrun hcb
    apply Prog.wp_mono (h.call c serial r hrun hcb)
    intro t o ho q hq
    exact timed_mono (fun ht => ticks_tick ht d) t (ho q hq)
  | dispatch i =>
    obtain ⟨serial, r, queue, -, -, rfl⟩ := loopStep_dispatch hs
    exact ending_dispatch serial r queue
  | fire id =>
    obtain ⟨x, hx, -, -⟩ := loopStep_expired hs
    obtain ⟨hrun, rfl⟩ := loopStep_fire hs
    apply ending_fire
    intro hnone
    rw [h.fresh hrun hnone] at hx
    cases hx
  | act e => exact ending_act h hs
  | finish =>
    obtain ⟨c, hrun, ⟨q, hret, rfl⟩ | ⟨x, -, rfl⟩⟩ := loopStep_finish hs
    · exact ending_returned h hrun hret
    · exact ⟨fun _ hh => absurd rfl hh, fun _ _ => rfl, nofun, nofun⟩
  | send =>
    obtain ⟨m, outbox, -, rfl⟩ := loopStep_send hs
    exact ⟨h.idle, h.fresh, h.call, h.timeout⟩

theorem ending_run (ls : List (Label systemdVersion)) (s : Loop)
    (hrun : Runs.run loopStep bootLoop ls = some s) : Ending s :=
  Runs.run_invariant ending_boot (fun _ _ _ h hs => ending_step h hs) ls s hrun

/-! The end, and why there may be none. -/

theorem run_exitOnInactivity {p : Process} (h : p.inShutdown = false) :
    exitOnInactivity.run p = .act .flushSync (fun _ => .halt (.exit 0)) := by
  obtain ⟨_, inShutdown, _⟩ := p
  obtain rfl := h
  rfl

theorem run_exitOnInactivity_shutdown {p : Process} (h : p.inShutdown = true) :
    exitOnInactivity.run p = .ret ((), p) := by
  obtain ⟨_, inShutdown, _⟩ := p
  obtain rfl := h
  rfl

theorem fire_due (systemdVersion : Nat) {s : Loop} (hidle : s.running = none) {x : Nat × Int}
    (hx : x ∈ s.sources) (hdue : x.2 ≤ s.clock) :
    loopStep s (.fire x.1 : Label systemdVersion) =
      some { s with running := some ⟨.timeout x.1, .start (exitOnInactivity.run s.process)⟩ } := by
  have hany : s.sources.any (fun p => p.1 = x.1 ∧ p.2 ≤ s.clock) = true :=
    List.any_eq_true.mpr ⟨x, hx, decide_eq_true ⟨rfl, hdue⟩⟩
  simp only [loopStep, hidle, hany, if_true]

theorem exits_of_fired (systemdVersion : Nat) {s : Loop} {id : Nat} {p : Process}
    (hup : p.inShutdown = false)
    (hrun : s.running = some ⟨.timeout id, .start (exitOnInactivity.run p)⟩) :
    ∃ s', loopStep s (.act ⟨.flushSync, ()⟩ : Label systemdVersion) = some s' ∧ Exits s' ∧
      s'.outbox = [] := by
  rw [run_exitOnInactivity hup] at hrun
  let s' : Loop := { s with
    wire := s.wire ++ s.outbox
    outbox := []
    running := some ⟨.timeout id, ⟨[⟨.flushSync, ()⟩], .halt (.exit 0)⟩⟩ }
  refine ⟨s', ?_, ⟨_, 0, rfl, rfl⟩, rfl⟩
  simp only [loopStep, hrun]
  rfl

/-- The timer is due after ten seconds at the latest, and its callback exits. -/
theorem exits_of_ticks (systemdVersion : Nat) {s : Loop} (h : s.ticks) (hidle : s.running = none)
    (hup : s.process.inShutdown = false) : ∃ id, ∀ d : Nat, 10000000 ≤ d → ∃ s',
    Runs.run loopStep s [(.tick d : Label systemdVersion), .fire id, .act ⟨.flushSync, ()⟩] =
      some s' ∧ Exits s' ∧ s'.outbox = [] := by
  obtain ⟨x, hx, hle⟩ := h
  refine ⟨x.1, fun d hd => ?_⟩
  have hdue : x.2 ≤ s.clock + d := by
    calc x.2 ≤ s.clock + 10000000 := hle
      _ ≤ s.clock + d := by omega
  have hfire := fire_due systemdVersion (s := { s with clock := s.clock + d }) hidle hx hdue
  obtain ⟨s', hact, hexit, hsent⟩ := exits_of_fired systemdVersion (s := { s with
    clock := s.clock + d
    running := some ⟨.timeout x.1, .start (exitOnInactivity.run s.process)⟩ }) hup rfl
  refine ⟨s', ?_, hexit, hsent⟩
  rw [Runs.run, loopStep, Option.bind_some, Runs.run, hfire, Option.bind_some, Runs.run, hact]
  rfl

/-- The process goes on: no timer is attached, or none exits. -/
structure Remains (s : Loop) : Prop where
  idle : s.running = none → s.sources = [] ∨ s.process.inShutdown = true
  running : ∀ c, s.running = some c → ∃ q, c.thread.rest = .ret q ∧ q.2.inShutdown = true

theorem remains_not_exits {s : Loop} (h : Remains s) : ¬ Exits s := by
  intro hexit
  obtain ⟨c, status, hrun, hrest⟩ := hexit
  obtain ⟨q, hret, -⟩ := h.running c hrun
  cases hret.symm.trans hrest

/-- As long as no request is dispatched. -/
theorem remains_step {s s' : Loop} {l : Label systemdVersion} (h : Remains s)
    (hl : ∀ i, l ≠ .dispatch i) (hs : loopStep s l = some s') : Remains s' := by
  cases l with
  | arrive r =>
    obtain rfl := Option.some.inj hs
    exact ⟨h.idle, h.running⟩
  | tick d =>
    obtain rfl := Option.some.inj hs
    exact ⟨h.idle, h.running⟩
  | dispatch i => exact absurd rfl (hl i)
  | fire id =>
    obtain ⟨x, hx, -, -⟩ := loopStep_expired hs
    obtain ⟨hrun, rfl⟩ := loopStep_fire hs
    have hshutdown : s.process.inShutdown = true := by
      apply (h.idle hrun).resolve_left
      intro hnone
      rw [hnone] at hx
      cases hx
    refine ⟨nofun, fun c hc => ⟨((), s.process), ?_, hshutdown⟩⟩
    obtain rfl := Option.some.inj hc
    exact run_exitOnInactivity_shutdown hshutdown
  | act e =>
    obtain ⟨c, th, s₁, hrun, hth, -, -⟩ := loopStep_act hs
    obtain ⟨k, hk, -⟩ := Thread.step_cases hth
    obtain ⟨q, hret, -⟩ := h.running c hrun
    cases hret.symm.trans hk
  | finish =>
    obtain ⟨c, hrun, ⟨q, hret, rfl⟩ | ⟨x, hhalt, -⟩⟩ := loopStep_finish hs
    · obtain ⟨q', hret', hshutdown⟩ := h.running c hrun
      obtain rfl := Prog.ret.inj (hret'.symm.trans hret)
      obtain ⟨cb, th⟩ := c
      cases cb <;> exact ⟨fun _ => .inr hshutdown, nofun⟩
    · obtain ⟨q, hret, -⟩ := h.running c hrun
      cases hret.symm.trans hhalt
  | send =>
    obtain ⟨m, outbox, -, rfl⟩ := loopStep_send hs
    exact ⟨h.idle, h.running⟩

theorem remains_run {ls : List (Label systemdVersion)} {s s' : Loop} (h : Remains s)
    (hls : ∀ l ∈ ls, ∀ i, l ≠ .dispatch i) (hrun : Runs.run loopStep s ls = some s') :
    Remains s' := by
  induction ls generalizing s with
  | nil =>
    obtain rfl := Option.some.inj hrun
    exact h
  | cons l ls ih =>
    obtain ⟨hl, hls⟩ := List.forall_mem_cons.mp hls
    obtain ⟨s₁, hs, hrun⟩ := Option.bind_eq_some_iff.mp hrun
    exact ih (remains_step h hl hs) hls hrun

/-- Without a further request, an idle process exits if it has handled one and
no shutdown is under way, and in no other case; then ten seconds are enough, and
everything it had to say is sent. -/
theorem idle_process_ends {ls : List (Label systemdVersion)} {s : Loop}
    (hrun : Runs.run loopStep bootLoop ls = some s) (hidle : s.running = none) :
    ((∃ (ls' : List (Label systemdVersion)) (s' : Loop), (∀ l ∈ ls', ∀ i, l ≠ .dispatch i) ∧
        Runs.run loopStep s ls' = some s' ∧ Exits s') ↔
      s.handled ≠ [] ∧ s.process.inShutdown = false) ∧
    (s.handled ≠ [] → s.process.inShutdown = false → ∃ id, ∀ d : Nat, 10000000 ≤ d → ∃ s',
      Runs.run loopStep s [(.tick d : Label systemdVersion), .fire id, .act ⟨.flushSync, ()⟩] =
        some s' ∧ Exits s' ∧ s'.outbox = []) := by
  have hending := ending_run ls s hrun
  have hends : s.handled ≠ [] → s.process.inShutdown = false → _ :=
    fun hh hup => exits_of_ticks systemdVersion (hending.idle hidle hh hup) hidle hup
  refine ⟨⟨?_, ?_⟩, hends⟩
  · intro h
    obtain ⟨ls', s', hls, hrun', hexit⟩ := h
    by_contra hnot
    have hremains : Remains s := by
      refine ⟨fun _ => ?_, fun c hc => by cases hidle.symm.trans hc⟩
      by_cases hh : s.handled = []
      · exact .inl (hending.fresh hidle hh)
      · exact .inr (Bool.not_eq_false _ ▸ fun hup => hnot ⟨hh, hup⟩)
    exact remains_not_exits (remains_run hremains hls hrun') hexit
  · intro h
    obtain ⟨id, hd⟩ := hends h.1 h.2
    obtain ⟨s', hrun', hexit, -⟩ := hd 10000000 (Nat.le_refl _)
    refine ⟨_, s', ?_, hrun', hexit⟩
    simp

theorem idle_process_ends_idleSeconds : ∃ s, Runs.run loopStep bootLoop idleSeconds = some s ∧
    ((∃ (ls' : List (Label 208)) (s' : Loop), (∀ l ∈ ls', ∀ i, l ≠ .dispatch i) ∧
        Runs.run loopStep s ls' = some s' ∧ Exits s') ↔
      s.handled ≠ [] ∧ s.process.inShutdown = false) ∧
    (s.handled ≠ [] → s.process.inShutdown = false → ∃ id, ∀ d : Nat, 10000000 ≤ d → ∃ s',
      Runs.run loopStep s [(.tick d : Label 208), .fire id, .act ⟨.flushSync, ()⟩] =
        some s' ∧ Exits s' ∧ s'.outbox = []) :=
  ⟨_, rfl, idle_process_ends (rfl : Runs.run loopStep bootLoop idleSeconds = some _) rfl⟩

end Shim
