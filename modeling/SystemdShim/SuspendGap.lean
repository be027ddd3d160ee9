import SystemdShim.Shutdown
import SystemdShim.Timer

/- Suspends stay a second apart, in one process and from one to the next. A
   process that exits forgets when its last suspend was, and a fresh one would
   begin another at once; but the exit is the timer's, and the timer runs ten
   seconds from the end of the last suspend on. `Held` joins the two, with the
   times of the suspends of the whole run as ghost. -/
namespace Shim
open Effects

variable {systemdVersion : Nat}

/-- The timer as the loop has it, and the suspends of the run so far. -/
def Loop.watch (s : Loop) (suspends : List Int) : Watch :=
  { clock := s.clock, sources := s.sources, suspends := suspends }

/-- The time of the suspend that a step completes, if it does. -/
def Loop.suspendTime (s : Loop) : Label systemdVersion → List Int
  | .act e => if isSuspendAct e.1 then [s.clock] else []
  | _ => []

def suspendTimes (xs : List (Loop × Label systemdVersion)) : List Int :=
  xs.flatMap (fun x => x.1.suspendTime x.2)

/-- What a callback ends with. An exit forgets the last suspend, so it has to
be over. -/
def Leaves : Except Halt (Unit × Process) → Watch → Prop
  | .ok q, m => Armed q.2 m
  | .error (.exit _), m => Due m
  | .error _, _ => True

/-- The timer outlasts the debounce, by the time the callback that runs returns. -/
def Held (suspends : List Int) (s : Loop) : Prop :=
  match s.running with
  | none => Armed s.process (s.watch suspends)
  | some c => c.thread.rest.safe time (s.watch suspends) Leaves

theorem held_running {suspends : List Int} {s : Loop} {c : Running} (h : s.running = some c) :
    Held suspends s ↔ c.thread.rest.safe time (s.watch suspends) Leaves := by
  simp only [Held, h]

theorem held_idle {suspends : List Int} {s : Loop} (h : s.running = none) :
    Held suspends s ↔ Armed s.process (s.watch suspends) := by
  simp only [Held, h]

/-- What the loop does at an act is what the watch shows of it. -/
theorem answer_perform (systemdVersion : Nat) {s s' : Loop} {cb : Callback} {e : Event Ans}
    (suspends : List Int) (h : s.perform cb e = some s') :
    time.answer (s.watch suspends) e =
      some (s'.watch (suspends ++ s.suspendTime (.act e : Label systemdVersion))) := by
  obtain ⟨a, r⟩ := e
  cases a with
  | timeoutAdd interval =>
    obtain ⟨hid, h⟩ := Option.ite_none_right_eq_some.mp h
    obtain rfl := Option.some.inj h
    have hpos : 0 < r := Nat.zero_lt_of_lt hid
    simp [time, Watch.answer, hpos, Loop.watch, Loop.suspendTime, isSuspendAct]
  | getMonotonicTime =>
    obtain ⟨hnow, h⟩ := Option.ite_none_right_eq_some.mp h
    obtain rfl := Option.some.inj h
    simp [time, Watch.answer, hnow, Loop.watch, Loop.suspendTime, isSuspendAct]
  | sourceRemove id =>
    obtain rfl := Option.some.inj h
    simp [time, Watch.answer, Loop.watch, Loop.suspendTime, isSuspendAct]
  | returnValue value =>
    obtain rfl := Option.some.inj h
    cases cb <;> rfl
  | returnGError error =>
    obtain rfl := Option.some.inj h
    cases cb <;> rfl
  | _ =>
    obtain rfl := Option.some.inj h
    rfl

theorem safe_handle (systemdVersion : Nat) (r : Request) {p : Process} {m : Watch}
    (h : Armed p m) : Prog.safe time ((r.handle systemdVersion).run p) m Leaves := by
  have hg : Proc.Guards time Armed Armed (fun h => ∀ status, h ≠ .exit status)
      (r.handle systemdVersion) := guards_handle (fun _ hx => hx) systemdVersion r
  apply Prog.safe_mono (hg p m h)
  intro o m' ho
  cases o with
  | ok q => exact ho
  | error x =>
    cases x with
    | exit status => exact absurd rfl (ho status)
    | _ => trivial

/-- The timer's callback, when a second has passed. -/
theorem safe_exitOnInactivity {p : Process} {m : Watch} (h : Armed p m) (hd : Due m) :
    Prog.safe time (exitOnInactivity.run p) m Leaves := by
  show Proc.safe time exitOnInactivity p m Leaves
  unfold exitOnInactivity
  rw [Proc.safe_get_bind]
  split
  · rw [Proc.safe_pure]
    intro m₁ h₁
    exact stable_armed p m m₁ h₁ h
  · apply safe_untimed rfl
    intro _ m₁ h₁ m₂ h₂
    exact (hd.moves h₁).moves h₂

theorem due_of_expired {s : Loop} {p : Process} {suspends : List Int} {id : Nat}
    (h : Armed p (s.watch suspends)) (hx : ∃ x ∈ s.sources, x.1 = id ∧ x.2 ≤ s.clock) :
    Due (s.watch suspends) := by
  obtain ⟨x, hx, -, hexpired⟩ := hx
  intro T hT
  show T + 1000000 ≤ s.clock
  calc T + 1000000 ≤ T + 10000000 := by omega
    _ ≤ x.2 := h.armed T hT x hx
    _ ≤ s.clock := hexpired

/-- A fresh process, once the last suspend is over. -/
theorem armed_restarted {s : Loop} {suspends : List Int} (h : Due (s.watch suspends)) :
    Armed s.restarted.process (s.restarted.watch suspends) := by
  refine ⟨⟨⟨nofun, fun T hT => ?_⟩, fun T hT => .inr (h T hT)⟩, nofun⟩
  have hover : T + 1000000 ≤ s.clock := h T hT
  show T ≤ s.clock
  omega

/-- A timeout source is gone when its callback has returned. -/
theorem armed_returned {s : Loop} {suspends : List Int} {p : Process} (cb : Callback)
    (h : Armed p (s.watch suspends)) :
    Armed (s.returned cb p).process ((s.returned cb p).watch suspends) := by
  cases cb with
  | call serial r => exact h
  | timeout id =>
    refine ⟨⟨⟨fun x hx => ?_, h.past⟩, h.spaced⟩, fun T hT x hx => ?_⟩
    · exact h.handle x (List.mem_of_mem_filter hx)
    · exact h.armed T hT x (List.mem_of_mem_filter hx)

theorem held_boot : Held [] bootLoop := ⟨⟨⟨nofun, nofun⟩, nofun⟩, nofun⟩

/-- Outside the callback, nothing but the clock moves. -/
theorem held_moves {s s' : Loop} {suspends : List Int} (h : Held suspends s)
    (hrunning : s'.running = s.running) (hprocess : s'.process = s.process)
    (hm : time.moves (s.watch suspends) (s'.watch suspends)) : Held suspends s' := by
  cases hrun : s.running with
  | none =>
    rw [held_idle (hrunning.trans hrun), hprocess]
    rw [held_idle hrun] at h
    exact stable_armed _ _ _ hm h
  | some c =>
    rw [held_running (hrunning.trans hrun)]
    rw [held_running hrun] at h
    exact Prog.safe_moves h hm

/-- What one step preserves. Only a crash, which can come at any time, forgets
a suspend that is not yet over. -/
theorem held_step {s s' : Loop} {l : Label systemdVersion} {suspends : List Int}
    (h : Held suspends s) (hs : loopStep s l = some s') :
    ∃ suspends', Held suspends' s' ∧
      ((l = .finish → ¬ Crashes s) → suspends' = suspends ++ s.suspendTime l) := by
  cases l with
  | arrive r =>
    obtain rfl := Option.some.inj hs
    exact ⟨suspends, held_moves h rfl rfl (time.refl _), fun _ => (List.append_nil _).symm⟩
  | tick d =>
    obtain rfl := Option.some.inj hs
    have hm : time.moves (s.watch suspends) ({ s with clock := s.clock + d }.watch suspends) :=
      ⟨rfl, Int.le_add_of_nonneg_right (Int.natCast_nonneg d)⟩
    exact ⟨suspends, held_moves h rfl rfl hm, fun _ => (List.append_nil _).symm⟩
  | dispatch i =>
    obtain ⟨serial, r, queue, hrun, -, rfl⟩ := loopStep_dispatch hs
    rw [held_idle hrun] at h
    exact ⟨suspends, safe_handle systemdVersion r h, fun _ => (List.append_nil _).symm⟩
  | fire id =>
    obtain ⟨hrun, rfl⟩ := loopStep_fire hs
    rw [held_idle hrun] at h
    have hd := due_of_expired h (loopStep_expired hs)
    exact ⟨suspends, safe_exitOnInactivity h hd, fun _ => (List.append_nil _).symm⟩
  | act e =>
    obtain ⟨c, th, s₁, hrun, hth, hp, rfl⟩ := loopStep_act hs
    rw [held_running hrun] at h
    obtain ⟨k, hk, rfl⟩ := Thread.step_cases hth
    rw [hk] at h
    have hrest := (Prog.safe_act h).2 e.2 _ (answer_perform systemdVersion suspends hp)
    exact ⟨_, hrest, fun _ => rfl⟩
  | finish =>
    obtain ⟨c, hrun, ⟨q, hret, rfl⟩ | ⟨x, hhalt, rfl⟩⟩ := loopStep_finish hs
    · rw [held_running hrun, hret] at h
      refine ⟨suspends, ?_, fun _ => (List.append_nil _).symm⟩
      rw [held_idle (running_returned s c.callback q.2)]
      have harmed : Armed q.2 (s.watch suspends) := h _ (time.refl _)
      exact armed_returned c.callback harmed
    · rw [held_running hrun, hhalt] at h
      by_cases hx : ∃ status, x = .exit status
      · obtain ⟨status, rfl⟩ := hx
        have hd : Due (s.watch suspends) := h _ (time.refl _)
        exact ⟨suspends, armed_restarted hd, fun _ => (List.append_nil _).symm⟩
      · refine ⟨[], ⟨⟨⟨nofun, nofun⟩, nofun⟩, nofun⟩, fun hc => absurd ?_ (hc rfl)⟩
        exact ⟨c, x, hrun, hhalt, fun status hstatus => hx ⟨status, hstatus⟩⟩
  | send =>
    obtain ⟨m, outbox, -, rfl⟩ := loopStep_send hs
    exact ⟨suspends, held_moves h rfl rfl (time.refl _), fun _ => (List.append_nil _).symm⟩

theorem held_run {ls : List (Label systemdVersion)} {s : Loop}
    (hrun : Runs.run loopStep bootLoop ls = some s)
    (hcrash : ∀ x ∈ Runs.trail loopStep bootLoop ls, x.2 = .finish → ¬ Crashes x.1) :
    Held (suspendTimes (Runs.trail loopStep bootLoop ls)) s := by
  revert hcrash
  refine Runs.run_induct (P := fun ls s =>
    (∀ x ∈ Runs.trail loopStep bootLoop ls, x.2 = .finish → ¬ Crashes x.1) →
      Held (suspendTimes (Runs.trail loopStep bootLoop ls)) s) (fun _ => held_boot) ?_ ls s hrun
  intro ls s l s' hrun ih hl hcrash
  rw [Runs.trail_snoc hrun, List.forall_mem_append] at hcrash
  obtain ⟨hcrash, hlast⟩ := hcrash
  obtain ⟨suspends', h', hsuspends⟩ := held_step (ih hcrash) hl
  rw [hsuspends (hlast _ (List.mem_singleton_self _))] at h'
  rw [Runs.trail_snoc hrun]
  simpa only [suspendTimes, List.flatMap_append, List.flatMap_singleton] using h'

/-- The callback is about to begin a suspend: to look for its command. -/
def BeginsSuspend (s : Loop) : Prop :=
  ∃ c a k, s.running = some c ∧ c.thread.rest = .act a k ∧ beginsSuspend a = true

theorem held_begins {s : Loop} {suspends : List Int} (h : Held suspends s)
    (hb : BeginsSuspend s) : Due (s.watch suspends) := by
  obtain ⟨c, a, k, hrun, hrest, ha⟩ := hb
  rw [held_running hrun, hrest] at h
  exact (Prog.safe_act h).1.2 ha

/-- As long as a process ends only by the inactivity timer, a suspend begins
one second or more after any suspend before it has completed, whichever
processes the two are of. -/
theorem suspends_apart {ls ls' : List (Label systemdVersion)} {s s' : Loop} {e : Event Ans}
    (hrun : Runs.run loopStep bootLoop ls = some s) (he : isSuspendAct e.1 = true)
    (hrun' : Runs.run loopStep s (.act e :: ls') = some s') (hbegin : BeginsSuspend s')
    (hcrash : ∀ x ∈ Runs.trail loopStep bootLoop (ls ++ .act e :: ls'),
      x.2 = .finish → ¬ Crashes x.1) : s.clock + 1000000 ≤ s'.clock := by
  have hall : Runs.run loopStep bootLoop (ls ++ .act e :: ls') = some s' := by
    rw [Runs.run_append, hrun]
    exact hrun'
  have hd := held_begins (held_run hall hcrash) hbegin
  refine hd s.clock (List.mem_flatMap.mpr ⟨(s, .act e), ?_, ?_⟩)
  · exact Runs.mem_trail hrun _ _
  · simp [Loop.suspendTime, he]

/-- The first suspend, up to its command. -/
def suspendsFirst : List (Label 208) :=
  [.tick 1000000, .arrive (startUnitOf (ascii "suspend.target")), .dispatch 0,
    .act ⟨.getMonotonicTime, (1000000 : Int)⟩, .act ⟨.testExecutable "/usr/sbin/pm-suspend", true⟩]

/-- Ten idle seconds, the exit, and the next process is about to suspend. -/
def suspendsAgain : List (Label 208) :=
  [.act ⟨.getMonotonicTime, (1000000 : Int)⟩, .act ⟨.returnValue [.o (ascii "/")], ()⟩,
    .act ⟨.emitSignal (some []) "JobRemoved" [.u 0, .o (ascii "/"), .s [], .s []], ()⟩,
    .act ⟨.timeoutAdd 10000, (1 : Nat)⟩, .finish, .tick 10000000, .fire 1, .act ⟨.flushSync, ()⟩,
    .finish, .arrive (startUnitOf (ascii "suspend.target")), .dispatch 0,
    .act ⟨.getMonotonicTime, (11000000 : Int)⟩]

theorem not_crashes_of_exit {s : Loop} {c : Running} {status : Nat} (hrun : s.running = some c)
    (hexit : c.thread.rest = .halt (.exit status)) : ¬ Crashes s := by
  intro h
  obtain ⟨c', x, hc, hrest, hx⟩ := h
  obtain rfl := Option.some.inj (hrun.symm.trans hc)
  exact hx status (Prog.halt.inj (hrest.symm.trans hexit))

theorem suspends_apart_across_exit : ∃ s s' : Loop,
    Runs.run loopStep bootLoop suspendsFirst = some s ∧
    Runs.run loopStep s (.act ⟨.system "/usr/sbin/pm-suspend", (0 : Int)⟩ :: suspendsAgain) =
      some s' ∧ s.clock + 1000000 ≤ s'.clock := by
  refine ⟨_, _, rfl, rfl, suspends_apart (rfl : Runs.run loopStep bootLoop suspendsFirst = some _)
    (by decide) (rfl : Runs.run loopStep _
      (.act ⟨.system "/usr/sbin/pm-suspend", (0 : Int)⟩ :: suspendsAgain) = some _)
    ⟨_, _, _, rfl, rfl, rfl⟩ ?_⟩
  iterate 10 refine List.forall_mem_cons.mpr ⟨nofun, ?_⟩
  refine List.forall_mem_cons.mpr ⟨fun _ => not_crashes_of_ret rfl rfl, ?_⟩
  iterate 3 refine List.forall_mem_cons.mpr ⟨nofun, ?_⟩
  refine List.forall_mem_cons.mpr ⟨fun _ => not_crashes_of_exit rfl rfl, ?_⟩
  iterate 3 refine List.forall_mem_cons.mpr ⟨nofun, ?_⟩
  exact List.forall_mem_nil _

end Shim
