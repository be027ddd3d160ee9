import SystemdShim.MainLoop

/- Shutdown wins over sleep. The flag of power-unit.c is memory of one process,
   so what carries it through a run is that its process lives on: while it is
   set, no callback clears it, none sleeps, and the inactivity timer returns
   without exiting. -/
namespace Shim
open Effects

variable {systemdVersion : Nat}

/-- What a callback may do once the flag is set: neither sleep nor exit, and
return with the flag. -/
def StaysUp (t : ShimTrace) (o : Except Halt (Unit × Process)) : Prop :=
  (∀ e ∈ t, isSleepAct e.1 = false) ∧
  Proc.Ends (fun p : Process => p.inShutdown = true) (fun h => ∀ status, h ≠ .exit status) o

/-- A shutdown is under way: the flag is set, if only by the time the callback
that runs returns. -/
def ShuttingDown (s : Loop) : Prop :=
  match s.running with
  | none => s.process.inShutdown = true
  | some c => c.thread.wp StaysUp

theorem shuttingDown_running {s : Loop} {c : Running} (h : s.running = some c) :
    ShuttingDown s ↔ c.thread.wp StaysUp := by
  simp only [ShuttingDown, h]

theorem wp_exitOnInactivity_shutdown {p : Process} (hp : p.inShutdown = true) :
    Proc.wp exitOnInactivity p StaysUp := by
  apply Proc.wp_mono (wp_exitOnInactivity p)
  intro t o h
  obtain ⟨-, rfl, rfl⟩ | ⟨h, -⟩ := h
  · exact ⟨by simp, hp⟩
  · rw [h] at hp; cases hp

theorem shuttingDown_not_exits {s : Loop} (h : ShuttingDown s) : ¬ Exits s := by
  intro hexit
  obtain ⟨c, status, hrun, hrest⟩ := hexit
  rw [shuttingDown_running hrun] at h
  exact (Thread.wp_halt h hrest).2 status rfl

/-- What one step preserves, unless it is a crash. -/
theorem shuttingDown_step {s s' : Loop} {l : Label systemdVersion} (h : ShuttingDown s)
    (hc : l = .finish → ¬ Crashes s) (hs : loopStep s l = some s') :
    ShuttingDown s' ∧ (∀ e, l = .act e → isSleepAct e.1 = false) := by
  cases l with
  | arrive r =>
    obtain rfl := Option.some.inj hs
    exact ⟨h, nofun⟩
  | tick d =>
    obtain rfl := Option.some.inj hs
    exact ⟨h, nofun⟩
  | dispatch i =>
    obtain ⟨serial, r, queue, hrun, -, rfl⟩ := loopStep_dispatch hs
    simp only [ShuttingDown, hrun] at h
    exact ⟨keeps_shutdown r s.process h, nofun⟩
  | fire id =>
    obtain ⟨hrun, rfl⟩ := loopStep_fire hs
    simp only [ShuttingDown, hrun] at h
    exact ⟨wp_exitOnInactivity_shutdown h, nofun⟩
  | act e =>
    obtain ⟨c, th, s₁, hrun, hth, -, rfl⟩ := loopStep_act hs
    rw [shuttingDown_running hrun] at h
    have hwp := Thread.wp_step h hth
    refine ⟨hwp, fun e' he => ?_⟩
    obtain rfl := Label.act.inj he
    -- the act is in every way the callback can still end
    obtain ⟨k, -, rfl⟩ := Thread.step_cases hth
    obtain ⟨t, o, ht, -⟩ := Prog.wp_exists hwp
    exact ht e (by simp)
  | finish =>
    obtain ⟨c, hrun, ⟨q, hret, rfl⟩ | ⟨x, hhalt, rfl⟩⟩ := loopStep_finish hs
    · rw [shuttingDown_running hrun] at h
      have hflag := (Thread.wp_ret h hret).2
      refine ⟨?_, nofun⟩
      obtain ⟨cb, th⟩ := c
      cases cb <;> exact hflag
    · rw [shuttingDown_running hrun] at h
      exact absurd ⟨c, x, hrun, hhalt, (Thread.wp_halt h hhalt).2⟩ (hc rfl)
  | send =>
    obtain ⟨m, outbox, -, rfl⟩ := loopStep_send hs
    exact ⟨h, nofun⟩

/-- Once the start of a power-off or reboot unit has been handled. -/
theorem shuttingDown_of_handled {s s' : Loop} (hi : s.Inv systemdVersion) (h : HandlesShutdown s)
    (hs : loopStep s (.finish : Label systemdVersion) = some s') : ShuttingDown s' := by
  obtain ⟨⟨cb, th⟩, serial, r, p, hrun, rfl, hr, hret⟩ := h
  have hspec := Thread.wp_ret (hi.good _ hrun).spec hret
  obtain ⟨c, hrun', ⟨q, hret', rfl⟩ | ⟨x, hhalt, -⟩⟩ := loopStep_finish hs
  · obtain rfl := Option.some.inj (hrun.symm.trans hrun')
    obtain rfl := Prog.ret.inj (hret.symm.trans hret')
    exact (hspec.2 p rfl).2 hr
  · obtain rfl := Option.some.inj (hrun.symm.trans hrun')
    rw [hret] at hhalt
    cases hhalt

/-- From the return of a power-off or reboot unit's start on, as long as no
callback crashes, nothing sleeps and the inactivity timer never exits. -/
theorem shutdown_wins {ls ls' : List (Label systemdVersion)} {s s' : Loop}
    (hrun : Runs.run loopStep bootLoop ls = some s) (hshutdown : HandlesShutdown s)
    (hrun' : Runs.run loopStep s (.finish :: ls') = some s')
    (hcrash : ∀ x ∈ Runs.trail loopStep s (.finish :: ls'), x.2 = .finish → ¬ Crashes x.1) :
    ∀ x ∈ Runs.trail loopStep s (.finish :: ls'),
      ¬ Exits x.1 ∧ ∀ e, x.2 = .act e → isSleepAct e.1 = false := by
  simp only [Runs.run] at hrun'
  obtain ⟨s₁, hs₁, hrun'⟩ := Option.bind_eq_some_iff.mp hrun'
  have h₁ := shuttingDown_of_handled (inv_run ls s hrun) hshutdown hs₁
  simp only [Runs.trail, hs₁, List.mem_cons, forall_eq_or_imp] at hcrash ⊢
  refine ⟨⟨?_, fun e he => by cases he⟩, ?_⟩
  · intro h
    obtain ⟨c, status, hc, hrest⟩ := h
    obtain ⟨c', _, _, p, hc', -, -, hret⟩ := hshutdown
    obtain rfl := Option.some.inj (hc.symm.trans hc')
    rw [hrest] at hret
    cases hret
  · exact Runs.trail_invariant (I := ShuttingDown) (A := fun s l => l = .finish → ¬ Crashes s)
      (G := fun s l => ¬ Exits s ∧ ∀ e, l = .act e → isSleepAct e.1 = false) (fun s l s' h hA hs =>
        have hstep := shuttingDown_step h hA hs
        ⟨hstep.1, shuttingDown_not_exits h, hstep.2⟩)
      h₁ hrun' hcrash.2

/-- StartUnit, from a client. -/
def startUnitOf (name : Bytes) : { r : Request // Deliverable 208 r } :=
  ⟨.manager [] "StartUnit" [.string name, .string []],
    .call _ (.manager [] ⟨"StartUnit", [⟨"name", .s⟩, ⟨"mode", .s⟩]⟩ _ (by decide) rfl)⟩

/-- The power-off command fails; the handler goes on to answer. -/
def powerOffRun : List (Label 208) :=
  [.arrive (startUnitOf (ascii "poweroff.target")), .dispatch 0, .act ⟨.getpid, (77 : Nat)⟩,
    .act ⟨.fileSetContents "/run/sendsigs.omit.d/systemd-shim.pid" (ascii "77"), false⟩,
    .act ⟨.system "/sbin/shutdown -h now", (-1 : Int)⟩, .act ⟨.returnValue [.o (ascii "/")], ()⟩,
    .act ⟨.emitSignal (some []) "JobRemoved" [.u 0, .o (ascii "/"), .s [], .s []], ()⟩,
    .act ⟨.timeoutAdd 10000, (1 : Nat)⟩]

/-- A suspend, refused; ten idle seconds; the timer fires and returns. -/
def suspendRun : List (Label 208) :=
  [.arrive (startUnitOf (ascii "suspend.target")), .dispatch 0,
    .act ⟨.returnValue [.o (ascii "/")], ()⟩,
    .act ⟨.emitSignal (some []) "JobRemoved" [.u 0, .o (ascii "/"), .s [], .s []], ()⟩,
    .act ⟨.sourceRemove 1, ()⟩, .act ⟨.timeoutAdd 10000, (2 : Nat)⟩, .finish, .tick 10000000,
    .fire 2, .finish]

theorem not_crashes_of_ret {s : Loop} {c : Running} {p : Unit × Process} (hrun : s.running = some c)
    (hret : c.thread.rest = .ret p) : ¬ Crashes s := by
  intro h
  obtain ⟨c', h, hc, hrest, -⟩ := h
  obtain rfl := Option.some.inj (hrun.symm.trans hc)
  rw [hret] at hrest
  cases hrest

theorem shutdown_wins_suspendRun : ∃ s, Runs.run loopStep bootLoop powerOffRun = some s ∧
    ∀ x ∈ Runs.trail loopStep s (.finish :: suspendRun),
      ¬ Exits x.1 ∧ ∀ e, x.2 = .act e → isSleepAct e.1 = false := by
  refine ⟨_, rfl, shutdown_wins (rfl : Runs.run loopStep bootLoop powerOffRun = some _)
    ⟨_, 0, _, _, rfl, rfl, ⟨[], ascii "poweroff.target", _, .off, rfl, rfl, .inl rfl⟩, rfl⟩
    (rfl : Runs.run loopStep _ (.finish :: suspendRun) = some _) ?_⟩
  refine List.forall_mem_cons.mpr ⟨fun _ => not_crashes_of_ret rfl rfl, ?_⟩
  iterate 6 refine List.forall_mem_cons.mpr ⟨nofun, ?_⟩
  refine List.forall_mem_cons.mpr ⟨fun _ => not_crashes_of_ret rfl rfl, ?_⟩
  iterate 2 refine List.forall_mem_cons.mpr ⟨nofun, ?_⟩
  exact List.forall_mem_cons.mpr ⟨fun _ => not_crashes_of_ret rfl rfl, List.forall_mem_nil _⟩

end Shim
