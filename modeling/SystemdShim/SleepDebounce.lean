import SystemdShim.PowerUnit
import SystemdShim.Lib.Machine
import SystemdShim.Lib.Since

/- The debounce of power_unit_start over sequences of suspend and hibernate
   requests. The comment in the source promises it for both; the code checks it
   for a suspend only, and against the last suspend only. `SleepRun` lists what
   a start can do while no shutdown has been asked for; the history of the
   requests gives last_suspend_time and the last sleep, and so says which
   requests go ahead (`debounced_iff`). Which exit statuses of the pm-utils mean
   that the machine slept is left open; a write to /sys/power/state has to go
   through. -/
namespace Shim
open Effects History

/-- What is written to /sys/power/state. -/
def kind (action : PowerAction) : String := if action = .suspend then "mem" else "disk"

/-- The command for the action, or its write to /sys/power/state, with success. -/
def isSleepOf (counts : Int → Bool) (action : PowerAction) : Event Ans → Bool
  | ⟨.system command, status⟩ => decide (command = powerCmds action) && counts status
  | ⟨.write _ text, written⟩ => decide (text = kind action ∧ written = (text.length : Int))
  | _ => false

/-- A start of a suspend or hibernate unit, with what the machine and the clock
have to answer. -/
structure SleepRequest where
  action : PowerAction
  sleeps : action = .suspend ∨ action = .hibernate
  made : Int
  /-- the command is there, and its exit status -/
  executable : Bool
  status : Int
  /-- /sys/power/state opened, and what the write to it returns -/
  fd : Int
  written : Int
  /-- the clock at the start of the handler, when the sleep is over, and at the end -/
  read : Int
  ended : Int
  reread : Int
  acts : ShimTrace

namespace SleepRequest

def answers (r : SleepRequest) : Event Ans → Bool
  | ⟨.testExecutable _, found⟩ => decide (found = r.executable)
  | ⟨.system _, status⟩ => decide (status = r.status)
  | ⟨.openForWriting _, fd⟩ => decide (fd = r.fd)
  | ⟨.write _ _, written⟩ => decide (written = r.written)
  | _ => true

def readings (t : ShimTrace) : List Int :=
  t.filterMap (fun e => match e with
    | ⟨.getMonotonicTime, now⟩ => some now
    | _ => none)

/-- The answers the acts got are those of the machine and the clock. -/
def Answered (r : SleepRequest) : Prop :=
  r.acts.all r.answers = true ∧ readings r.acts <+: [r.read, r.reread]

/-- It may be made while an earlier one is being handled. -/
def Timely (r : SleepRequest) (clock : Int) : Prop :=
  clock ≤ r.read ∧ r.made ≤ r.read ∧ r.read ≤ r.ended ∧ r.ended ≤ r.reread

instance (r : SleepRequest) : Decidable r.Answered := by
  unfold Answered
  infer_instance

instance (r : SleepRequest) (clock : Int) : Decidable (r.Timely clock) := by
  unfold Timely
  infer_instance

def performs (counts : Int → Bool) (r : SleepRequest) : Bool :=
  r.acts.any (isSleepOf counts r.action)

end SleepRequest

structure SleepState where
  process : Process := {}
  clock : Int := 0

def sleepStep (s : SleepState) (r : SleepRequest) : Option SleepState :=
  if r.Timely s.clock ∧ r.Answered then
    match ((powerUnitStart r.action).run s.process).replay r.acts with
    | some (.ok (_, p)) => some { process := p, clock := r.reread }
    | _ => none
  else none

/-- A fresh process. -/
def freshSleep (p : Process) (clock : Int) : SleepState := { process := p.restart, clock := clock }

/-- The last of the requests that performed its sleep. -/
def lastPerformed (counts : Int → Bool) (rs : List SleepRequest) : Option SleepRequest :=
  (rs.filter (SleepRequest.performs counts)).getLast?

/-- The request is made within a second of the last sleep, and one of the two is
a hibernate. -/
def Hasty (counts : Int → Bool) (before : List SleepRequest) (r : SleepRequest) : Prop :=
  ∃ q ∈ lastPerformed counts before, r.made < q.ended + gTimeSpanSecond ∧
    (q.action = .hibernate ∨ r.action = .hibernate)

/-! What the history of the requests comes to. -/

namespace SleepRequest

/-- The check in the source lets it through. -/
def Due (r : SleepRequest) (last : Int) : Prop :=
  r.action = .suspend → last + gTimeSpanSecond ≤ r.read

/-- There is something to sleep by. -/
def Tries (r : SleepRequest) : Prop := r.executable = true ∨ r.fd ≠ -1

/-- And it works. -/
def Able (counts : Int → Bool) (r : SleepRequest) : Prop :=
  if r.executable = true then counts r.status = true
  else r.fd ≠ -1 ∧ r.written = ((kind r.action).length : Int)

instance (r : SleepRequest) (last : Int) : Decidable (r.Due last) := by
  unfold Due
  infer_instance

instance (r : SleepRequest) : Decidable r.Tries := by
  unfold Tries
  infer_instance

instance (counts : Int → Bool) (r : SleepRequest) : Decidable (r.Able counts) := by
  unfold Able
  infer_instance

end SleepRequest

structure SleepHistory where
  /-- when the last suspend that was tried was over, as last_suspend_time has it -/
  suspended : Int := 0
  slept : Option SleepRequest := none

def SleepHistory.next (counts : Int → Bool) (h : SleepHistory) (r : SleepRequest) :
    SleepHistory where
  suspended := if r.action = .suspend ∧ r.Due h.suspended ∧ r.Tries then r.reread else h.suspended
  slept := if r.Due h.suspended ∧ r.Able counts then some r else h.slept

def sleepHistory (counts : Int → Bool) (rs : List SleepRequest) : SleepHistory :=
  rs.foldl (SleepHistory.next counts) {}

/-- A request within a second of the last sleep, if the machine can do it, is a
suspend, and where that sleep was a hibernate it comes within a second of
last_suspend_time too. -/
def Spared (counts : Int → Bool) (before : List SleepRequest) (r : SleepRequest) : Prop :=
  ∀ q ∈ (sleepHistory counts before).slept, r.made < q.ended + gTimeSpanSecond → r.Able counts →
    r.action = .suspend ∧
      (q.action = .hibernate →
        r.read < (sleepHistory counts before).suspended + gTimeSpanSecond)

theorem sleepHistory_snoc (counts : Int → Bool) (rs : List SleepRequest) (r : SleepRequest) :
    sleepHistory counts (rs ++ [r]) = (sleepHistory counts rs).next counts r := List.foldl_append

theorem lastPerformed_snoc (counts : Int → Bool) (rs : List SleepRequest) (r : SleepRequest) :
    lastPerformed counts (rs ++ [r]) =
      if r.performs counts = true then some r else lastPerformed counts rs := by
  unfold lastPerformed
  rw [List.filter_append, List.filter_singleton]
  cases r.performs counts with
  | true => exact List.getLast?_concat
  | false => simp

/-! What a start does. -/

/-- The clock, as far as the source reads it for the action. -/
def clockEvents (action : PowerAction) (now : Int) : ShimTrace :=
  if action = .suspend then [⟨.getMonotonicTime, now⟩] else []

def afterSleep (action : PowerAction) (p : Process) (now : Int) : Process :=
  if action = .suspend then { p with lastSuspendTime := now } else p

inductive SleepRun (action : PowerAction) (p : Process) : ShimTrace → Process → Prop where
  | justNow (now : Int) : action = .suspend → now < p.lastSuspendTime + gTimeSpanSecond →
      SleepRun action p [⟨.getMonotonicTime, now⟩] p
  | command (now status after : Int) :
      (action = .suspend → p.lastSuspendTime + gTimeSpanSecond ≤ now) →
      SleepRun action p (clockEvents action now ++
        [⟨.testExecutable (powerCmds action), true⟩, ⟨.system (powerCmds action), status⟩] ++
        clockEvents action after) (afterSleep action p after)
  | noFile (now : Int) : (action = .suspend → p.lastSuspendTime + gTimeSpanSecond ≤ now) →
      SleepRun action p (clockEvents action now ++
        [⟨.testExecutable (powerCmds action), false⟩,
          ⟨.openForWriting "/sys/power/state", (-1 : Int)⟩]) p
  | file (now fd written after : Int) :
      (action = .suspend → p.lastSuspendTime + gTimeSpanSecond ≤ now) → fd ≠ -1 →
      SleepRun action p (clockEvents action now ++
        [⟨.testExecutable (powerCmds action), false⟩, ⟨.openForWriting "/sys/power/state", fd⟩,
          ⟨.write fd (if action = .suspend then "mem" else "disk"), written⟩, ⟨.close fd, ()⟩] ++
        clockEvents action after) (afterSleep action p after)

theorem wp_suspendedJustNow (action : PowerAction) (p : Process) :
    Proc.wp (suspendedJustNow action) p (fun t o => ∃ b p', o = .ok (b, p') ∧ p' = p ∧
      ∃ now, t = clockEvents action now ∧
        (b = true ↔ action = .suspend ∧ now < p.lastSuspendTime + gTimeSpanSecond)) := by
  unfold suspendedJustNow clockEvents
  by_cases ha : action = .suspend
  · simp only [ha, if_true]
    rw [Proc.wp_bind, Proc.wp_get, Proc.andThen_ok]
    intro now
    exact ⟨_, p, rfl, rfl, now, rfl, by simp⟩
  · simp only [ha, if_false]
    exact ⟨false, p, rfl, rfl, 0, rfl, by simp⟩

/-- The three ends of a sleep: by the command, given up, by the kernel's file. -/
theorem wp_performSleep (action : PowerAction) (p : Process) :
    Proc.wp (performSleep action) p (fun t o => ∃ slept p', o = .ok (slept, p') ∧ p' = p ∧
      ((slept = true ∧ ∃ status : Int, t =
          [⟨.testExecutable (powerCmds action), true⟩, ⟨.system (powerCmds action), status⟩]) ∨
        (slept = false ∧ t = [⟨.testExecutable (powerCmds action), false⟩,
          ⟨.openForWriting "/sys/power/state", (-1 : Int)⟩]) ∨
        (slept = true ∧ ∃ fd written : Int, fd ≠ -1 ∧ t =
          [⟨.testExecutable (powerCmds action), false⟩, ⟨.openForWriting "/sys/power/state", fd⟩,
            ⟨.write fd (if action = .suspend then "mem" else "disk"), written⟩,
            ⟨.close fd, ()⟩]))) := by
  unfold performSleep
  rw [Proc.wp_bind, wp_act]
  intro found
  rw [Proc.andThen_ok]
  cases found with
  | true => exact fun status => ⟨true, p, rfl, rfl, .inl ⟨rfl, status, rfl⟩⟩
  | false =>
    simp only [Bool.false_eq_true, if_false]
    rw [Proc.wp_bind, wp_act]
    intro (fd : Int)
    rw [Proc.andThen_ok]
    by_cases hfd : fd = -1
    · subst hfd
      exact ⟨false, p, rfl, rfl, .inr (.inl ⟨rfl, rfl⟩)⟩
    · simp only [hfd, if_false]
      exact fun written _ => ⟨true, p, rfl, rfl, .inr (.inr ⟨rfl, fd, written, hfd, rfl⟩)⟩

theorem wp_keepSuspendTime (action : PowerAction) (p : Process) :
    Proc.wp (if action = .suspend then do
        let now ← act .getMonotonicTime
        modify (fun s => { s with lastSuspendTime := now })
      else pure () : ShimM Unit) p (fun t o => ∃ after, o = .ok ((), afterSleep action p after) ∧
        t = clockEvents action after) := by
  unfold afterSleep clockEvents
  by_cases ha : action = .suspend
  · simp only [ha, if_true]
    exact fun after => ⟨after, rfl, rfl⟩
  · simp only [ha, if_false]
    exact ⟨0, rfl, rfl⟩

theorem wp_powerUnitStart_sleep {action : PowerAction}
    (ha : action = .suspend ∨ action = .hibernate) {p : Process} (hp : p.inShutdown = false) :
    Proc.wp (powerUnitStart action) p (fun t o => ∃ p', o = .ok ((), p') ∧
      SleepRun action p t p') := by
  have hoff : ¬ (action = .off ∨ action = .reboot) := by
    obtain rfl | rfl := ha
    · decide
    · decide
  unfold powerUnitStart
  rw [if_neg hoff, Proc.wp_bind, Proc.wp_get, Proc.andThen_ok, hp]
  simp only [List.nil_append]
  apply Proc.wp_seq_ok (wp_suspendedJustNow action p)
  intro t b p₁ h
  obtain ⟨rfl, now, rfl, hb⟩ := h
  cases b with
  | true =>
    obtain ⟨hsuspend, hnow⟩ := hb.mp rfl
    rw [if_pos rfl, Proc.wp_pure]
    refine ⟨p₁, rfl, ?_⟩
    rw [List.append_nil, clockEvents, if_pos hsuspend]
    exact .justNow now hsuspend hnow
  | false =>
    have hdue : action = .suspend → p₁.lastSuspendTime + gTimeSpanSecond ≤ now := by
      intro hsuspend
      by_contra hlt
      exact absurd (hb.mpr ⟨hsuspend, Int.not_le.mp hlt⟩) (by decide)
    apply Proc.wp_seq_ok (wp_performSleep action p₁)
    intro t slept p₂ h
    obtain ⟨rfl, h⟩ := h
    obtain ⟨rfl, status, rfl⟩ | ⟨rfl, rfl⟩ | ⟨rfl, fd, written, hfd, rfl⟩ := h
    · apply Proc.wp_mono (wp_keepSuspendTime action p₂)
      intro t o h
      obtain ⟨after, rfl, rfl⟩ := h
      refine ⟨_, rfl, ?_⟩
      rw [← List.append_assoc]
      exact .command now status after hdue
    · rw [if_neg (by decide), Proc.wp_pure]
      refine ⟨p₂, rfl, ?_⟩
      rw [List.append_nil]
      exact .noFile now hdue
    · apply Proc.wp_mono (wp_keepSuspendTime action p₂)
      intro t o h
      obtain ⟨after, rfl, rfl⟩ := h
      refine ⟨_, rfl, ?_⟩
      rw [← List.append_assoc]
      exact .file now fd written after hdue hfd

/-! What it comes to for a request. -/

@[simp] theorem readings_append (t t' : ShimTrace) :
    SleepRequest.readings (t ++ t') = SleepRequest.readings t ++ SleepRequest.readings t' :=
  List.filterMap_append ..

theorem readings_clockEvents {action : PowerAction} (ha : action = .suspend) (now : Int) :
    SleepRequest.readings (clockEvents action now) = [now] := by
  rw [clockEvents, if_pos ha]
  rfl

theorem any_clockEvents (counts : Int → Bool) (action : PowerAction) (now : Int) :
    (clockEvents action now).any (isSleepOf counts action) = false := by
  unfold clockEvents
  split
  · rfl
  · rfl

namespace SleepRequest
variable {r : SleepRequest} {now after : Int} {t : ShimTrace}

theorem Answered.mem (h : r.Answered) {e : Event Ans} (he : e ∈ r.acts) : r.answers e = true :=
  List.all_eq_true.mp h.1 e he

theorem Answered.executable (h : r.Answered) (file : String) {found : Bool}
    (he : (⟨.testExecutable file, found⟩ : Event Ans) ∈ r.acts) : found = r.executable :=
  of_decide_eq_true (h.mem he)

theorem Answered.fd (h : r.Answered) (file : String) {fd : Int}
    (he : (⟨.openForWriting file, fd⟩ : Event Ans) ∈ r.acts) : fd = r.fd :=
  of_decide_eq_true (h.mem he)

theorem Answered.read (h : r.Answered) (ht : r.acts = clockEvents r.action now ++ t)
    (ha : r.action = .suspend) : now = r.read := by
  have hreadings := h.2
  rw [ht, readings_append, readings_clockEvents ha] at hreadings
  exact (List.cons_prefix_cons.mp hreadings).1

theorem Answered.reread (h : r.Answered)
    (ht : r.acts = clockEvents r.action now ++ t ++ clockEvents r.action after)
    (hquiet : readings t = []) (ha : r.action = .suspend) : after = r.reread := by
  have hreadings := h.2
  rw [ht, readings_append, readings_append, readings_clockEvents ha, readings_clockEvents ha,
    hquiet] at hreadings
  exact (List.cons_prefix_cons.mp (List.cons_prefix_cons.mp hreadings).2).1

end SleepRequest

theorem lastSuspendTime_afterSleep (action : PowerAction) (p : Process) (now : Int) :
    (afterSleep action p now).lastSuspendTime =
      if action = .suspend then now else p.lastSuspendTime := by
  unfold afterSleep
  split
  · rfl
  · rfl

theorem inShutdown_afterSleep (action : PowerAction) (p : Process) (now : Int) :
    (afterSleep action p now).inShutdown = p.inShutdown := by
  unfold afterSleep
  split
  · rfl
  · rfl

/-- What a start does, by what the machine and the clock have to answer. -/
structure Served (counts : Int → Bool) (r : SleepRequest) (p p' : Process) : Prop where
  up : p'.inShutdown = p.inShutdown
  suspended : p'.lastSuspendTime =
    if r.action = .suspend ∧ r.Due p.lastSuspendTime ∧ r.Tries then r.reread
    else p.lastSuspendTime
  performs : r.performs counts = true ↔ r.Due p.lastSuspendTime ∧ r.Able counts

/-- The clock is late enough. -/
theorem due_of_read {r : SleepRequest} {now last : Int} {t : ShimTrace} (h : r.Answered)
    (ht : r.acts = clockEvents r.action now ++ t)
    (hdue : r.action = .suspend → last + gTimeSpanSecond ≤ now) : r.Due last := by
  intro ha
  rw [← h.read ht ha]
  exact hdue ha

/-- A sleep that is tried is over by the second reading. -/
theorem suspended_of_tried {r : SleepRequest} {p : Process} {now after : Int} {t : ShimTrace}
    (h : r.Answered) (ht : r.acts = clockEvents r.action now ++ t ++ clockEvents r.action after)
    (hquiet : SleepRequest.readings t = []) (hdue : r.Due p.lastSuspendTime) (htries : r.Tries) :
    (afterSleep r.action p after).lastSuspendTime =
      if r.action = .suspend ∧ r.Due p.lastSuspendTime ∧ r.Tries then r.reread
      else p.lastSuspendTime := by
  rw [lastSuspendTime_afterSleep]
  by_cases ha : r.action = .suspend
  · rw [if_pos ha, if_pos ⟨ha, hdue, htries⟩]
    exact h.reread ht hquiet ha
  · rw [if_neg ha, if_neg (fun hall => ha hall.1)]

theorem served {counts : Int → Bool} {r : SleepRequest} {p p' : Process} {t : ShimTrace}
    (hrun : SleepRun r.action p t p') (ht : r.acts = t) (h : r.Answered) :
    Served counts r p p' := by
  cases hrun with
  | justNow now ha hnow =>
    have hread : now = r.read := by
      apply h.read (t := []) _ ha
      rw [ht, clockEvents, if_pos ha]
      rfl
    have hnot : ¬ r.Due p.lastSuspendTime := by
      intro hdue
      have := hdue ha
      omega
    refine ⟨rfl, (if_neg (fun hall => hnot hall.2.1)).symm,
      iff_of_false ?_ (fun hall => hnot hall.1)⟩
    rw [SleepRequest.performs, ht]
    simp [isSleepOf]
  | command now status after hdue =>
    have hdue' := due_of_read h (ht.trans (List.append_assoc ..)) hdue
    have hfound : true = r.executable := h.executable (powerCmds r.action) (by rw [ht]; simp)
    have hstatus : status = r.status :=
      of_decide_eq_true (h.mem
        (e := ⟨.system (powerCmds r.action), status⟩) (by rw [ht]; simp))
    refine ⟨inShutdown_afterSleep .., suspended_of_tried h ht rfl hdue' (.inl hfound.symm), ?_⟩
    rw [SleepRequest.performs, ht, SleepRequest.Able, if_pos hfound.symm, ← hstatus]
    simp [any_clockEvents, isSleepOf, hdue']
  | noFile now hdue =>
    have hdue' := due_of_read h ht hdue
    have hfound : false = r.executable := h.executable (powerCmds r.action) (by rw [ht]; simp)
    have hfd : (-1 : Int) = r.fd := h.fd "/sys/power/state" (by rw [ht]; simp)
    have htries : ¬ r.Tries := by
      simp [SleepRequest.Tries, ← hfound, ← hfd]
    refine ⟨rfl, (if_neg (fun hall => htries hall.2.2)).symm, ?_⟩
    rw [SleepRequest.performs, ht, SleepRequest.Able, ← hfound, ← hfd]
    simp [any_clockEvents, isSleepOf]
  | file now fd written after hdue hfd =>
    have hdue' := due_of_read h (ht.trans (List.append_assoc ..)) hdue
    have hfound : false = r.executable := h.executable (powerCmds r.action) (by rw [ht]; simp)
    have hfd' : fd = r.fd := h.fd "/sys/power/state" (by rw [ht]; simp)
    have hwritten : written = r.written :=
      of_decide_eq_true (h.mem
        (e := ⟨.write fd (kind r.action), written⟩) (by rw [ht]; simp [kind]))
    refine ⟨inShutdown_afterSleep .., suspended_of_tried h ht rfl hdue' (.inr (hfd' ▸ hfd)), ?_⟩
    rw [SleepRequest.performs, ht, SleepRequest.Able, ← hfound, ← hfd', ← hwritten]
    simp [any_clockEvents, isSleepOf, hdue', hfd, kind]

/-! Runs. -/

theorem sleepStep_run (counts : Int → Bool) {s s' : SleepState} {r : SleepRequest}
    (hup : s.process.inShutdown = false) (h : sleepStep s r = some s') :
    Served counts r s.process s'.process := by
  unfold sleepStep at h
  split at h
  · rename_i hasked
    split at h
    · rename_i p hr
      obtain rfl := Option.some.inj h
      obtain ⟨p', ho, hrun⟩ :=
        (Prog.wp_iff_replay _ _).mp (wp_powerUnitStart_sleep r.sleeps hup) _ _ hr
      obtain ⟨-, rfl⟩ := Prod.mk.inj (Except.ok.inj ho)
      exact served hrun rfl hasked.2
    · cases h
  · cases h

/-- The history tells the state of the process, and the last sleep. -/
structure Told (counts : Int → Bool) (rs : List SleepRequest) (s : SleepState) : Prop where
  up : s.process.inShutdown = false
  suspended : s.process.lastSuspendTime = (sleepHistory counts rs).suspended
  slept : lastPerformed counts rs = (sleepHistory counts rs).slept

theorem told_step {counts : Int → Bool} {rs : List SleepRequest} {s s' : SleepState}
    {r : SleepRequest} (h : Told counts rs s) (hs : Served counts r s.process s'.process) :
    Told counts (rs ++ [r]) s' := by
  refine ⟨hs.up.trans h.up, ?_, ?_⟩
  · rw [hs.suspended, h.suspended, sleepHistory_snoc, SleepHistory.next]
  · rw [lastPerformed_snoc, sleepHistory_snoc, SleepHistory.next, ← h.suspended, h.slept]
    exact if_congr hs.performs rfl rfl

/-- For each request. -/
theorem spared_iff {counts : Int → Bool} {rs : List SleepRequest} {s s' : SleepState}
    {r : SleepRequest} (h : Told counts rs s) (hs : Served counts r s.process s'.process) :
    (Hasty counts rs r → r.performs counts = false) ↔ Spared counts rs r := by
  have hperforms : r.performs counts = false ↔
      ¬ (r.Due (sleepHistory counts rs).suspended ∧ r.Able counts) := by
    rw [← h.suspended, ← hs.performs, Bool.not_eq_true]
  unfold Hasty Spared
  rw [hperforms, h.slept]
  obtain ha | ha := r.sleeps
  · have hdue : r.Due (sleepHistory counts rs).suspended ↔
        ¬ r.read < (sleepHistory counts rs).suspended + gTimeSpanSecond := by
      simp [SleepRequest.Due, ha]
    rw [hdue, ha]
    constructor
    · intro hall q hq hmade hable
      refine ⟨rfl, fun hq' => ?_⟩
      by_contra hlt
      exact hall ⟨q, hq, hmade, .inl hq'⟩ ⟨hlt, hable⟩
    · intro hall hhasty hgo
      obtain ⟨q, hq, hmade, hq' | hr⟩ := hhasty
      · exact hgo.1 ((hall q hq hmade hgo.2).2 hq')
      · cases hr
  · have hdue : r.Due (sleepHistory counts rs).suspended := by
      intro hsuspend
      cases hsuspend.symm.trans ha
    constructor
    · intro hall q hq hmade hable
      exact absurd ⟨hdue, hable⟩ (hall ⟨q, hq, hmade, .inr ha⟩)
    · intro hall hhasty hgo
      obtain ⟨q, hq, hmade, -⟩ := hhasty
      cases ha.symm.trans (hall q hq hmade hgo.2).1

/-- Over any sequence of suspend and hibernate requests, on a clock that does not
go back: no request within a second of the last sleep, with a hibernate among
the two, performs anything, if and only if each that the machine can do is a
suspend, and after a hibernate one that comes within a second of
last_suspend_time too. -/
theorem debounced_iff (counts : Int → Bool) (p : Process) (clock : Int) (rs : List SleepRequest)
    (s : SleepState) (hrun : Runs.run sleepStep (freshSleep p clock) rs = some s) :
    Along (fun before r => Hasty counts before r → r.performs counts = false) rs ↔
      Along (Spared counts) rs := by
  refine (Runs.run_induct (P := fun rs s => Told counts rs s ∧
    (Along (fun before r => Hasty counts before r → r.performs counts = false) rs ↔
      Along (Spared counts) rs)) ⟨⟨rfl, rfl, rfl⟩, iff_of_true along_nil along_nil⟩ ?_ rs s hrun).2
  intro rs s r s' _ hi hs
  obtain ⟨htold, hiff⟩ := hi
  have hserved := sleepStep_run counts htold.up hs
  refine ⟨told_step htold hserved, ?_⟩
  rw [along_snoc_iff, along_snoc_iff, hiff, spared_iff htold hserved]

/-- A suspend by its command, two seconds after boot and a second long. -/
def suspendForASecond : SleepRequest where
  action := .suspend
  sleeps := .inl rfl
  made := 2000000
  executable := true
  status := 0
  fd := -1
  written := 0
  read := 2000000
  ended := 3000000
  reread := 3000000
  acts := [⟨.getMonotonicTime, (2000000 : Int)⟩, ⟨.testExecutable "/usr/sbin/pm-suspend", true⟩,
    ⟨.system "/usr/sbin/pm-suspend", (0 : Int)⟩, ⟨.getMonotonicTime, (3000000 : Int)⟩]

/-- Half a second later, by the kernel, which refuses. -/
def hibernateInVain : SleepRequest where
  action := .hibernate
  sleeps := .inr rfl
  made := 3500000
  executable := false
  status := 0
  fd := 3
  written := -1
  read := 3500000
  ended := 3500000
  reread := 3500000
  acts := [⟨.testExecutable "/usr/sbin/pm-hibernate", false⟩,
    ⟨.openForWriting "/sys/power/state", (3 : Int)⟩, ⟨.write 3 "disk", (-1 : Int)⟩, ⟨.close 3, ()⟩]

/-- Half a second later, by the command. -/
def hibernateAtOnce : SleepRequest where
  action := .hibernate
  sleeps := .inr rfl
  made := 3500000
  executable := true
  status := 0
  fd := -1
  written := 0
  read := 3500000
  ended := 4500000
  reread := 4500000
  acts := [⟨.testExecutable "/usr/sbin/pm-hibernate", true⟩,
    ⟨.system "/usr/sbin/pm-hibernate", (0 : Int)⟩]

theorem debounced_iff_in_vain : Hasty (fun _ => true) [suspendForASecond] hibernateInVain ∧
    hibernateInVain.performs (fun _ => true) = false := by
  have hhasty : Hasty (fun _ => true) [suspendForASecond] hibernateInVain :=
    ⟨suspendForASecond, rfl, by decide, .inr rfl⟩
  have hspared : Along (Spared (fun _ => true)) [suspendForASecond, hibernateInVain] := by
    refine along_snoc (along_snoc along_nil ?_) ?_
    · intro q hq
      cases hq
    · intro q _ _ hable
      exact absurd hable (by decide)
  exact ⟨hhasty, (debounced_iff (fun _ => true) {} 0 _ _
    (rfl : Runs.run sleepStep _ [suspendForASecond, hibernateInVain] = some _)).mpr hspared 1
    hibernateInVain rfl hhasty⟩

/-- The hibernate half a second after a suspend goes ahead. -/
theorem hibernate_not_debounced : ¬ ∀ (p : Process) (clock : Int) (rs : List SleepRequest)
    (s : SleepState), Runs.run sleepStep (freshSleep p clock) rs = some s →
    Along (fun before r => Hasty (fun status => decide (status = 0)) before r →
      r.performs (fun status => decide (status = 0)) = false) rs := by
  intro h
  have hsecond := h {} 0 [suspendForASecond, hibernateAtOnce] _ rfl 1 hibernateAtOnce rfl
    ⟨suspendForASecond, rfl, by decide, .inr rfl⟩
  cases hsecond

end Shim
