import SystemdShim.MainLoop
import SystemdShim.Lib.Rely

/- Time as a callback meets it. Between two acts the clock goes on; an act may
   attach a timeout source or remove one, read the clock, or suspend the
   machine. `guards_handle` says what every request keeps of this: the one
   source that can be attached is the one that the handle names, and a suspend
   begins only when all before it have been over for a second. A request that
   returns leaves the timer to run ten seconds from the end of its last
   suspend. -/
namespace Shim
open Effects

/-- The suspend command, or a write of "mem" to /sys/power/state. -/
def isSuspendAct : Act → Bool
  | .system command => command = powerCmds .suspend
  | .write _ text => text = "mem"
  | _ => false

/-- A suspend begins with the test for its command. -/
def beginsSuspend : Act → Bool
  | .testExecutable file => file = powerCmds .suspend
  | a => isSuspendAct a

structure Watch where
  clock : Int := 0
  sources : List (Nat × Int) := []
  /-- when the suspends so far completed -/
  suspends : List Int := []

namespace Watch

def answer (m : Watch) : Event Ans → Option Watch
  | ⟨.timeoutAdd interval, id⟩ =>
    if 0 < id then some { m with sources := m.sources ++ [(id, m.clock + 1000 * interval)] }
    else none
  | ⟨.sourceRemove id, _⟩ => some { m with sources := m.sources.filter (fun p => p.1 ≠ id) }
  | ⟨.getMonotonicTime, now⟩ => if now = m.clock then some m else none
  | ⟨a, _⟩ => some { m with suspends := m.suspends ++ if isSuspendAct a then [m.clock] else [] }

/-- Nothing but the clock moves by itself. -/
def Moves (m m' : Watch) : Prop := m' = { m with clock := m'.clock } ∧ m.clock ≤ m'.clock

/-- At most one timer at a time, of ten seconds, and a second between two
suspends. -/
def Permits (m : Watch) (a : Act) : Prop :=
  (∀ interval, a = .timeoutAdd interval → interval = 10000 ∧ m.sources = []) ∧
  (beginsSuspend a = true → ∀ T ∈ m.suspends, T + gTimeSpanSecond ≤ m.clock)

end Watch

def time : Surroundings Ans Watch where
  moves := Watch.Moves
  answer := Watch.answer
  permits := Watch.Permits
  refl m := ⟨rfl, Int.le_refl _⟩
  trans h h' := ⟨by rw [h'.1, h.1], Int.le_trans h.2 h'.2⟩

/-- The handle names every source. -/
structure Named (s : Process) (m : Watch) : Prop where
  handle : ∀ p ∈ m.sources, p.1 = s.inactivityTimeout ∧ 0 < p.1
  past : ∀ T ∈ m.suspends, T ≤ m.clock

/-- And the time of the last suspend is kept, for a second at least. -/
structure Tracked (s : Process) (m : Watch) : Prop extends Named s m where
  spaced : ∀ T ∈ m.suspends, T ≤ s.lastSuspendTime ∨ T + gTimeSpanSecond ≤ m.clock

/-- And the timer runs ten seconds from the last suspend on. -/
structure Armed (s : Process) (m : Watch) : Prop extends Tracked s m where
  armed : ∀ T ∈ m.suspends, ∀ p ∈ m.sources, T + 10000000 ≤ p.2

theorem stable_named : Proc.Stable time Named := by
  intro s m m' hm h
  obtain ⟨hm', hle⟩ := hm
  rw [hm']
  refine ⟨h.handle, fun T hT => ?_⟩
  calc T ≤ m.clock := h.past T hT
    _ ≤ m'.clock := hle

theorem stable_tracked : Proc.Stable time Tracked := by
  intro s m m' hm h
  refine ⟨stable_named s m m' hm h.toNamed, ?_⟩
  obtain ⟨hm', hle⟩ := hm
  rw [hm']
  intro T hT
  obtain ht | ht := h.spaced T hT
  · exact .inl ht
  · right
    calc T + gTimeSpanSecond ≤ m.clock := ht
      _ ≤ m'.clock := hle

theorem stable_armed : Proc.Stable time Armed := by
  intro s m m' hm h
  refine ⟨stable_tracked s m m' hm h.toTracked, ?_⟩
  rw [hm.1]
  exact h.armed

/-! What an act does to the watch. -/

def isTimerAct : Act → Bool
  | .timeoutAdd _ => true
  | .sourceRemove _ => true
  | _ => false

theorem answer_eq {a : Act} (ht : isTimerAct a = false) (hs : isSuspendAct a = false)
    {m m' : Watch} {r : Ans a} (h : time.answer m ⟨a, r⟩ = some m') : m' = m := by
  cases a with
  | timeoutAdd interval => cases ht
  | sourceRemove id => cases ht
  | getMonotonicTime => exact (Option.some.inj (Option.ite_none_right_eq_some.mp h).2).symm
  | _ =>
    simp only [time, Watch.answer, hs, Bool.false_eq_true, if_false, List.append_nil,
      Option.some.injEq] at h
    exact h.symm

theorem answer_suspend {a : Act} (hs : isSuspendAct a = true) {m m' : Watch} {r : Ans a}
    (h : time.answer m ⟨a, r⟩ = some m') : m' = { m with suspends := m.suspends ++ [m.clock] } := by
  cases a with
  | system command =>
    simp only [time, Watch.answer, hs, if_true, Option.some.injEq] at h
    exact h.symm
  | write fd text =>
    simp only [time, Watch.answer, hs, if_true, Option.some.injEq] at h
    exact h.symm
  | _ => cases hs

/-- Acts that have to do with neither the timer nor a suspend. -/
def isUntimed (a : Act) : Bool := !isTimerAct a && !beginsSuspend a

theorem isUntimed_iff {a : Act} :
    isUntimed a = true ↔ isTimerAct a = false ∧ beginsSuspend a = false := by
  simp [isUntimed]

theorem begins_of_isSuspendAct {a : Act} (h : isSuspendAct a = true) : beginsSuspend a = true := by
  cases a with
  | testExecutable file => cases h
  | _ => exact h

theorem permits_untimed {a : Act} (ha : isUntimed a = true) (m : Watch) : m.Permits a := by
  obtain ⟨ht, hb⟩ := isUntimed_iff.mp ha
  constructor
  · intro interval he
    rw [he] at ht
    cases ht
  · intro hb'
    rw [hb] at hb'
    cases hb'

theorem answer_untimed {a : Act} (ha : isUntimed a = true) {m m' : Watch} {r : Ans a}
    (h : time.answer m ⟨a, r⟩ = some m') : m' = m := by
  obtain ⟨ht, hb⟩ := isUntimed_iff.mp ha
  have hs : isSuspendAct a = false := by
    cases hs : isSuspendAct a with
    | false => rfl
    | true => exact absurd (begins_of_isSuspendAct hs) (Bool.eq_false_iff.mp hb)
  exact answer_eq ht hs h

/-! What the pieces of a callback keep. -/

section Guards
variable {J J' : Process → Watch → Prop} {K : Halt → Prop} {α : Type}

theorem guards_untimed (hJ : Proc.Stable time J) {a : Act} (ha : isUntimed a = true) :
    Proc.Guards time J J K (act a) := by
  apply Proc.Guards.act hJ
  · intro s m _
    exact permits_untimed ha m
  · intro s m r m' h hr
    rwa [answer_untimed ha hr]

theorem guards_footprint (hJ : Proc.Stable time J) {allowed : Act → Bool}
    {changes : Process → Process → Prop} {x : ShimM α} (hx : Proc.Footprint allowed changes x)
    (ha : ∀ a, allowed a = true → isUntimed a = true)
    (hc : ∀ s s' m, changes s s' → J s m → J s' m) : Proc.Guards time J J K x := by
  apply Proc.Guards.of_footprint hx hJ hc
  · intro s m a hal _
    exact permits_untimed (ha a hal) m
  · intro s m a r m' hal h hr
    rwa [answer_untimed (ha a hal) hr]

/-- With no source attached, one is, and the handle names it. -/
theorem safe_setTimer {s : Process} {m : Watch} (h : Tracked s m) (hempty : m.sources = []) :
    Proc.safe time (act (.timeoutAdd 10000) >>= fun id =>
      modify (fun s => { s with inactivityTimeout := id })) s m (Proc.Settles Armed K) := by
  rw [act, Proc.safe_act_bind]
  intro m₁ h₁
  have ht₁ := stable_tracked s m m₁ h₁ h
  have hempty₁ : m₁.sources = [] := by
    rw [h₁.1]
    exact hempty
  refine ⟨⟨fun _ he => ⟨(Act.timeoutAdd.inj he).symm, hempty₁⟩, fun hb => by cases hb⟩, ?_⟩
  intro id m₂ h₂
  obtain ⟨hid, h₂⟩ := Option.ite_none_right_eq_some.mp h₂
  obtain rfl := Option.some.inj h₂
  rw [Proc.safe_modify]
  intro m₃ h₃
  refine stable_armed _ _ m₃ h₃ ⟨⟨⟨?_, ht₁.past⟩, ht₁.spaced⟩, ?_⟩
  · intro p hp
    rw [hempty₁, List.nil_append, List.mem_singleton] at hp
    rw [hp]
    exact ⟨rfl, hid⟩
  · intro T hT p hp
    rw [hempty₁, List.nil_append, List.mem_singleton] at hp
    have hpast := ht₁.past T hT
    rw [hp]
    show T + 10000000 ≤ m₁.clock + 1000 * (10000 : Nat)
    omega

/-- The one source there can be is removed, and another attached. -/
theorem guards_hadActivity : Proc.Guards time Tracked Armed K hadActivity := by
  intro s m h
  unfold hadActivity
  rw [Proc.safe_get_bind]
  unfold removeTimeout
  split
  · rw [act, Proc.safe_act_bind]
    intro m₁ h₁
    have ht₁ := stable_tracked s m m₁ h₁ h
    refine ⟨⟨fun _ he => (by cases he), fun hb => (by cases hb)⟩, ?_⟩
    intro _ m₂ h₂
    obtain rfl := Option.some.inj h₂
    refine safe_setTimer ⟨⟨?_, ht₁.past⟩, ht₁.spaced⟩ ?_
    · intro p hp
      exact ht₁.handle p (List.mem_of_mem_filter hp)
    · -- the handle names every source
      rw [List.filter_eq_nil_iff]
      intro p hp
      simpa using (ht₁.handle p hp).1
  · apply safe_setTimer h
    rw [List.eq_nil_iff_forall_not_mem]
    intro p hp
    obtain ⟨hid, hpos⟩ := h.handle p hp
    omega

/-! The debounce of suspends. -/

/-- All suspends so far have been over for a second. -/
def Due (m : Watch) : Prop := ∀ T ∈ m.suspends, T + gTimeSpanSecond ≤ m.clock

theorem Due.moves {m m' : Watch} (h : Due m) (hm : m.Moves m') : Due m' := by
  intro T hT
  rw [hm.1] at hT
  calc T + gTimeSpanSecond ≤ m.clock := h T hT
    _ ≤ m'.clock := hm.2

theorem Due.permits {m : Watch} (h : Due m) {a : Act} (ha : beginsSuspend a = true) :
    m.Permits a := by
  refine ⟨?_, fun _ => h⟩
  intro interval he
  rw [he] at ha
  cases ha

/-- A suspend ends now. -/
theorem named_suspended {s : Process} {m : Watch} (h : Named s m) :
    Named s { m with suspends := m.suspends ++ [m.clock] } := by
  refine ⟨h.handle, fun T hT => ?_⟩
  obtain hT | hT := List.mem_append.mp hT
  · exact h.past T hT
  · obtain rfl := List.mem_singleton.mp hT
    exact Int.le_refl _

section Binds
variable {s : Process} {m : Watch} {Q : Except Halt (α × Process) → Watch → Prop}

theorem safe_untimed {a : Act} {f : Ans a → ShimM α} (ha : isUntimed a = true)
    (h : ∀ r m', m.Moves m' → (f r).safe time s m' Q) : (act a >>= f).safe time s m Q := by
  intro m₁ h₁
  refine ⟨permits_untimed ha m₁, fun r m₂ h₂ => ?_⟩
  obtain rfl := answer_untimed ha h₂
  exact h r m₂ h₁

theorem safe_clock {f : Int → ShimM α} (h : ∀ m', m.Moves m' → (f m'.clock).safe time s m' Q) :
    (act .getMonotonicTime >>= f).safe time s m Q := by
  intro m₁ h₁
  refine ⟨permits_untimed rfl m₁, fun now m₂ h₂ => ?_⟩
  obtain ⟨(hnow : now = m₁.clock), hm⟩ := Option.ite_none_right_eq_some.mp h₂
  obtain rfl := Option.some.inj hm
  rw [hnow]
  exact h m₁ h₁

theorem safe_testSuspend {f : Bool → ShimM α} (hd : Due m)
    (h : ∀ b m', m.Moves m' → (f b).safe time s m' Q) :
    (act (.testExecutable (powerCmds .suspend)) >>= f).safe time s m Q := by
  intro m₁ h₁
  refine ⟨(hd.moves h₁).permits rfl, fun b m₂ h₂ => ?_⟩
  obtain rfl := answer_eq rfl rfl h₂
  exact h b m₂ h₁

theorem safe_suspend {a : Act} {f : Ans a → ShimM α} (ha : isSuspendAct a = true) (hd : Due m)
    (h : ∀ r m', m.Moves m' →
      (f r).safe time s { m' with suspends := m'.suspends ++ [m'.clock] } Q) :
    (act a >>= f).safe time s m Q := by
  intro m₁ h₁
  refine ⟨(hd.moves h₁).permits (begins_of_isSuspendAct ha), fun r m₂ h₂ => ?_⟩
  obtain rfl := answer_suspend ha h₂
  exact h r m₁ h₁

end Binds

/-- The suspend itself: if it is not given up, the clock has yet to be read. -/
theorem safe_performSleep {s : Process} {m : Watch} (h : Tracked s m) (hd : Due m) :
    Proc.safe time (performSleep .suspend) s m (fun o m' => ∃ slept s', o = .ok (slept, s') ∧
      Named s' m' ∧ (slept = false → Tracked s' m')) := by
  unfold performSleep
  apply safe_testSuspend hd
  intro b m₁ h₁
  have ht₁ := stable_tracked s m m₁ h₁ h
  have hd₁ := hd.moves h₁
  split
  · -- by the suspend command
    apply safe_suspend rfl hd₁
    intro _ m₂ h₂
    have hn₂ := named_suspended (stable_named s m₁ m₂ h₂ ht₁.toNamed)
    rw [Proc.safe_pure]
    intro m₃ h₃
    exact ⟨true, s, rfl, stable_named s _ m₃ h₃ hn₂, nofun⟩
  · -- by the kernel's file
    apply safe_untimed rfl
    intro fd m₂ h₂
    have ht₂ := stable_tracked s m₁ m₂ h₂ ht₁
    split
    · rw [Proc.safe_pure]
      intro m₃ h₃
      have ht₃ := stable_tracked s m₂ m₃ h₃ ht₂
      exact ⟨false, s, rfl, ht₃.toNamed, fun _ => ht₃⟩
    · apply safe_suspend rfl (hd₁.moves h₂)
      intro _ m₃ h₃
      have hn₃ := named_suspended (stable_named s m₂ m₃ h₃ ht₂.toNamed)
      apply safe_untimed rfl
      intro _ m₄ h₄
      have hn₄ := stable_named s _ m₄ h₄ hn₃
      rw [Proc.safe_pure]
      intro m₅ h₅
      exact ⟨true, s, rfl, stable_named s m₄ m₅ h₅ hn₄, nofun⟩

/-- The debounce lets a suspend begin only when the last one is long over. -/
theorem safe_suspendedJustNow {s : Process} {m : Watch} (h : Tracked s m) :
    Proc.safe time (suspendedJustNow .suspend) s m (fun o m' => ∃ b s', o = .ok (b, s') ∧
      Tracked s' m' ∧ (b = false → Due m')) := by
  unfold suspendedJustNow
  rw [if_pos rfl, Proc.safe_get_bind]
  apply safe_clock
  intro m₁ h₁
  have ht₁ := stable_tracked s m m₁ h₁ h
  rw [Proc.safe_pure]
  intro m₂ h₂
  refine ⟨_, s, rfl, stable_tracked s m₁ m₂ h₂ ht₁, fun hb => ?_⟩
  have hlast : s.lastSuspendTime + gTimeSpanSecond ≤ m₁.clock :=
    Int.not_lt.mp (of_decide_eq_false hb)
  have hdue : Due m₁ := by
    intro T hT
    obtain hle | hle := ht₁.spaced T hT
    · omega
    · exact hle
  exact hdue.moves h₂

/-- After a suspend the clock is read: from then on the debounce knows of it. -/
theorem safe_keepSuspendTime {s : Process} {m : Watch} (h : Named s m) :
    Proc.safe time (act .getMonotonicTime >>= fun now =>
      modify (fun s => { s with lastSuspendTime := now })) s m (Proc.Settles Tracked K) := by
  apply safe_clock
  intro m₁ h₁
  have hn₁ := stable_named s m m₁ h₁ h
  rw [Proc.safe_modify]
  intro m₂ h₂
  apply stable_tracked _ m₁ m₂ h₂
  exact ⟨⟨hn₁.handle, hn₁.past⟩, fun T hT => .inl (hn₁.past T hT)⟩

theorem guards_suspend : Proc.Guards time Tracked Tracked K (powerUnitStart .suspend) := by
  have hgiveUp : Proc.Guards time Tracked Tracked K (pure ()) := .pure stable_tracked ()
  intro s m h
  unfold powerUnitStart
  rw [if_neg (by decide), Proc.safe_get_bind]
  split
  · exact hgiveUp s m h
  · apply Proc.safe_seq_ok (safe_suspendedJustNow h)
    intro b s₁ m₁ h₁
    obtain ⟨ht₁, hd₁⟩ := h₁
    cases b with
    | true => exact hgiveUp s₁ m₁ ht₁
    | false =>
      apply Proc.safe_seq_ok (safe_performSleep ht₁ (hd₁ rfl))
      intro slept s₂ m₂ h₂
      obtain ⟨hn₂, ht₂⟩ := h₂
      cases slept with
      | true => exact safe_keepSuspendTime hn₂
      | false => exact hgiveUp s₂ m₂ (ht₂ rfl)

theorem guards_hibernate : Proc.Guards time Tracked Tracked K (powerUnitStart .hibernate) := by
  have hsleep : Proc.Guards time Tracked Tracked K (performSleep .hibernate) := by
    refine .bind (guards_untimed stable_tracked rfl) (fun b => .ite ?_ ?_)
    · exact .bind (guards_untimed stable_tracked rfl) (fun _ => .pure stable_tracked _)
    · refine .bind (guards_untimed stable_tracked rfl) (fun fd => .ite (.pure stable_tracked _) ?_)
      exact .bind (guards_untimed stable_tracked rfl) (fun _ =>
        .bind (guards_untimed stable_tracked rfl) (fun _ => .pure stable_tracked _))
  intro s m h
  unfold powerUnitStart
  rw [if_neg (by decide), Proc.safe_get_bind]
  split
  · exact Proc.Guards.pure stable_tracked () s m h
  · refine Proc.Guards.bind (.pure stable_tracked false) (fun _ => ?_) s m h
    exact .ite (.pure stable_tracked ()) (.bind hsleep (fun _ =>
      .ite (.pure stable_tracked ()) (.pure stable_tracked ())))

theorem guards_shutdown {action : PowerAction} (h : action = .off ∨ action = .reboot) :
    Proc.Guards time Tracked Tracked K (powerUnitStart action) := by
  have hcmd : isUntimed (.system (powerCmds action)) = true := by
    obtain rfl | rfl := h
    · rfl
    · rfl
  unfold powerUnitStart
  rw [if_pos h]
  exact .bind (.modify stable_tracked (fun _ _ h => ⟨⟨h.handle, h.past⟩, h.spaced⟩)) (fun _ =>
    .bind (guards_untimed stable_tracked rfl) (fun _ =>
      .bind (guards_untimed stable_tracked rfl) (fun _ =>
        .bind (guards_untimed stable_tracked hcmd) (fun _ => .pure stable_tracked ()))))

theorem guards_powerUnitStart (action : PowerAction) :
    Proc.Guards time Tracked Tracked K (powerUnitStart action) := by
  cases action with
  | off => exact guards_shutdown (.inl rfl)
  | reboot => exact guards_shutdown (.inr rfl)
  | suspend => exact guards_suspend
  | hibernate => exact guards_hibernate

/-! Requests as a whole. -/

theorem isUntimed_of_isInquiry {a : Act} (h : isInquiry a = true) : isUntimed a = true := by
  cases a <;> first | rfl | cases h

theorem isUntimed_of_isCgroupAct {a : Act} (h : isCgroupAct a = true) : isUntimed a = true := by
  cases a <;> first | rfl | cases h

theorem closed_guards (hJ : Proc.Stable time J) (hF : ∀ s f m, J s m → J (s.setFiles f) m)
    (hA : Proc.Guards time J J K hadActivity) (hK : ∀ h, (∀ status, h ≠ .exit status) → K h) :
    Closed (fun _ x => Proc.Guards time J J K x) where
  pure := .pure hJ
  bind := .bind
  halt h := .halt (hK _ h)
  inquiry hx := guards_footprint hJ hx (fun _ => isUntimed_of_isInquiry)
    (fun s s' m hs h => by rw [hs]; exact h)
  hadActivity := hA
  cgroup hx := guards_footprint hJ hx (fun _ => isUntimed_of_isCgroupAct)
    (fun s s' m hs h => by rw [hs]; exact hF s s'.files m h)
  returnValue _ := guards_untimed hJ rfl
  returnGError _ := guards_untimed hJ rfl
  emitSignal _ _ _ := guards_untimed hJ rfl

theorem closed_tracked (hK : ∀ h, (∀ status, h ≠ .exit status) → K h) :
    Closed (fun _ x => Proc.Guards time Tracked Tracked K x) :=
  closed_guards stable_tracked (fun _ _ _ h => ⟨⟨h.handle, h.past⟩, h.spaced⟩)
    (guards_hadActivity.weaken (fun _ _ h => h) (fun _ _ h => h.toTracked)) hK

theorem closed_armed (hK : ∀ h, (∀ status, h ≠ .exit status) → K h) :
    Closed (fun _ x => Proc.Guards time Armed Armed K x) :=
  closed_guards stable_armed (fun _ _ _ h => ⟨⟨⟨h.handle, h.past⟩, h.spaced⟩, h.armed⟩)
    (guards_hadActivity.weaken (fun _ _ h => h.toTracked) (fun _ _ h => h)) hK

/-- Whatever is asked, the timer is left to run ten seconds from the last
suspend on, and no suspend begins within a second of the one before. -/
theorem guards_handle (hK : ∀ h, (∀ status, h ≠ .exit status) → K h) (systemdVersion : Nat)
    (r : Request) : Proc.Guards time Armed Armed K (r.handle systemdVersion) := by
  cases r with
  | manager sender methodName parameters =>
    -- a suspend leaves an older timer running, until hadActivity is called
    have hswitch : ∀ usingNtp, Proc.Guards time Tracked Tracked K (ntpUnitSwitch usingNtp) :=
      fun usingNtp => (closed_tracked hK).inquiry (.ntpUnitSwitch usingNtp)
    have hbranch := (closed_tracked hK).pieces.shimMethodBranch sender methodName parameters
      (fun action _ => guards_powerUnitStart action) (fun usingNtp _ => hswitch usingNtp)
    exact .bind (hbranch.weaken (fun _ _ h => h.toTracked) (fun _ _ h => h)) (fun error =>
      .bind ((closed_tracked hK).pieces.returnIfError error) (fun _ => guards_hadActivity))
  | _ => exact (closed_armed hK).handle _ (fun _ _ _ h => by cases h)

end Guards
end Shim
