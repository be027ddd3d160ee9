import SystemdShim.Timer

/- The handle of the inactivity timer against the sources that GLib has. Steps
   are calls of had_activity, firings of a source, and starts of power off or
   reboot, in any order. The handle goes stale in one way only: a firing during
   a shutdown returns, GLib removes the source, and nobody resets the handle. -/
namespace Shim
open Effects

structure TimerState where
  process : Process := {}
  /-- the ids of the timeout sources that are attached -/
  attached : List Nat := []
  exited : Bool := false

inductive TimerStep where
  | hadActivity (t : ShimTrace)
  | fire (id : Nat) (t : ShimTrace)
  | start (action : PowerAction) (h : action = .off ∨ action = .reboot) (t : ShimTrace)

namespace TimerStep

def trace : TimerStep → ShimTrace
  | .hadActivity t => t
  | .fire _ t => t
  | .start _ _ t => t

def program : TimerStep → ShimM Unit
  | .hadActivity _ => Shim.hadActivity
  | .fire _ _ => exitOnInactivity
  | .start action _ _ => powerUnitStart action

/-- GLib fires what is attached. -/
def Enabled (s : TimerState) : TimerStep → Prop
  | .fire id _ => id ∈ s.attached
  | _ => True

instance (s : TimerState) (l : TimerStep) : Decidable (l.Enabled s) := by
  cases l <;> unfold Enabled <;> infer_instance

/-- A source whose callback returned FALSE is removed. -/
def leaves (attached : List Nat) : TimerStep → List Nat
  | .fire id _ => attached.filter (· ≠ id)
  | _ => attached

end TimerStep

/-- What an act does to the sources. A new source has an id that no other has;
removing an id that none has does nothing. -/
def sourcesAfter (attached : List Nat) : Event Ans → Option (List Nat)
  | ⟨.timeoutAdd _, id⟩ => if 0 < id ∧ id ∉ attached then some (attached ++ [id]) else none
  | ⟨.sourceRemove id, _⟩ => some (attached.filter (· ≠ id))
  | _ => some attached

def timerStep (s : TimerState) (l : TimerStep) : Option TimerState :=
  if s.exited = false ∧ l.Enabled s then do
    let attached ← l.trace.foldlM sourcesAfter s.attached
    match (l.program.run s.process).replay l.trace with
    | some (.ok (_, p)) => some { process := p, attached := l.leaves attached, exited := false }
    | some (.error _) => some { process := s.process, attached := attached, exited := true }
    | none => none
  else none

/-- The handle is 0 or names a source, and there is no other. -/
structure TimerSound (s : TimerState) : Prop where
  handle : s.process.inactivityTimeout = 0 ∨ s.process.inactivityTimeout ∈ s.attached
  single : s.attached.length ≤ 1

/-- What a step removes is attached. -/
def RemovesAttached (s : TimerState) (l : TimerStep) : Prop :=
  ∀ id reply, (⟨.sourceRemove id, reply⟩ : Event Ans) ∈ l.trace → id ∈ s.attached

/-- exit_on_inactivity is called and returns. -/
def FiresInShutdown (s : TimerState) : TimerStep → Prop
  | .fire _ _ => s.process.inShutdown = true
  | _ => False

/-! What a step does. -/

theorem timerStep_some {s s' : TimerState} {l : TimerStep} (h : timerStep s l = some s') :
    s.exited = false ∧ l.Enabled s ∧ ∃ attached o, l.trace.foldlM sourcesAfter s.attached =
      some attached ∧ (l.program.run s.process).replay l.trace = some o ∧
      ((∃ p, o = .ok ((), p) ∧ s' = ⟨p, l.leaves attached, false⟩) ∨
        (∃ x, o = .error x ∧ s' = ⟨s.process, attached, true⟩)) := by
  unfold timerStep at h
  split at h
  · rename_i hen
    obtain ⟨attached, hatt, h⟩ := Option.bind_eq_some_iff.mp h
    refine ⟨hen.1, hen.2, attached, ?_⟩
    split at h
    · rename_i p hr
      exact ⟨_, hatt, hr, .inl ⟨p, rfl, (Option.some.inj h).symm⟩⟩
    · rename_i x hr
      exact ⟨_, hatt, hr, .inr ⟨x, rfl, (Option.some.inj h).symm⟩⟩
    · cases h
  · cases h

/-- A step has what every run of its program has, whichever way it ends. -/
theorem timerStep_spec {s s' : TimerState} {l : TimerStep}
    {Q : ShimTrace → Except Halt (Unit × Process) → Prop} (h : timerStep s l = some s')
    (hwp : Proc.wp l.program s.process Q) :
    l.Enabled s ∧ ∃ attached, l.trace.foldlM sourcesAfter s.attached = some attached ∧
      ((∃ p, Q l.trace (.ok ((), p)) ∧ s' = ⟨p, l.leaves attached, false⟩) ∨
        (∃ x, Q l.trace (.error x) ∧ s' = ⟨s.process, attached, true⟩)) := by
  obtain ⟨-, hen, attached, o, hatt, hr, hend⟩ := timerStep_some h
  have hQ := (Prog.wp_iff_replay _ _).mp hwp _ _ hr
  refine ⟨hen, attached, hatt, ?_⟩
  obtain ⟨p, rfl, hs'⟩ | ⟨x, rfl, hs'⟩ := hend
  · exact .inl ⟨p, hQ, hs'⟩
  · exact .inr ⟨x, hQ, hs'⟩

/-- The removal in had_activity. -/
def removal (inactivityTimeout : Nat) : ShimTrace :=
  if inactivityTimeout ≠ 0 then [⟨.sourceRemove inactivityTimeout, ()⟩] else []

theorem wp_hadActivity (p : Process) : Proc.wp hadActivity p (fun t o => ∃ id : Nat,
    t = removal p.inactivityTimeout ++ [⟨.timeoutAdd 10000, id⟩] ∧
      o = .ok ((), { p with inactivityTimeout := id })) := by
  unfold hadActivity
  rw [Proc.wp_bind, Proc.wp_get, Proc.andThen_ok]
  unfold removeTimeout removal
  split
  · intro _ id
    exact ⟨id, rfl, rfl⟩
  · intro id
    exact ⟨id, rfl, rfl⟩

theorem sourcesAfter_untouched {t : ShimTrace} (h : ∀ e ∈ t, isTimerAct e.1 = false)
    (attached : List Nat) : t.foldlM sourcesAfter attached = some attached := by
  induction t with
  | nil => rfl
  | cons e t ih =>
    rw [List.forall_mem_cons] at h
    have he : sourcesAfter attached e = some attached := by
      obtain ⟨a, r⟩ := e
      cases a with
      | timeoutAdd interval => cases h.1
      | sourceRemove id => cases h.1
      | _ => rfl
    rw [List.foldlM_cons, he]
    exact ih h.2

/-- In every state there is no source but the one that the handle names. -/
def Tidy (s : TimerState) : Prop :=
  s.attached = [] ∨ s.attached = [s.process.inactivityTimeout] ∧ 0 < s.process.inactivityTimeout

theorem Tidy.single {s : TimerState} (h : Tidy s) : s.attached.length ≤ 1 := by
  obtain h | ⟨h, -⟩ := h
  · rw [h]
    exact Nat.zero_le 1
  · rw [h]
    exact Nat.le_refl 1

theorem Tidy.named {s : TimerState} (h : Tidy s) {id : Nat} (hid : id ∈ s.attached) :
    id = s.process.inactivityTimeout ∧ 0 < id ∧ s.attached.filter (· ≠ id) = [] := by
  obtain h | ⟨h, hpos⟩ := h
  · rw [h] at hid
    cases hid
  · rw [h, List.mem_singleton] at hid
    subst hid
    exact ⟨rfl, hpos, by simp [h]⟩

theorem Tidy.removal {s : TimerState} (h : Tidy s) :
    (removal s.process.inactivityTimeout).foldlM sourcesAfter s.attached = some [] := by
  unfold Shim.removal
  obtain h | ⟨h, hpos⟩ := h
  · rw [h]
    split
    · rfl
    · rfl
  · rw [h, if_pos (by omega)]
    simp [sourcesAfter]

/-- had_activity leaves its own source and no other, and removes what the
handle named. -/
theorem timerStep_hadActivity {s s' : TimerState} {t : ShimTrace} (hI : Tidy s)
    (h : timerStep s (.hadActivity t) = some s') :
    s'.attached = [s'.process.inactivityTimeout] ∧ 0 < s'.process.inactivityTimeout ∧
      ∀ id reply, (⟨.sourceRemove id, reply⟩ : Event Ans) ∈ t →
        id = s.process.inactivityTimeout ∧ 0 < id := by
  obtain ⟨-, attached, hatt, ⟨p, ⟨id, ht, ho⟩, rfl⟩ | ⟨x, ⟨id, -, ho⟩, -⟩⟩ :=
    timerStep_spec h (wp_hadActivity s.process)
  · have ht : t = removal s.process.inactivityTimeout ++ [⟨.timeoutAdd 10000, id⟩] := ht
    have hatt : t.foldlM sourcesAfter s.attached = some attached := hatt
    rw [ht, List.foldlM_append, hI.removal] at hatt
    have hatt : (sourcesAfter [] ⟨.timeoutAdd 10000, id⟩).bind some = some attached := hatt
    rw [Option.bind_fun_some] at hatt
    obtain ⟨⟨hid, -⟩, hatt⟩ := Option.ite_none_right_eq_some.mp hatt
    obtain rfl := Option.some.inj hatt
    obtain ⟨-, rfl⟩ := Prod.mk.inj (Except.ok.inj ho)
    refine ⟨rfl, hid, ?_⟩
    intro id' reply hmem
    rw [ht, List.mem_append, removal] at hmem
    obtain hmem | hmem := hmem
    · split at hmem
      · rename_i hne
        have hact := congrArg Sigma.fst (List.mem_singleton.mp hmem)
        have hid' : id' = s.process.inactivityTimeout := Act.sourceRemove.inj hact
        exact ⟨hid', by omega⟩
      · cases hmem
    · cases List.mem_singleton.mp hmem
  · cases ho

/-- The timer's callback exits, or returns to have its source removed. -/
theorem timerStep_fire {s s' : TimerState} {id : Nat} {t : ShimTrace}
    (h : timerStep s (.fire id t) = some s') :
    id ∈ s.attached ∧ (∀ e ∈ t, isTimerAct e.1 = false) ∧
      ((s.process.inShutdown = true ∧
        s' = ⟨s.process, s.attached.filter (· ≠ id), false⟩) ∨
      (s.process.inShutdown = false ∧ s' = ⟨s.process, s.attached, true⟩)) := by
  obtain ⟨hid, attached, hatt, hend⟩ := timerStep_spec h (wp_exitOnInactivity s.process)
  have hsame : ∀ t', (∀ e ∈ t', isTimerAct e.1 = false) → t = t' →
      attached = s.attached ∧ ∀ e ∈ t, isTimerAct e.1 = false := by
    intro t' ht' he
    subst he
    exact ⟨Option.some.inj (hatt.symm.trans (sourcesAfter_untouched ht' s.attached)), ht'⟩
  obtain ⟨p, ⟨hdown, ht, ho⟩ | ⟨-, -, ho⟩, rfl⟩ | ⟨x, ⟨-, -, ho⟩ | ⟨hup, ht, ho⟩, rfl⟩ := hend
  · obtain ⟨rfl, ht⟩ := hsame [] (List.forall_mem_nil _) ht
    obtain ⟨-, rfl⟩ := Prod.mk.inj (Except.ok.inj ho)
    exact ⟨hid, ht, .inl ⟨hdown, rfl⟩⟩
  · cases ho
  · cases ho
  · obtain ⟨rfl, ht⟩ := hsame [⟨.flushSync, ()⟩] (List.forall_mem_singleton.mpr rfl) ht
    exact ⟨hid, ht, .inr ⟨hup, rfl⟩⟩

/-- A start has nothing to do with the timer. -/
theorem timerStep_start {s s' : TimerState} {action : PowerAction}
    {ha : action = .off ∨ action = .reboot} {t : ShimTrace}
    (h : timerStep s (.start action ha t) = some s') :
    (∀ e ∈ t, isTimerAct e.1 = false) ∧ s'.attached = s.attached ∧
      s'.process.inactivityTimeout = s.process.inactivityTimeout := by
  have hwork := Proc.Footprint.wp (PowerWork.powerUnitStart action)
    (J := fun p => p.inactivityTimeout = s.process.inactivityTimeout) rfl
    (fun p p' hc hp => by rw [hc.1]; exact hp)
  obtain ⟨-, attached, hatt, ⟨p, ⟨_, p', ho, hp', ht⟩, rfl⟩ | ⟨x, ⟨_, p', ho, -⟩, -⟩⟩ :=
    timerStep_spec h hwork
  · have huntouched : ∀ e ∈ t, isTimerAct e.1 = false := by
      intro e he
      have hpower := ht e he
      cases hact : e.1 with
      | timeoutAdd interval =>
        rw [hact] at hpower
        cases hpower
      | sourceRemove id =>
        rw [hact] at hpower
        cases hpower
      | _ => rfl
    have hsame := sourcesAfter_untouched huntouched s.attached
    obtain rfl := Option.some.inj (hsame.symm.trans hatt)
    obtain ⟨-, rfl⟩ := Prod.mk.inj (Except.ok.inj ho)
    exact ⟨huntouched, rfl, hp'⟩
  · cases ho

theorem removesAttached_untouched {s : TimerState} {l : TimerStep}
    (h : ∀ e ∈ l.trace, isTimerAct e.1 = false) : RemovesAttached s l :=
  fun _ _ hmem => by cases h _ hmem

theorem tidy_step {s s' : TimerState} {l : TimerStep} (hI : Tidy s)
    (h : timerStep s l = some s') : Tidy s' := by
  cases l with
  | hadActivity t =>
    obtain ⟨hatt, hpos, -⟩ := timerStep_hadActivity hI h
    exact .inr ⟨hatt, hpos⟩
  | fire id t =>
    obtain ⟨hid, -, ⟨-, rfl⟩ | ⟨-, rfl⟩⟩ := timerStep_fire h
    · exact .inl (hI.named hid).2.2
    · exact hI
  | start action ha t =>
    obtain ⟨-, hatt, hhandle⟩ := timerStep_start h
    unfold Tidy
    rw [hatt, hhandle]
    exact hI

/-- What one step preserves: only a firing that returns makes the handle stale. -/
theorem sound_step {s s' : TimerState} {l : TimerStep} (hI : Tidy s) (hs : TimerSound s)
    (h : timerStep s l = some s') : RemovesAttached s l ∧
      ((s'.exited = false → TimerSound s') ↔ ¬ FiresInShutdown s l) := by
  have hI' := tidy_step hI h
  cases l with
  | hadActivity t =>
    obtain ⟨hatt, -, hremoves⟩ := timerStep_hadActivity hI h
    constructor
    · intro id reply hmem
      obtain ⟨rfl, hpos⟩ := hremoves id reply hmem
      obtain hzero | hmem := hs.handle
      · omega
      · exact hmem
    · refine iff_of_true (fun _ => ⟨.inr ?_, hI'.single⟩) id
      rw [hatt]
      exact List.mem_singleton_self _
  | fire id t =>
    obtain ⟨hid, ht, ⟨hdown, rfl⟩ | ⟨hup, rfl⟩⟩ := timerStep_fire h
    · refine ⟨removesAttached_untouched ht, iff_of_false ?_ (fun hn => hn hdown)⟩
      intro hsound
      obtain ⟨hhandle, hpos, hnone⟩ := hI.named hid
      obtain hzero | hmem := (hsound rfl).handle
      · have hzero : s.process.inactivityTimeout = 0 := hzero
        omega
      · have hmem : s.process.inactivityTimeout ∈ s.attached.filter (· ≠ id) := hmem
        rw [hnone] at hmem
        cases hmem
    · refine ⟨removesAttached_untouched ht, iff_of_true (fun hx => by cases hx) ?_⟩
      intro hdown
      exact absurd (hup.symm.trans hdown) (by decide)
  | start action ha t =>
    obtain ⟨ht, hatt, hhandle⟩ := timerStep_start h
    refine ⟨removesAttached_untouched ht, iff_of_true (fun _ => ⟨?_, hI'.single⟩) id⟩
    rw [hatt, hhandle]
    exact hs.handle

/-- What a run preserves, from a state in which the handle may be stale. -/
theorem sound_run {ls : List TimerStep} {s t : TimerState} (hI : Tidy s)
    (hrun : Runs.run timerStep s ls = some t) :
    ((∀ x ∈ Runs.trail timerStep s ls, TimerSound x.1 ∧ RemovesAttached x.1 x.2) ∧
      (t.exited = false → TimerSound t)) ↔
    (s.exited = false → TimerSound s) ∧
      ∀ x ∈ Runs.trail timerStep s ls, ¬ FiresInShutdown x.1 x.2 := by
  induction ls generalizing s with
  | nil =>
    obtain rfl := Option.some.inj hrun
    simp [Runs.trail]
  | cons l ls ih =>
    rw [Runs.run] at hrun
    obtain ⟨s', hl, hrun⟩ := Option.bind_eq_some_iff.mp hrun
    have hup : s.exited = false := (timerStep_some hl).1
    simp only [Runs.trail, hl, List.forall_mem_cons]
    constructor
    · intro h
      obtain ⟨⟨⟨hs, -⟩, htrail⟩, hend⟩ := h
      obtain ⟨hs', hfires⟩ := (ih (tidy_step hI hl) hrun).mp ⟨htrail, hend⟩
      exact ⟨fun _ => hs, (sound_step hI hs hl).2.mp hs', hfires⟩
    · intro h
      obtain ⟨hs, hl', hfires⟩ := h
      obtain ⟨hremoves, hnext⟩ := sound_step hI (hs hup) hl
      obtain ⟨htrail, hend⟩ := (ih (tidy_step hI hl) hrun).mpr ⟨hnext.mpr hl', hfires⟩
      exact ⟨⟨⟨hs hup, hremoves⟩, htrail⟩, hend⟩

/-- A fresh process, with no sources. -/
def freshTimer (p : Process) : TimerState := { process := p.restart }

theorem sound_fresh (p : Process) : TimerSound (freshTimer p) := ⟨.inl rfl, Nat.zero_le 1⟩

/-- Stale or not, the handle never loses a source: there is at most one. -/
theorem single_run (p : Process) (ls : List TimerStep) (s : TimerState)
    (hrun : Runs.run timerStep (freshTimer p) ls = some s) : s.attached.length ≤ 1 := by
  have hI : Tidy s := Runs.run_invariant (I := Tidy) (.inl rfl)
    (fun _ _ _ hI hl => tidy_step hI hl) ls s hrun
  exact hI.single

/-- Over any run of had_activity, firings and starts of a shutdown, the handle
is 0 or names an attached source in every state, nothing is removed that is not
attached and there is at most one source, if and only if no firing finds the
shutdown under way. -/
theorem timer_sound_iff (p : Process) (ls : List TimerStep) (s : TimerState)
    (hrun : Runs.run timerStep (freshTimer p) ls = some s) :
    ((∀ x ∈ Runs.trail timerStep (freshTimer p) ls,
        TimerSound x.1 ∧ RemovesAttached x.1 x.2) ∧ (s.exited = false → TimerSound s)) ↔
      ∀ x ∈ Runs.trail timerStep (freshTimer p) ls, ¬ FiresInShutdown x.1 x.2 := by
  rw [sound_run (.inl rfl) hrun]
  exact and_iff_right (fun _ => sound_fresh p)

/-- had_activity, as the process sees it with the given handle. -/
def rearm (handle id : Nat) : TimerStep :=
  .hadActivity (removal handle ++ [⟨.timeoutAdd 10000, id⟩])

def startReboot : TimerStep :=
  .start .reboot (.inr rfl) [⟨.getpid, (7 : Nat)⟩,
    ⟨.fileSetContents "/run/sendsigs.omit.d/systemd-shim.pid" (ascii "7"), true⟩,
    ⟨.system "/sbin/reboot", (0 : Int)⟩]

/-- Activity before and after a reboot is asked for. -/
theorem timer_sound_iff_rearmed : ∃ s,
    Runs.run timerStep (freshTimer {}) [rearm 0 1, rearm 1 2, startReboot, rearm 2 3] = some s ∧
      TimerSound s := by
  have hrun : Runs.run timerStep (freshTimer {}) [rearm 0 1, rearm 1 2, startReboot, rearm 2 3] =
      some ⟨{ inShutdown := true, inactivityTimeout := 3 }, [3], false⟩ := rfl
  refine ⟨_, hrun, ((timer_sound_iff {} _ _ hrun).mpr ?_).2 rfl⟩
  iterate 4 refine List.forall_mem_cons.mpr ⟨id, ?_⟩
  exact List.forall_mem_nil _

/-- A firing during a shutdown leaves the handle of a source that is gone, and
the next activity removes it once more. -/
theorem stale_handle_in_shutdown : ¬ ∀ (p : Process) (ls : List TimerStep) (s : TimerState),
    Runs.run timerStep (freshTimer p) ls = some s →
    (∀ x ∈ Runs.trail timerStep (freshTimer p) ls,
      TimerSound x.1 ∧ RemovesAttached x.1 x.2) ∧ (s.exited = false → TimerSound s) := by
  intro h
  have hfired : Runs.run timerStep (freshTimer {}) [rearm 0 1, startReboot, .fire 1 []] =
      some ⟨{ inShutdown := true, inactivityTimeout := 1 }, [], false⟩ := rfl
  have hagain : Runs.run timerStep (freshTimer {}) [rearm 0 1, startReboot, .fire 1 [], rearm 1 2] =
      some ⟨{ inShutdown := true, inactivityTimeout := 2 }, [2], false⟩ := rfl
  have hlast := Runs.mem_trail hfired (rearm 1 2) []
  obtain ⟨-, hremoves⟩ := (h _ _ _ hagain).1 _ hlast
  have hmem : 1 ∈ ([] : List Nat) := hremoves 1 () List.mem_cons_self
  cases hmem

end Shim
