import SystemdShim.Calls
import SystemdShim.Lib.Machine

/- The service as its callers see it: a run is a list of handled calls, each
   with the trace of its handling, from a process that found no state file.
   `OpSpec` decides what a step does to the recorded map and which calls reach
   cgmanager. -/
namespace Shim
open Effects

/-- The handling of a call along a trace. -/
def callStep (s : Process) (l : Call × ShimTrace) : Option Process :=
  match ((l.1.handle).run s).replay l.2 with
  | some (.ok (_, s')) => some s'
  | _ => none

/-- The first process, with no state file. -/
def bootProcess : Process := {}

theorem callStep_spec {s s' : Process} {c : Call} {t : ShimTrace}
    (h : callStep s (c, t) = some s') : OpSpec s.files c.op (core t) s'.files := by
  unfold callStep at h
  split at h
  · rename_i a s₁ hr
    obtain rfl := Option.some.inj h
    obtain ⟨_, _, ho, hs⟩ := (Prog.wp_iff_replay _ _).mp (handle_spec c s) _ _ hr
    obtain ⟨-, rfl⟩ := Prod.mk.inj (Except.ok.inj ho)
    exact hs
  · cases h

/-- Surroundings in which every act succeeds, every cgroup is empty and no
timer has been armed before. -/
def allGood : (a : Act) → Ans a
  | .cgmanagerCall (.getTasksRecursive _ _) => some []
  | .cgmanagerCall (.create _ _) => some ()
  | .cgmanagerCall (.chown _ _ _ _) => some ()
  | .cgmanagerCall (.movePid _ _ _) => some ()
  | .cgmanagerCall (.setValue _ _ _ _) => some ()
  | .cgmanagerCall (.remove _ _ _) => some ()
  | .cgmanagerCall (.prune _ _) => some ()
  | .saveToFile _ => true
  | .fileSetContents _ _ => true
  | .testExecutable _ => true
  | .testExists _ => true
  | .timeoutAdd _ => (1 : Nat)
  | .getpid => (1 : Nat)
  | .system _ => (0 : Int)
  | .openForWriting _ => (3 : Int)
  | .write _ _ => (3 : Int)
  | .getMonotonicTime => (0 : Int)
  | .spawnSync _ => some (0 : Int)
  | .detectVirtualization => []
  | .kill _ => ()
  | .close _ => ()
  | .rename _ _ => ()
  | .returnValue _ => ()
  | .returnGError _ => ()
  | .emitSignal _ _ _ => ()
  | .sourceRemove _ => ()
  | .flushSync => ()

/-- How `c` is handled in given surroundings. -/
def callExec (ω : (a : Act) → Ans a) (s : Process) (c : Call) : ShimTrace :=
  ((c.handle.run s).exec ω).1

/-- The process it leaves. -/
def callEnd (ω : (a : Act) → Ans a) (s : Process) (c : Call) : Process :=
  match ((c.handle.run s).exec ω).2 with
  | .ok (_, s') => s'
  | .error _ => s

/-- Whatever the surroundings answer, a call is handled to its end. -/
theorem callStep_exec (ω : (a : Act) → Ans a) (s : Process) (c : Call) :
    callStep s (c, callExec ω s c) = some (callEnd ω s c) := by
  have hr := Prog.replay_exec ω (c.handle.run s)
  obtain ⟨a, s', ho, -⟩ := (Prog.wp_iff_replay _ _).mp (handle_spec c s) _ _ hr
  simp only [callStep, callExec, callEnd, hr, ho]

/-- A run of handled calls. -/
abbrev handled (ls : List (Call × ShimTrace)) (s : Process) : Prop :=
  Runs.run callStep bootProcess ls = some s

/-- The calls `cs`, handled one after the other in given surroundings. -/
def execRun (ω : (a : Act) → Ans a) : Process → List Call → List (Call × ShimTrace)
  | _, [] => []
  | s, c :: cs => (c, callExec ω s c) :: execRun ω (callEnd ω s c) cs

def execEnd (ω : (a : Act) → Ans a) (s : Process) (cs : List Call) : Process :=
  cs.foldl (callEnd ω) s

theorem run_exec (ω : (a : Act) → Ans a) (s : Process) (cs : List Call) :
    Runs.run callStep s (execRun ω s cs) = some (execEnd ω s cs) := by
  induction cs generalizing s with
  | nil => rfl
  | cons c cs ih =>
    rw [execRun, Runs.run, callStep_exec]
    exact ih (callEnd ω s c)

/-! The recorded map. -/

/-- What an operation does to the map from units to paths. -/
def applyOp (m : Bytes → Option Bytes) : Option UnitOp → Bytes → Option Bytes
  | none => m
  | some (.start unit path _ _) =>
    if gKeyFileIsGroupName unit then Function.update m unit (some path) else m
  | some (.stop unit) => Function.update m unit none
  | some (.abandon unit) => Function.update m unit none

theorem recorded_setString (f : Files) (unit path : Bytes) (b : Bool) :
    (f.stored (f.store.setString unit (ascii "path") path) b).recorded =
      if gKeyFileIsGroupName unit then Function.update f.recorded unit (some path)
      else f.recorded := by
  funext u
  unfold Files.recorded
  rw [Files.store_stored]
  split <;> rename_i h
  · by_cases hu : u = unit
    · subst hu; rw [KeyFile.getString_setString_self _ h, Function.update_self]
    · rw [KeyFile.getString_setString_of_ne _ hu, Function.update_of_ne hu]
  · rw [KeyFile.setString_rejected _ (by simpa using h)]

theorem recorded_removeGroup (f : Files) (unit : Bytes) (b : Bool) :
    (f.stored (f.store.removeGroup unit) b).recorded = Function.update f.recorded unit none := by
  funext u
  unfold Files.recorded
  rw [Files.store_stored]
  by_cases hu : u = unit
  · subst hu; rw [KeyFile.getString_removeGroup_self, Function.update_self]
  · rw [KeyFile.getString_removeGroup_of_ne _ hu, Function.update_of_ne hu]

theorem update_none_of_none {m : Bytes → Option Bytes} {unit : Bytes} (h : m unit = none) :
    Function.update m unit none = m := by rw [← h, Function.update_eq_self]

theorem OpSpec.recorded {f f' : Files} {op : Option UnitOp} {t : ShimTrace}
    (h : OpSpec f op t f') : f'.recorded = applyOp f.recorded op := by
  have release : ∀ unit, op = some (.stop unit) ∨ op = some (.abandon unit) →
      f'.recorded = Function.update f.recorded unit none := by
    intro unit hop
    obtain ⟨hr, -, rfl⟩ | ⟨path, tc, b, -, -, rfl⟩ := h.release hop
    · exact (update_none_of_none hr).symm
    · exact recorded_removeGroup f unit b
  rcases op with _ | ⟨unit, path, uid, pids⟩ | unit | unit
  · rw [h.2]; rfl
  · obtain ⟨tc, b, -, -, rfl⟩ := h
    exact recorded_setString f unit path b
  · exact release unit (.inl rfl)
  · exact release unit (.inr rfl)

theorem callStep_recorded {s s' : Process} {c : Call} {t : ShimTrace}
    (h : callStep s (c, t) = some s') : s'.recorded = applyOp s.recorded c.op :=
  (callStep_spec h).recorded

/-- An operation on another unit. -/
theorem applyOp_of_ne {m : Bytes → Option Bytes} {op : Option UnitOp} {u : Bytes}
    (h : ∀ o, op = some o → u ≠ o.unit) : applyOp m op u = m u := by
  cases op with
  | none => rfl
  | some o =>
    have hu : u ≠ o.unit := h o rfl
    cases o with
    | start unit path uid pids =>
      rw [applyOp]
      split
      · exact Function.update_of_ne hu _ _
      · rfl
    | stop unit => exact Function.update_of_ne hu _ _
    | abandon unit => exact Function.update_of_ne hu _ _

/-- A recorded path was recorded before, or is the start's. -/
theorem applyOp_some {m : Bytes → Option Bytes} {op : Option UnitOp} {u p : Bytes}
    (h : applyOp m op u = some p) : m u = some p ∨ ∃ uid pids, op = some (.start u p uid pids) := by
  by_cases hother : ∀ o, op = some o → u ≠ o.unit
  · rw [applyOp_of_ne hother] at h
    exact .inl h
  · push Not at hother
    obtain ⟨o, rfl, rfl⟩ := hother
    cases o with
    | start unit path uid pids =>
      rw [applyOp] at h
      split at h
      · simp only [UnitOp.unit, Function.update_self] at h
        obtain rfl := Option.some.inj h
        exact .inr ⟨uid, pids, rfl⟩
      · exact .inl h
    | stop unit =>
      rw [applyOp, UnitOp.unit, Function.update_self] at h
      cases h
    | abandon unit =>
      rw [applyOp, UnitOp.unit, Function.update_self] at h
      cases h

/-! The calls to cgmanager. -/

def asCgCall (e : Event Ans) : Option CgCall :=
  match e.1 with
  | .cgmanagerCall c => some c
  | _ => none

/-- The cgmanager calls of a trace, in order. -/
def cgCalls (t : ShimTrace) : List CgCall := t.filterMap asCgCall

theorem mem_cgCalls {t : ShimTrace} {k : CgCall} :
    k ∈ cgCalls t ↔ ∃ reply, (⟨.cgmanagerCall k, reply⟩ : Event Ans) ∈ t := by
  constructor
  · intro h
    obtain ⟨⟨a, r⟩, he, ha⟩ := List.mem_filterMap.mp h
    cases a with
    | cgmanagerCall c =>
      obtain rfl := Option.some.inj ha
      exact ⟨r, he⟩
    | _ => cases ha
  · intro h
    obtain ⟨reply, he⟩ := h
    exact List.mem_filterMap.mpr ⟨_, he, rfl⟩

theorem cgCalls_append (t t' : ShimTrace) : cgCalls (t ++ t') = cgCalls t ++ cgCalls t' :=
  List.filterMap_append ..

theorem cgCalls_core (t : ShimTrace) : cgCalls (core t) = cgCalls t := by
  unfold cgCalls core
  rw [List.filterMap_filter]
  congr 1
  funext e
  obtain ⟨a, r⟩ := e
  cases a <;> rfl

theorem CallsTrace.cgCalls {cs : List CgCall} {t : ShimTrace} (h : CallsTrace cs t) :
    cgCalls t = cs := by
  induction cs generalizing t with
  | nil =>
    cases t with
    | nil => rfl
    | cons e t => simp [CallsTrace] at h
  | cons c cs ih =>
    cases t with
    | nil => simp [CallsTrace] at h
    | cons e t =>
      simp only [CallsTrace, List.map_cons, List.cons.injEq] at h
      obtain ⟨a, r⟩ := e
      obtain ⟨rfl, h⟩ := h
      exact congrArg (c :: ·) (ih h)

theorem cgCalls_kills (pids : List Int32) :
    cgCalls (pids.map (fun pid => ⟨.kill pid, ()⟩)) = [] := by
  induction pids with
  | nil => rfl
  | cons pid pids ih => exact ih

/-- The calls of one round of cgroup_unit_stop. -/
def roundCalls (path : Bytes) : List CgCall :=
  [.getTasksRecursive (ascii "all") path, .remove (ascii "all") (skipSlash path) 1]

theorem RoundTrace.cgCalls {path : Bytes} {removed : Bool} {t : ShimTrace}
    (h : RoundTrace path removed t) : cgCalls t = roundCalls path := by
  obtain ⟨tasks, reply, rfl, -⟩ := h
  rw [List.cons_append, ← List.singleton_append, cgCalls_append, cgCalls_append, cgCalls_kills]
  rfl

/-- The reply that tells cgroup_unit_stop that the cgroup is gone. -/
def removedEvent (path : Bytes) : Event Ans :=
  ⟨.cgmanagerCall (.remove (ascii "all") path 1), some ()⟩

theorem RoundTrace.removed_iff {path : Bytes} {removed : Bool} {t : ShimTrace}
    (h : RoundTrace path removed t) : removedEvent (skipSlash path) ∈ t ↔ removed = true := by
  obtain ⟨tasks, reply, rfl, rfl⟩ := h
  cases reply with
  | none => simp [removedEvent]
  | some u => simp [removedEvent]

/-- The loop makes whole rounds, one to six of them, and stops short of the
sixth only on a removal. -/
theorem StopTrace.rounds {path : Bytes} {tries : Nat} {t : ShimTrace} (h : StopTrace path tries t) :
    ∃ n ≤ tries, cgCalls t = (List.replicate (n + 1) (roundCalls path)).flatten ∧
      (removedEvent (skipSlash path) ∉ t → n = tries) := by
  induction h with
  | removed h =>
    refine ⟨0, Nat.zero_le _, ?_, fun hn => absurd (h.removed_iff.mpr rfl) hn⟩
    simpa using h.cgCalls
  | givenUp h => exact ⟨0, Nat.le_refl 0, by simpa using h.cgCalls, fun _ => rfl⟩
  | @again tries t t' h _ ih =>
    -- a round that has not removed the cgroup, and the rounds after it
    obtain ⟨n, hn, hc, hr⟩ := ih
    refine ⟨n + 1, by omega, ?_, fun hm => ?_⟩
    · rw [cgCalls_append, h.cgCalls, hc, List.replicate_succ (n := n + 1), List.flatten_cons]
    · rw [hr (fun hm' => hm (List.mem_append_right _ hm'))]

theorem callStep_start_calls {s s' : Process} {c : Call} {t : ShimTrace}
    {unit path : Bytes} {uid : Int} {pids : List UInt32}
    (h : callStep s (c, t) = some s') (hop : c.op = some (.start unit path uid pids)) :
    cgCalls t = createCalls path uid pids := by
  have hs := callStep_spec h
  rw [hop] at hs
  obtain ⟨tc, b, htc, ht, -⟩ := hs
  rw [← cgCalls_core, ht, cgCalls_append, htc.cgCalls]
  exact List.append_nil _

theorem callStep_release_unrecorded {s s' : Process} {c : Call} {t : ShimTrace} {unit : Bytes}
    (h : callStep s (c, t) = some s')
    (hop : c.op = some (.stop unit) ∨ c.op = some (.abandon unit)) (hr : s.recorded unit = none) :
    cgCalls t = [] := by
  obtain ⟨ht, -⟩ := (callStep_spec h).release_idle hop hr
  rw [← cgCalls_core, ht]
  rfl

/-- The cgmanager calls of a stop or an abandon, by the recorded path. -/
theorem callStep_stop_calls {s s' : Process} {c : Call} {t : ShimTrace} {unit : Bytes}
    (h : callStep s (c, t) = some s') (hop : c.op = some (.stop unit)) :
    match s.recorded unit with
    | none => cgCalls t = []
    | some path => ∃ n ≤ 5, cgCalls t = (List.replicate (n + 1) (roundCalls path)).flatten := by
  cases hr : s.recorded unit with
  | none => exact callStep_release_unrecorded h (.inl hop) hr
  | some path =>
    have hs := callStep_spec h
    rw [← cgCalls_core]
    have hf : s.files.recorded unit = some path := hr
    simp only [hop, OpSpec, hf] at hs
    obtain ⟨tc, b, htc, ht, -⟩ := hs
    obtain ⟨n, hn, hc, -⟩ := htc.rounds
    refine ⟨n, hn, ?_⟩
    rw [ht, cgCalls_append, hc]
    exact List.append_nil _

theorem callStep_abandon_calls {s s' : Process} {c : Call} {t : ShimTrace} {unit : Bytes}
    (h : callStep s (c, t) = some s') (hop : c.op = some (.abandon unit)) :
    match s.recorded unit with
    | none => cgCalls t = []
    | some path => cgCalls t = [.prune (ascii "all") path] := by
  cases hr : s.recorded unit with
  | none => exact callStep_release_unrecorded h (.inr hop) hr
  | some path =>
    have hs := callStep_spec h
    rw [← cgCalls_core]
    have hf : s.files.recorded unit = some path := hr
    simp only [hop, OpSpec, hf] at hs
    obtain ⟨tc, b, htc, ht, -⟩ := hs
    show cgCalls (core t) = [.prune (ascii "all") path]
    rw [ht, cgCalls_append, htc.cgCalls]
    rfl

/-- All that a handled call asks of cgmanager. -/
theorem callStep_calls {s s' : Process} {c : Call} {t : ShimTrace} {k : CgCall}
    (h : callStep s (c, t) = some s') (hk : k ∈ cgCalls t) :
    (∃ unit path uid pids, c.op = some (.start unit path uid pids) ∧
      k ∈ createCalls path uid pids) ∨
    (∃ unit path, c.op = some (.stop unit) ∧ s.recorded unit = some path ∧ k ∈ roundCalls path) ∨
    (∃ unit path, c.op = some (.abandon unit) ∧ s.recorded unit = some path ∧
      k = .prune (ascii "all") path) := by
  rcases hop : c.op with _ | ⟨unit, path, uid, pids⟩ | unit | unit
  · have hs := callStep_spec h
    rw [hop] at hs
    rw [← cgCalls_core, hs.1] at hk
    cases hk
  · rw [callStep_start_calls h hop] at hk
    exact .inl ⟨unit, path, uid, pids, rfl, hk⟩
  · have hc := callStep_stop_calls h hop
    cases hr : s.recorded unit with
    | none => rw [hr] at hc; rw [hc] at hk; cases hk
    | some path =>
      rw [hr] at hc
      obtain ⟨n, -, hc⟩ := hc
      rw [hc, List.mem_flatten] at hk
      obtain ⟨l, hl, hk⟩ := hk
      exact .inr (.inl ⟨unit, path, rfl, hr, List.eq_of_mem_replicate hl ▸ hk⟩)
  · have hc := callStep_abandon_calls h hop
    cases hr : s.recorded unit with
    | none => rw [hr] at hc; rw [hc] at hk; cases hk
    | some path =>
      rw [hr] at hc
      rw [hc, List.mem_singleton] at hk
      exact .inr (.inr ⟨unit, path, rfl, hr, hk⟩)

end Shim
