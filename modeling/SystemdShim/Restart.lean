import SystemdShim.Service

/- Restarts. An idle process exits and a new one takes over with nothing but
   the state file. `latestStart` is what the recorded state stands for: one
   map from units to paths that no restart touches, set by a start to the path
   it computes and cleared by a stop or an abandon. `service_refines` relates
   the two stores of the process, the lazily loaded key file and the file on
   disk, to that map over every run; `acts_on_latest_start` reads off which
   cgroup a stop or an abandon works on. -/
namespace Shim
open Effects

inductive ServiceStep where
  | call (c : Call) (t : ShimTrace)
  | restart

def serviceStep (s : Process) : ServiceStep → Option Process
  | .call c t => callStep s (c, t)
  | .restart => some s.restart

/-- Where the latest start of each unit put it, if nothing has stopped or
abandoned the unit since. -/
def latestStart (m : Bytes → Option Bytes) : ServiceStep → Bytes → Option Bytes
  | .restart => m
  | .call c _ => match c.op with
    | none => m
    | some (.start unit path _ _) => Function.update m unit (some path)
    | some (.stop unit) => Function.update m unit none
    | some (.abandon unit) => Function.update m unit none

/-- Every start is of a unit whose name the key file accepts. -/
def NamesAccepted (c : Call) : Prop :=
  ∀ unit path uid pids, c.op = some (.start unit path uid pids) → gKeyFileIsGroupName unit = true

/-- Every save succeeds. -/
def SavesSucceed (t : ShimTrace) : Prop :=
  ∀ kf, (⟨.saveToFile kf, false⟩ : Event Ans) ∉ t

/-- A step of a run with no rejected name and no failing save. -/
def Orderly : ServiceStep → Prop
  | .call c t => NamesAccepted c ∧ SavesSucceed t
  | .restart => True

/-- Memory and disk hold the same key file, as far as memory holds one. -/
def Files.Synced (f : Files) : Prop :=
  f.keyFile = none ∨ f.keyFile = some (f.stateFile.getD KeyFile.empty)

theorem Files.Synced.loaded {f : Files} (h : f.Synced) : f.loaded.Synced := by
  right
  rcases h with h | h <;> simp [Files.loaded, Files.store, h]

theorem Files.Synced.stored (f : Files) (kf : KeyFile) : (f.stored kf true).Synced := .inr rfl

/-- With the saves succeeding, memory and disk stay the same. -/
theorem OpSpec.synced {f f' : Files} {op : Option UnitOp} {t : ShimTrace} (h : OpSpec f op t f')
    (hs : SavesSucceed t) (hf : f.Synced) : f'.Synced := by
  have stored : ∀ kf tc b, t = tc ++ [⟨.saveToFile kf, b⟩] → (f.stored kf b).Synced := by
    intro kf tc b ht
    subst ht
    cases b with
    | true => exact .stored f kf
    | false => exact absurd (by simp) (hs kf)
  have release : ∀ unit, op = some (.stop unit) ∨ op = some (.abandon unit) → f'.Synced := by
    intro unit hop
    obtain ⟨-, -, rfl⟩ | ⟨path, tc, b, -, ht, rfl⟩ := h.release hop
    · exact hf.loaded
    · exact stored _ tc b ht
  rcases op with _ | ⟨unit, path, uid, pids⟩ | unit | unit
  · rw [h.2]; exact hf
  · obtain ⟨tc, b, -, ht, rfl⟩ := h
    exact stored _ tc b ht
  · exact release unit (.inl rfl)
  · exact release unit (.inr rfl)

/-- A restart keeps the recorded map when the disk was up to date. -/
theorem recorded_restart {s : Process} (h : s.files.Synced) : s.restart.recorded = s.recorded := by
  funext u
  have hst : s.restart.files.store = s.files.store := by
    rcases h with h | h
    · simp only [Files.store, h]; rfl
    · simp only [Files.store, h]; rfl
  simp only [Process.recorded, Files.recorded, hst]

/-- The process and its file stand for the map `m`. -/
def Represents (s : Process) (m : Bytes → Option Bytes) : Prop :=
  s.recorded = m ∧ s.files.Synced

theorem represents_step {s s' : Process} {m : Bytes → Option Bytes} {l : ServiceStep}
    (hr : Represents s m) (ho : Orderly l) (hs : serviceStep s l = some s') :
    Represents s' (latestStart m l) := by
  obtain ⟨rfl, hf⟩ := hr
  cases l with
  | restart =>
    obtain rfl := Option.some.inj hs
    exact ⟨recorded_restart hf, .inl rfl⟩
  | call c t =>
    have hspec := callStep_spec hs
    refine ⟨?_, hspec.synced (fun kf hm => ho.2 kf (List.mem_of_mem_filter hm)) hf⟩
    rw [callStep_recorded hs]
    simp only [latestStart]
    rcases hop : c.op with _ | ⟨unit, path, uid, pids⟩ | unit | unit
    · rfl
    · -- the name is accepted, so the start is recorded
      simp only [applyOp, ho.1 unit path uid pids hop, if_true]
    · rfl
    · rfl

/-- Memory, disk and the abstract map agree after every run. -/
theorem service_refines {ls : List ServiceStep} {s : Process} (ho : ∀ l ∈ ls, Orderly l)
    (h : Runs.run serviceStep bootProcess ls = some s) :
    Represents s (ls.foldl latestStart (fun _ => none)) := by
  revert ho
  refine Runs.run_induct (P := fun ls s => (∀ l ∈ ls, Orderly l) →
    Represents s (ls.foldl latestStart (fun _ => none))) (fun _ => ⟨rfl, .inl rfl⟩) ?_ ls s h
  intro ls s l s' _ ih hl ho
  rw [List.foldl_append]
  exact represents_step (ih (fun l' hl' => ho l' (List.mem_append_left _ hl')))
    (ho l (by simp)) hl

/-- Start and stop agree across restarts: after any run, a stop kills in and
removes exactly the cgroup of the unit's latest start, an abandon prunes it,
and neither reaches cgmanager when there is none. -/
theorem acts_on_latest_start (ls : List ServiceStep) (s s' : Process) (c : Call) (t : ShimTrace)
    (ho : ∀ l ∈ ls, Orderly l) (hrun : Runs.run serviceStep bootProcess ls = some s)
    (hc : callStep s (c, t) = some s') :
    Represents s (ls.foldl latestStart (fun _ => none)) ∧
    (∀ unit, c.op = some (.stop unit) → match ls.foldl latestStart (fun _ => none) unit with
      | none => cgCalls t = []
      | some path => ∃ n ≤ 5, cgCalls t = (List.replicate (n + 1) (roundCalls path)).flatten) ∧
    (∀ unit, c.op = some (.abandon unit) → match ls.foldl latestStart (fun _ => none) unit with
      | none => cgCalls t = []
      | some path => cgCalls t = [.prune (ascii "all") path]) := by
  have hr := service_refines ho hrun
  refine ⟨hr, fun unit hop => ?_, fun unit hop => ?_⟩
  · have := callStep_stop_calls hc hop
    rwa [hr.1] at this
  · have := callStep_abandon_calls hc hop
    rwa [hr.1] at this

/-- A slice started by one process and stopped by the next. -/
theorem acts_on_latest_start_of_a_slice :
    let start := Call.startUnit [] (ascii "a-b.slice") []
    let stop := Call.stopUnit [] (ascii "a-b.slice") []
    let s := (callEnd allGood bootProcess start).restart
    ∃ n ≤ 5, cgCalls (callExec allGood s stop) =
      (List.replicate (n + 1) (roundCalls (ascii "a.slice/a-b.slice"))).flatten := by
  intro start stop s
  have ho : ∀ l ∈ [ServiceStep.call start (callExec allGood bootProcess start), .restart],
      Orderly l := by
    intro l hl
    simp only [List.mem_cons, List.not_mem_nil, or_false] at hl
    rcases hl with rfl | rfl
    · refine ⟨fun unit path uid pids h => ?_, fun kf hm => ?_⟩
      · have : start.op =
            some (.start (ascii "a-b.slice") (ascii "a.slice/a-b.slice") (-1) []) := by decide
        rw [this] at h
        obtain ⟨rfl, -, -, -⟩ := UnitOp.start.inj (Option.some.inj h)
        decide
      · exact absurd (Prog.mem_exec hm) Bool.false_ne_true
    · trivial
  have hrun : Runs.run serviceStep bootProcess
      [.call start (callExec allGood bootProcess start), .restart] = some s := by
    simp only [Runs.run, serviceStep, callStep_exec]
    rfl
  exact (acts_on_latest_start _ s _ stop _ ho hrun (callStep_exec allGood s stop)).2.1
    (ascii "a-b.slice") (by decide)

end Shim
