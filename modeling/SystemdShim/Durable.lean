import SystemdShim.Restart

/- The state file when things go wrong: saves that fail, and processes that are
   killed in the middle of a call. GLib writes a key file by a rename, so a save is
   done or not done. What the next process finds is the record as of the last save
   that went through (`records_durable`), and a call that was cut short has either
   left the file as it was or had nothing left to do (`saved_call_is_done`). -/
namespace Shim
open Effects

/-- The key files that a run saves. -/
def saves (t : ShimTrace) : List KeyFile :=
  t.filterMap (fun e => match e with
    | ⟨.saveToFile keyFile, true⟩ => some keyFile
    | _ => none)

@[simp] theorem saves_append (t t' : ShimTrace) : saves (t ++ t') = saves t ++ saves t' :=
  List.filterMap_append ..

/-- The file after a run. -/
def fileAfter (stateFile : Option KeyFile) (t : ShimTrace) : Option KeyFile :=
  (saves t).getLast?.or stateFile

inductive CrashStep where
  /-- a call is handled to its end -/
  | call (c : Call) (t : ShimTrace)
  /-- the process is killed after the acts `t` of a call -/
  | killed (c : Call) (t : ShimTrace)
  /-- the process ends between two calls -/
  | restart

/-- `t` is the beginning of the handling of a call. -/
def begins (s : Process) (c : Call) (t : ShimTrace) : Bool :=
  (t.foldlM Thread.step (Thread.start (c.handle.run s))).isSome

def crashStep (s : Process) : CrashStep → Option Process
  | .call c t => callStep s (c, t)
  | .killed c t => if begins s c t then some { stateFile := fileAfter s.stateFile t } else none
  | .restart => some s.restart

/-- What the process has on record, and what the file has. -/
structure Records where
  memory : Bytes → Option Bytes := fun _ => none
  disk : Bytes → Option Bytes := fun _ => none

/-- The record is the process's own, and goes to disk with every save. -/
def Records.after (m : Records) : CrashStep → Records
  | .call c t =>
    let memory := applyOp m.memory c.op
    { memory := memory, disk := if saves t = [] then m.disk else memory }
  | .killed c t =>
    let disk := if saves t = [] then m.disk else applyOp m.memory c.op
    { memory := disk, disk := disk }
  | .restart => { memory := m.disk, disk := m.disk }

/-! What a call saves. -/

theorem saves_core (t : ShimTrace) : saves (core t) = saves t := by
  unfold saves core
  rw [List.filterMap_filter]
  congr 1
  funext e
  obtain ⟨a, r⟩ := e
  cases a <;> rfl

theorem CallsTrace.saves {cs : List CgCall} {t : ShimTrace} (h : CallsTrace cs t) :
    saves t = [] := by
  apply List.filterMap_eq_nil_iff.mpr
  intro e he
  have hmem : e.1 ∈ cs.map Act.cgmanagerCall := by
    rw [← h]
    exact List.mem_map_of_mem he
  obtain ⟨c, -, hc⟩ := List.mem_map.mp hmem
  obtain ⟨a, r⟩ := e
  obtain rfl : Act.cgmanagerCall c = a := hc
  rfl

theorem RoundTrace.saves {path : Bytes} {removed : Bool} {t : ShimTrace}
    (h : RoundTrace path removed t) : saves t = [] := by
  obtain ⟨tasks, reply, rfl, -⟩ := h
  apply List.filterMap_eq_nil_iff.mpr
  intro e he
  simp only [List.cons_append, List.mem_cons, List.mem_append, List.mem_map,
    List.not_mem_nil, or_false] at he
  obtain rfl | ⟨pid, -, rfl⟩ | rfl := he
  · rfl
  · rfl
  · rfl

theorem StopTrace.saves {path : Bytes} {tries : Nat} {t : ShimTrace} (h : StopTrace path tries t) :
    saves t = [] := by
  induction h with
  | removed h => exact h.saves
  | givenUp h => exact h.saves
  | again h _ ih => rw [saves_append, h.saves, ih, List.append_nil]

/-- An operation saves at the end of its work, if at all. -/
theorem OpSpec.save {f f' : Files} {op : Option UnitOp} {t : ShimTrace} (h : OpSpec f op t f') :
    (saves t = [] ∧ f'.stateFile = f.stateFile) ∨
      ∃ tc keyFile, t = tc ++ [⟨.saveToFile keyFile, true⟩] ∧ saves tc = [] ∧
        f' = ⟨some keyFile, some keyFile⟩ := by
  have stored : ∀ tc keyFile b, saves tc = [] → t = tc ++ [⟨.saveToFile keyFile, b⟩] →
      f' = f.stored keyFile b → (saves t = [] ∧ f'.stateFile = f.stateFile) ∨
        ∃ tc keyFile, t = tc ++ [⟨.saveToFile keyFile, true⟩] ∧ saves tc = [] ∧
          f' = ⟨some keyFile, some keyFile⟩ := by
    intro tc keyFile b htc ht hf
    subst ht hf
    cases b with
    | true => exact .inr ⟨tc, keyFile, rfl, htc, rfl⟩
    | false =>
      refine .inl ⟨?_, rfl⟩
      rw [saves_append, htc]
      rfl
  rcases op with _ | ⟨unit, path, uid, pids⟩ | unit | unit
  · obtain ⟨rfl, rfl⟩ := h
    exact .inl ⟨rfl, rfl⟩
  · obtain ⟨tc, b, htc, ht, hf⟩ := h
    exact stored tc _ b htc.saves ht hf
  · cases hr : f.recorded unit with
    | none =>
      obtain ⟨rfl, rfl⟩ := h.release_idle (.inl rfl) hr
      exact .inl ⟨rfl, rfl⟩
    | some path =>
      simp only [OpSpec, hr] at h
      obtain ⟨tc, b, htc, ht, hf⟩ := h
      exact stored tc _ b htc.saves ht hf
  · cases hr : f.recorded unit with
    | none =>
      obtain ⟨rfl, rfl⟩ := h.release_idle (.inr rfl) hr
      exact .inl ⟨rfl, rfl⟩
    | some path =>
      simp only [OpSpec, hr] at h
      obtain ⟨tc, b, htc, ht, hf⟩ := h
      exact stored tc _ b htc.saves ht hf

/-- What a handled call leaves on disk is what its saves say. -/
theorem callStep_file {s s' : Process} {c : Call} {t : ShimTrace}
    (h : callStep s (c, t) = some s') :
    (saves t = [] ∧ s'.stateFile = s.stateFile) ∨
      ∃ keyFile, saves t = [keyFile] ∧ s'.stateFile = some keyFile ∧ s'.keyFile = some keyFile := by
  obtain ⟨hsaves, hf⟩ | ⟨tc, keyFile, ht, htc, hf⟩ := (callStep_spec h).save
  · exact .inl ⟨(saves_core t).symm.trans hsaves, hf⟩
  · refine .inr ⟨keyFile, ?_, congrArg Files.stateFile hf, congrArg Files.keyFile hf⟩
    rw [← saves_core, ht, saves_append, htc]
    rfl

/-- Every beginning of a call can be brought to its end. -/
theorem completes {s : Process} {c : Call} {t : ShimTrace} (h : begins s c t = true) :
    ∃ t' s', callStep s (c, t ++ t') = some s' := by
  obtain ⟨th, hth⟩ := Option.isSome_iff_exists.mp h
  obtain ⟨t', o, hr⟩ := th.rest.replay_exists
  have hrun : (c.handle.run s).replay (t ++ t') = some o := (Thread.replay_steps hth t').trans hr
  obtain ⟨a, s', rfl, -⟩ := (Prog.wp_iff_replay _ _).mp (handle_spec c s) _ _ hrun
  refine ⟨t', s', ?_⟩
  unfold callStep
  rw [hrun]

/-- What a process finds on disk. -/
def diskRecord (stateFile : Option KeyFile) : Bytes → Option Bytes :=
  Files.recorded ⟨none, stateFile⟩

/-- The process and its file hold these records. -/
def Holding (s : Process) (m : Records) : Prop :=
  s.recorded = m.memory ∧ diskRecord s.stateFile = m.disk

theorem holding_call {s s' : Process} {c : Call} {t : ShimTrace} {m : Records} (hm : Holding s m)
    (h : callStep s (c, t) = some s') : Holding s' (m.after (.call c t)) := by
  obtain ⟨hmemory, hdisk⟩ := hm
  have hrecorded : s'.recorded = applyOp m.memory c.op := by
    rw [← hmemory]
    exact callStep_recorded h
  refine ⟨hrecorded, ?_⟩
  obtain ⟨hsaves, hfile⟩ | ⟨keyFile, hsaves, hfile, hkey⟩ := callStep_file h
  · simp only [Records.after, hsaves, if_true]
    rw [hfile]
    exact hdisk
  · simp only [Records.after, hsaves, if_neg (List.cons_ne_nil _ _), ← hrecorded]
    rw [hfile]
    show diskRecord (some keyFile) = Files.recorded ⟨s'.keyFile, s'.stateFile⟩
    rw [hkey]
    rfl

theorem holding_killed {s : Process} {c : Call} {t : ShimTrace} {m : Records} (hm : Holding s m)
    (h : begins s c t = true) : Holding { stateFile := fileAfter s.stateFile t }
      (m.after (.killed c t)) := by
  have hdisk : ∀ disk, diskRecord (fileAfter s.stateFile t) = disk →
      Holding { stateFile := fileAfter s.stateFile t } ⟨disk, disk⟩ := fun _ hd => ⟨hd, hd⟩
  apply hdisk
  cases hsaves : saves t with
  | nil =>
    unfold fileAfter
    rw [hsaves]
    exact hm.2
  | cons keyFile rest =>
    -- the save is the only one, and what the whole call would leave
    obtain ⟨t', s', hs'⟩ := completes h
    obtain ⟨hnone, -⟩ | ⟨keyFile', hone, hfile, hkey⟩ := callStep_file hs'
    · rw [saves_append, hsaves] at hnone
      cases hnone
    · rw [saves_append, hsaves, List.cons_append] at hone
      obtain ⟨rfl, hrest⟩ := List.cons.inj hone
      obtain ⟨rfl, -⟩ := List.append_eq_nil_iff.mp hrest
      have hrecorded : s'.recorded = applyOp m.memory c.op := by
        rw [← hm.1]
        exact callStep_recorded hs'
      unfold fileAfter
      rw [hsaves, if_neg (List.cons_ne_nil _ _), ← hrecorded]
      show diskRecord (some keyFile) = Files.recorded ⟨s'.keyFile, s'.stateFile⟩
      rw [hkey]
      rfl

theorem holding_step {s s' : Process} {l : CrashStep} {m : Records} (hm : Holding s m)
    (h : crashStep s l = some s') : Holding s' (m.after l) := by
  cases l with
  | call c t => exact holding_call hm h
  | killed c t =>
    obtain ⟨hb, he⟩ := Option.ite_none_right_eq_some.mp h
    obtain rfl := Option.some.inj he
    exact holding_killed hm hb
  | restart =>
    obtain rfl := Option.some.inj h
    exact ⟨hm.2, hm.2⟩

/-- Whatever saves fail and wherever processes are killed, a process has on record
what it started with and did since, and what it starts with is the record as of the
last save that went through. -/
theorem records_durable (ls : List CrashStep) (s : Process)
    (hrun : Runs.run crashStep bootProcess ls = some s) :
    s.recorded = (ls.foldl Records.after {}).memory ∧
      s.restart.recorded = (ls.foldl Records.after {}).disk := by
  have hholding : Holding s (ls.foldl Records.after {}) := by
    refine Runs.run_induct (P := fun ls s => Holding s (ls.foldl Records.after {})) ⟨rfl, rfl⟩ ?_
      ls s hrun
    intro ls s l s' _ ih hl
    rw [List.foldl_append]
    exact holding_step ih hl
  exact hholding

/-- A call that has saved has done all its work: no call to cgmanager, no signal and
no save is left of it. -/
theorem saved_call_is_done (s : Process) (c : Call) (t t' : ShimTrace) (s' : Process)
    (hsaved : saves t ≠ []) (h : callStep s (c, t ++ t') = some s') : core t' = [] := by
  have hspec := (callStep_spec h).save
  rw [core_append] at hspec
  rw [← saves_core] at hsaved
  obtain ⟨hnone, -⟩ | ⟨tc, keyFile, ht, htc, -⟩ := hspec
  · rw [saves_append] at hnone
    exact absurd (List.append_eq_nil_iff.mp hnone).1 hsaved
  · obtain hnil | ⟨rest, e, hrest⟩ := List.eq_nil_or_concat (core t')
    · exact hnil
    · -- the save would be among the acts before the last
      rw [hrest, List.concat_eq_append, ← List.append_assoc] at ht
      obtain ⟨htc', -⟩ := List.append_inj' ht rfl
      rw [← htc', saves_append] at htc
      exact absurd (List.append_eq_nil_iff.mp htc).1 hsaved

/-- The start of a slice, up to the save and after it. -/
theorem saved_call_is_done_slice : core ((callExec allGood bootProcess
    (.startUnit [] (ascii "a.slice") [])).drop 3) = [] :=
  saved_call_is_done bootProcess (.startUnit [] (ascii "a.slice") [])
    ((callExec allGood bootProcess (.startUnit [] (ascii "a.slice") [])).take 3) _
    (callEnd allGood bootProcess (.startUnit [] (ascii "a.slice") [])) (by decide) rfl

/-- A slice is started, and the process is killed in the middle of stopping it, with
the cgroup gone and the save still to come. -/
def killedInStop : List CrashStep :=
  [.call (.startUnit [] (ascii "a.slice") []) (callExec allGood bootProcess
      (.startUnit [] (ascii "a.slice") [])),
    .killed (.stopUnit [] (ascii "a.slice") [])
      [⟨.cgmanagerCall (.getTasksRecursive (ascii "all") (ascii "a.slice")),
          some ([] : List Int32)⟩,
        ⟨.cgmanagerCall (.remove (ascii "all") (ascii "a.slice") 1), some ()⟩]]

theorem records_durable_killed : ∃ s, Runs.run crashStep bootProcess killedInStop = some s ∧
    s.recorded = (killedInStop.foldl Records.after {}).memory ∧
      s.restart.recorded = (killedInStop.foldl Records.after {}).disk :=
  ⟨_, rfl, records_durable killedInStop _ rfl⟩

end Shim
