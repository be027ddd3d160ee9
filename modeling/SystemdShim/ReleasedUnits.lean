import SystemdShim.ReleaseAgent
import SystemdShim.Restart

/- From the release to the forgotten unit. It takes the kernel's event, a run of the
   agent, its StopUnit on the way and the shim's handling of that, amid whatever else
   happens. Where a unit's cgroup has been released, and the unit not been started and
   no StopUnit of the agent's been lost since, the unit is off record, or one of these
   is still to come (`release_not_lost`). A StopUnit is lost when the agent does not
   find the bus, or when the shim exits with it in its queue; then the unit stays on
   record: the runs at the end. -/
namespace Shim
open Effects History

def UnitOp.starts (unit : Bytes) : UnitOp → Bool
  | .start u _ _ _ => u = unit
  | _ => false

/-- A release of the cgroup that the unit's name is on. -/
def Happening.frees (unit : Bytes) : Happening → Bool
  | .released _ cg => gPathGetBasename (kernelPath cg) = unit
  | _ => false

/-- The shim takes up a start of the unit. -/
def Happening.starts (unit : Bytes) : Happening → Bool
  | .began _ c _ => c.op.any (UnitOp.starts unit)
  | _ => false

/-- The agent's StopUnit of the unit goes unhandled. -/
def Happening.loses (unit : Bytes) : Happening → Bool
  | .lost messages => messages.any (fun m => m.1.isSome && m.2.op = some (.stop unit))
  | _ => false

def Happening.failsToSave : Happening → Bool
  | .did ⟨.saveToFile _, false⟩ => true
  | _ => false

/-- The unit's cgroup has been released, and since then the unit not started and no
StopUnit of it lost. -/
def Freed (log : List Happening) (unit : Bytes) : Prop :=
  Since (fun x => x.frees unit = true) (fun x => x.starts unit = false ∧ x.loses unit = false) log

instance (log : List Happening) (unit : Bytes) : Decidable (Freed log unit) :=
  decidableSince ..

def AllSaved (log : List Happening) : Prop := ∀ x ∈ log, x.failsToSave = false

namespace World

/-- A release of the unit's cgroup that no agent has run for, or whose StopUnit the
shim has not taken up. -/
def Awaits (w : World) (unit : Bytes) : Prop :=
  (∃ x ∈ w.kernel.pending, gPathGetBasename (kernelPath x.2) = unit) ∨
    ∃ id cg, (some id, agentCall cg) ∈ w.inFlight ++ w.queue ∧
      gPathGetBasename (kernelPath cg) = unit

/-- The operation that the shim is at. -/
def op (w : World) : Option UnitOp := w.handling.bind (fun h => h.call.op)

end World

/-! Every release that the kernel logs is there for an agent. -/

namespace Kernel

variable {k k' : Kernel} {pid : Int32} {cg : Place}

def Reports (k k' : Kernel) : Prop :=
  ∃ xs, k'.log = k.log ++ xs ∧ k.pending ⊆ k'.pending ∧
    ∀ id cg, .released id cg ∈ xs → (id, cg) ∈ k'.pending

theorem Reports.quiet (hlog : k'.log = k.log) (hpending : k'.pending = k.pending) :
    k.Reports k' :=
  ⟨[], by rw [hlog, List.append_nil], by rw [hpending]; exact List.Subset.refl _, by simp⟩

theorem Reports.refl (k : Kernel) : k.Reports k := .quiet rfl rfl

theorem Reports.trans {k'' : Kernel} (h : k.Reports k') (h' : k'.Reports k'') : k.Reports k'' := by
  obtain ⟨xs, hx, hsub, hrel⟩ := h
  obtain ⟨ys, hy, hsub', hrel'⟩ := h'
  refine ⟨xs ++ ys, by rw [hy, hx, List.append_assoc], List.Subset.trans hsub hsub',
    fun id cg hm => ?_⟩
  exact (List.mem_append.mp hm).elim (fun h => hsub' (hrel id cg h)) (hrel' id cg)

/-- An entry that is no release. -/
theorem Reports.logs {x : Happening} (hlog : k'.log = k.log ++ [x])
    (hpending : k'.pending = k.pending) (hx : ∀ id cg, x ≠ .released id cg) : k.Reports k' :=
  ⟨[x], hlog, by rw [hpending]; exact List.Subset.refl _,
    fun id cg hm => absurd (List.mem_singleton.mp hm).symm (hx id cg)⟩

theorem reports_checkForRelease : k.Reports (k.checkForRelease cg) := by
  unfold checkForRelease
  split
  · refine ⟨[.released k.releases cg], rfl, List.subset_append_left _ _, fun id cg' hm => ?_⟩
    obtain ⟨rfl, rfl⟩ := Happening.released.inj (List.mem_singleton.mp hm)
    exact List.mem_append_right _ (List.mem_singleton_self _)
  · exact .refl k

theorem reports_mkdir : k.Reports (k.mkdir cg) := by
  unfold mkdir
  split
  · exact .refl k
  · exact .quiet rfl rfl

theorem reports_mkdirs : k.Reports (k.mkdirs cg) := by
  unfold mkdirs
  induction cg.inits generalizing k with
  | nil => exact .refl k
  | cons q qs ih => exact reports_mkdir.trans ih

theorem reports_enter : k.Reports (k.enter pid cg) := by
  have hentered : k.Reports
      { k with tasks := k.tasks.insert pid cg, log := k.log ++ [.entered pid cg] } :=
    .logs rfl rfl (fun _ _ h => by cases h)
  unfold enter
  split
  · exact hentered
  · split
    · exact .refl k
    · exact hentered.trans reports_checkForRelease

theorem reports_exit (h : k.exit pid = some k') : k.Reports k' := by
  unfold exit at h
  split at h
  · obtain rfl := Option.some.inj h
    have hexited : k.Reports
        { k with tasks := k.tasks.erase pid, log := k.log ++ [.exited pid] } :=
      .logs rfl rfl (fun _ _ h => by cases h)
    exact hexited.trans reports_checkForRelease
  · cases h

theorem reports_fork {child : Int32} (h : k.fork pid child = some k') : k.Reports k' := by
  unfold fork at h
  split at h
  · obtain rfl := Option.some.inj h
    exact reports_enter
  · cases h

theorem reports_rmdir {recursive : Bool} (h : k.rmdir cg recursive = some k') : k.Reports k' := by
  unfold rmdir at h
  split at h
  · obtain rfl := Option.some.inj h
    have hremoved : k.Reports { k with cgroups := k.cgroups.filter (fun x => !(cg <+: x.1)) } :=
      .quiet rfl rfl
    exact hremoved.trans reports_checkForRelease
  · cases h

theorem reports_answer {e : Event Ans} (h : k.answer e = some k') : k.Reports k' := by
  unfold answer at h
  split at h
  · obtain rfl := Option.some.inj h
    exact reports_mkdirs
  · obtain ⟨-, h⟩ := Option.ite_none_right_eq_some.mp h
    obtain rfl := Option.some.inj h
    exact reports_enter
  · obtain ⟨-, h⟩ := Option.ite_none_right_eq_some.mp h
    split at h
    · obtain rfl := Option.some.inj h
      exact .quiet rfl rfl
    · obtain rfl := Option.some.inj h
      exact .refl k
  · exact reports_rmdir h
  · obtain ⟨-, h⟩ := Option.ite_none_right_eq_some.mp h
    obtain rfl := Option.some.inj h
    exact .refl k
  · obtain rfl := Option.some.inj h
    exact .refl k

end Kernel

/-! The way of a release through the parties. -/

theorem allSaved_append {log xs : List Happening} (h : AllSaved (log ++ xs)) : AllSaved log :=
  fun x hx => h x (List.mem_append_left _ hx)

/-- An entry that frees no unit. -/
theorem freed_snoc {log : List Happening} {x : Happening} {unit : Bytes}
    (hx : x.frees unit = false) (h : Freed (log ++ [x]) unit) :
    Freed log unit ∧ x.starts unit = false ∧ x.loses unit = false :=
  (since_snoc.mp h).resolve_left (fun hf => by rw [hx] at hf; cases hf)

namespace World

/-- Nothing is left to do about the unit: it is off record, and no start of it is
being handled. -/
def Forgotten (w : World) (unit : Bytes) : Prop :=
  w.process.recorded unit = none ∧ w.op.any (UnitOp.starts unit) = false

structure Told (w : World) : Prop where
  inv : w.Inv
  handling : ∀ h, w.handling = some h → h.thread.wp (HandlingSpec w.process h.call) ∧
    ∀ e ∈ h.thread.sofar, .did e ∈ w.kernel.log
  synced : AllSaved w.kernel.log → w.process.files.Synced
  freed : AllSaved w.kernel.log → ∀ unit, isCgroupName unit = true → Freed w.kernel.log unit →
    w.Awaits unit ∨ w.op = some (.stop unit) ∨ w.Forgotten unit

variable {w w' : World} {k : Kernel} {unit : Bytes}

theorem op_agentCall {cg : Place} (hcg : gPathGetBasename (kernelPath cg) = unit)
    (hunit : isCgroupName unit = true) : (agentCall cg).op = some (.stop unit) := by
  show (if isCgroupName _ then _ else _) = _
  rw [hcg, if_pos hunit]

theorem loses_of_mem {ms : List (Option Nat × Call)} {id : Nat} {cg : Place}
    (hm : (some id, agentCall cg) ∈ ms) (hcg : gPathGetBasename (kernelPath cg) = unit)
    (hunit : isCgroupName unit = true) : (Happening.lost ms).loses unit = true := by
  refine List.any_eq_true.mpr ⟨_, hm, ?_⟩
  simp [op_agentCall hcg hunit]

/-- An event is known by its number. -/
theorem pending_unique (hi : w.Inv) {x y : Nat × Place} (hx : x ∈ w.kernel.pending)
    (hy : y ∈ w.kernel.pending) (h : y.1 = x.1) : y.2 = x.2 := by
  obtain ⟨i, hyi⟩ := List.mem_iff_getElem?.mp (hi.kernel.pending y hy)
  obtain ⟨j, hxj⟩ := List.mem_iff_getElem?.mp (hi.kernel.pending x hx)
  rw [h] at hyi
  exact (released_unique hi.kernel.law hyi hxj).2

theorem mem_eraseIdx_of_ne {α : Type} {l : List α} {i : Nat} {a m : α} (hm : l[i]? = some m)
    (ha : a ∈ l) (hne : a ≠ m) : a ∈ l.eraseIdx i := by
  obtain ⟨j, hj⟩ := List.mem_iff_getElem?.mp ha
  refine List.mem_eraseIdx_iff_getElem?.mpr ⟨j, ?_, hj⟩
  intro hji
  exact hne (Option.some.inj ((hji ▸ hj).symm.trans hm))

theorem told_bootWorld : bootWorld.Told where
  inv := inv_bootWorld
  handling := nofun
  synced _ := .inl rfl
  freed _ _ _ h := h.elim

theorem Awaits.mono {w' : World} (h : w.Awaits unit)
    (hpending : w.kernel.pending ⊆ w'.kernel.pending)
    (hmessages : w.inFlight ++ w.queue ⊆ w'.inFlight ++ w'.queue) : w'.Awaits unit := by
  obtain ⟨x, hx, hu⟩ | ⟨id, cg, hm, hu⟩ := h
  · exact .inl ⟨x, hpending hx, hu⟩
  · exact .inr ⟨id, cg, hmessages hm, hu⟩

/-- The kernel goes on, whoever makes it. -/
theorem told_kernel (ht : w.Told) (hk : w.kernel.Reports k)
    (hi : ({ w with kernel := k } : World).Inv) : ({ w with kernel := k } : World).Told := by
  obtain ⟨xs, hlog, hsub, hrel⟩ := hk
  refine ⟨hi, fun h hh => ?_, fun hs => ?_, fun hs unit hu hf => ?_⟩
  · obtain ⟨hwp, hdid⟩ := ht.handling h hh
    exact ⟨hwp, fun e he => hlog ▸ List.mem_append_left _ (hdid e he)⟩
  · rw [hlog] at hs
    exact ht.synced (allSaved_append hs)
  · rw [hlog] at hs hf
    obtain hnew | ⟨hold, -⟩ := since_append.mp hf
    · -- released just now, so there for an agent
      obtain ⟨es, x, es', rfl, hx, -⟩ := since_iff.mp hnew
      cases x with
      | released id cg =>
        exact .inl (.inl ⟨(id, cg), hrel id cg (by simp), of_decide_eq_true hx⟩)
      | _ => cases hx
    · obtain h | h | h := ht.freed (allSaved_append hs) unit hu hold
      · exact .inl (h.mono hsub (List.Subset.refl _))
      · exact .inr (.inl h)
      · exact .inr (.inr h)

theorem told_runKernel {k : Option Kernel} (ht : w.Told) (hi : w'.Inv)
    (hs : w.runKernel k = some w') (h : ∀ k', k = some k' → w.kernel.Reports k') : w'.Told := by
  obtain ⟨k', hk, rfl⟩ := Option.map_eq_some_iff.mp hs
  exact told_kernel ht (h k' hk) hi

theorem subset_sent (m : Option Nat × Call) :
    w.inFlight ++ w.queue ⊆ (w.inFlight ++ [m]) ++ w.queue := by
  intro a ha
  simp only [List.mem_append] at ha ⊢
  exact ha.imp_left .inl

theorem told_send {c : Call} (ht : w.Told) (hs : worldStep w (.send c) = some w') : w'.Told := by
  have hi := inv_worldStep ht.inv hs
  obtain rfl := Option.some.inj hs
  refine ⟨hi, ht.handling, ht.synced, fun hsaved unit hu hf => ?_⟩
  obtain h | h := ht.freed hsaved unit hu hf
  · exact .inl (h.mono (List.Subset.refl _) (subset_sent _))
  · exact .inr h

/-- What was pending is on its way. -/
theorem told_agent {id : Nat} (ht : w.Told) (hs : worldStep w (.agent id) = some w') :
    w'.Told := by
  have hi := inv_worldStep ht.inv hs
  obtain ⟨x, hx, rfl, rfl⟩ := worldStep_agent hs
  refine ⟨hi, ht.handling, ht.synced, fun hsaved unit hu hf => ?_⟩
  obtain (⟨y, hy, hyu⟩ | ⟨id', cg, hm, hyu⟩) | h := ht.freed hsaved unit hu hf
  · by_cases hid : y.1 = x.1
    · exact .inl (.inr ⟨x.1, x.2, by simp, pending_unique ht.inv hx hy hid ▸ hyu⟩)
    · exact .inl (.inl ⟨y, List.mem_filter.mpr ⟨hy, by simpa using hid⟩, hyu⟩)
  · exact .inl (.inr ⟨id', cg, subset_sent _ hm, hyu⟩)
  · exact .inr h

/-- The agent's failure loses the event that it runs for, and no other. -/
theorem told_agentFails {id : Nat} (ht : w.Told) (hs : worldStep w (.agentFails id) = some w') :
    w'.Told := by
  have hi := inv_worldStep ht.inv hs
  obtain ⟨x, hx, rfl, rfl⟩ := worldStep_agentFails hs
  refine ⟨hi, fun h hh => ?_, fun hsaved => ht.synced (allSaved_append hsaved),
    fun hsaved unit hu hf => ?_⟩
  · obtain ⟨hwp, hdid⟩ := ht.handling h hh
    exact ⟨hwp, fun e he => List.mem_append_left _ (hdid e he)⟩
  · obtain ⟨hf, -, hkept⟩ := freed_snoc rfl hf
    obtain (⟨y, hy, hyu⟩ | h) | h := ht.freed (allSaved_append hsaved) unit hu hf
    · have hid : y.1 ≠ x.1 := by
        intro hid
        rw [pending_unique ht.inv hx hy hid] at hyu
        rw [loses_of_mem (List.mem_singleton_self _) hyu hu] at hkept
        cases hkept
      exact .inl (.inl ⟨y, List.mem_filter.mpr ⟨hy, by simpa using hid⟩, hyu⟩)
    · exact .inl (.inr h)
    · exact .inr h

theorem told_deliver {i : Nat} (ht : w.Told) (hs : worldStep w (.deliver i) = some w') :
    w'.Told := by
  have hi := inv_worldStep ht.inv hs
  obtain ⟨m, hm, rfl⟩ := worldStep_deliver hs
  refine ⟨hi, ht.handling, ht.synced, fun hsaved unit hu hf => ?_⟩
  obtain h | h := ht.freed hsaved unit hu hf
  · refine .inl (h.mono (List.Subset.refl _) (fun a ha => ?_))
    obtain ha | ha := List.mem_append.mp ha
    · by_cases hne : a = m
      · simp [hne]
      · exact List.mem_append_left _ (mem_eraseIdx_of_ne hm ha hne)
    · simp [ha]
  · exact .inr h

/-- What was on its way is being handled, or something else is. -/
theorem told_handle {i : Nat} (ht : w.Told) (hs : worldStep w (.handle i) = some w') :
    w'.Told := by
  have hi := inv_worldStep ht.inv hs
  obtain ⟨origin, c, hnone, hm, rfl⟩ := worldStep_handle hs
  refine ⟨hi, fun h hh => ?_, fun hsaved => ht.synced (allSaved_append hsaved),
    fun hsaved unit hu hf => ?_⟩
  · obtain rfl := Option.some.inj hh
    exact ⟨handle_spec c w.process, by simp [Thread.start]⟩
  · obtain ⟨hf, hstart, -⟩ := freed_snoc rfl hf
    obtain (h | ⟨id, cg, hmem, hcg⟩) | hop | ⟨hrec, -⟩ :=
      ht.freed (allSaved_append hsaved) unit hu hf
    · exact .inl (.inl h)
    · by_cases hc : (some id, agentCall cg) = (origin, c)
      · obtain ⟨-, rfl⟩ := Prod.mk.inj hc
        exact .inr (.inl (op_agentCall hcg hu))
      · have hmem := (List.mem_append.mp hmem).imp_right (fun h => mem_eraseIdx_of_ne hm h hc)
        exact .inl (.inr ⟨id, cg, List.mem_append.mpr hmem, hcg⟩)
    · rw [World.op, hnone] at hop
      cases hop
    · exact .inr (.inr ⟨hrec, hstart⟩)

theorem told_act {e : Event Ans} (ht : w.Told) (hs : worldStep w (.act e) = some w') :
    w'.Told := by
  have hi := inv_worldStep ht.inv hs
  simp only [worldStep, Option.bind_eq_bind, Option.bind_eq_some_iff] at hs
  obtain ⟨h, hh, th, hth, k, hk, hs⟩ := hs
  obtain rfl := Option.some.inj hs
  obtain ⟨hwp, hdid⟩ := ht.handling h hh
  have hwp := Thread.wp_step hwp hth
  obtain ⟨_, -, rfl⟩ := Thread.step_cases hth
  have ht' := told_kernel ht (Kernel.reports_answer hk) (inv_kernel ht.inv (Kernel.moves_answer hk))
  refine ⟨hi, fun h' hh' => ?_, fun hsaved => ht'.synced (allSaved_append hsaved),
    fun hsaved unit hu hf => ?_⟩
  · obtain rfl := Option.some.inj hh'
    refine ⟨hwp, fun e' he' => ?_⟩
    rcases List.mem_append.mp he' with he' | he'
    · exact List.mem_append_left _ ((ht'.handling h hh).2 e' he')
    · rw [List.mem_singleton.mp he']
      exact List.mem_append_right _ (List.mem_singleton_self _)
  · obtain ⟨hf, -⟩ := freed_snoc rfl hf
    have hop : w.op = h.call.op := by rw [World.op, hh, Option.bind_some]
    obtain hw | hw | ⟨hrec, hw⟩ := ht'.freed (allSaved_append hsaved) unit hu hf
    · exact .inl hw
    · exact .inr (.inl (hop.symm.trans hw))
    · exact .inr (.inr ⟨hrec, (congrArg (Option.any _) hop).symm.trans hw⟩)

/-- The handling of a StopUnit has put the unit off record, and of anything else that
is no start of it has not put it on. -/
theorem told_finish (ht : w.Told) (hs : worldStep w .finish = some w') : w'.Told := by
  have hi := inv_worldStep ht.inv hs
  simp only [worldStep] at hs
  split at hs
  · rename_i h hh
    split at hs
    · rename_i u p hret
      obtain rfl := Option.some.inj hs
      obtain ⟨hwp, hdid⟩ := ht.handling h hh
      obtain ⟨_, s', he, hspec⟩ := Thread.wp_ret hwp hret
      obtain ⟨-, rfl⟩ := Prod.mk.inj (Except.ok.inj he)
      have hop : w.op = h.call.op := by rw [World.op, hh, Option.bind_some]
      refine ⟨hi, fun h hh => (by cases hh), fun hsaved => ?_, fun hsaved unit hu hf => ?_⟩
      · refine hspec.synced (fun keyFile hm => ?_) (ht.synced hsaved)
        cases hsaved _ (hdid _ (List.mem_of_mem_filter hm))
      · have hrec : p.recorded unit = applyOp w.process.recorded h.call.op unit :=
          congrFun hspec.recorded unit
        obtain hw | hw | ⟨hnone, hw⟩ := ht.freed hsaved unit hu hf
        · exact .inl hw
        · refine .inr (.inr ⟨?_, rfl⟩)
          rw [hrec, ← hop, hw]
          exact Function.update_self ..
        · refine .inr (.inr ⟨?_, rfl⟩)
          cases hp : p.recorded unit with
          | none => rfl
          | some path =>
            obtain hold | ⟨uid, pids, hstart⟩ := applyOp_some (hrec.symm.trans hp)
            · exact hold.symm.trans hnone
            · rw [hop, hstart] at hw
              simp [UnitOp.starts] at hw
    · cases hs
  · cases hs

/-- The exit loses what has been delivered, and nothing that is still under way. -/
theorem told_restart (ht : w.Told) (hs : worldStep w .restart = some w') : w'.Told := by
  have hi := inv_worldStep ht.inv hs
  obtain ⟨hnone, rfl⟩ := worldStep_restart hs
  refine ⟨hi, fun h hh => ?_, fun _ => .inl rfl, fun hsaved unit hu hf => ?_⟩
  · cases hnone.symm.trans hh
  · obtain ⟨hf, -, hkept⟩ := freed_snoc rfl hf
    obtain (hw | ⟨id, cg, hm, hcg⟩) | hw | ⟨hrec, hw⟩ :=
      ht.freed (allSaved_append hsaved) unit hu hf
    · exact .inl (.inl hw)
    · have hflight : (some id, agentCall cg) ∈ w.inFlight := by
        refine (List.mem_append.mp hm).resolve_right (fun hqueue => ?_)
        rw [loses_of_mem hqueue hcg hu] at hkept
        cases hkept
      exact .inl (.inr ⟨id, cg, List.mem_append_left _ hflight, hcg⟩)
    · exact .inr (.inl hw)
    · refine .inr (.inr ⟨?_, hw⟩)
      show w.process.restart.recorded unit = none
      rw [recorded_restart (ht.synced (allSaved_append hsaved))]
      exact hrec

theorem told_worldStep {m : Move} (ht : w.Told) (hs : worldStep w m = some w') : w'.Told := by
  have hi := inv_worldStep ht.inv hs
  cases m with
  | send c => exact told_send ht hs
  | agent id => exact told_agent ht hs
  | agentFails id => exact told_agentFails ht hs
  | deliver i => exact told_deliver ht hs
  | handle i => exact told_handle ht hs
  | act e => exact told_act ht hs
  | finish => exact told_finish ht hs
  | restart => exact told_restart ht hs
  | fork parent child => exact told_runKernel ht hi hs (fun _ => Kernel.reports_fork)
  | exit pid => exact told_runKernel ht hi hs (fun _ => Kernel.reports_exit)
  | enter pid cg =>
    refine told_runKernel ht hi hs (fun k' h => ?_)
    obtain ⟨-, h⟩ := Option.ite_none_right_eq_some.mp h
    obtain rfl := Option.some.inj h
    exact Kernel.reports_enter
  | mkdir cg =>
    refine told_runKernel ht hi hs (fun k' h => ?_)
    obtain ⟨-, h⟩ := Option.ite_none_right_eq_some.mp h
    obtain rfl := Option.some.inj h
    exact Kernel.reports_mkdir
  | rmdir cg => exact told_runKernel ht hi hs (fun _ => Kernel.reports_rmdir)

end World

theorem told_worldRun (ms : List Move) (w : World)
    (hrun : Runs.run worldStep bootWorld ms = some w) : w.Told :=
  Runs.run_invariant World.told_bootWorld (fun _ _ _ => World.told_worldStep) ms w hrun

theorem World.Told.forgets {w : World} (ht : w.Told) {unit : Bytes} (hsaved : AllSaved w.kernel.log)
    (hunit : isCgroupName unit = true) (hfreed : Freed w.kernel.log unit) :
    w.process.recorded unit = none ∨ w.Awaits unit ∨ w.op = some (.stop unit) := by
  obtain h | h | h := ht.freed hsaved unit hunit hfreed
  · exact .inr (.inl h)
  · exact .inr (.inr h)
  · exact .inl h.1

/-- The scope's task exits, and nothing has been done about it yet. -/
def freedScope : List Move :=
  [.send (startScope 100), .deliver 0, .handle 0] ++
  (callExec allGood bootProcess (startScope 100)).map .act ++ [.finish, .exit 100]

theorem freedScope_freed : (Runs.run worldStep bootWorld freedScope).map (fun w =>
    w.kernel.log.all (fun x => !x.failsToSave) && decide (Freed w.kernel.log (ascii "x.scope"))) =
      some true := by
  decide +kernel

/-- What is left of the release after some more moves: the path on record, and whether
anything is under way. -/
def afterFreed (ms : List Move) : Option (Option Bytes × Bool) :=
  (Runs.run worldStep bootWorld (freedScope ++ ms)).map (fun w =>
    (w.process.recorded (ascii "x.scope"),
      w.kernel.pending.isEmpty && w.inFlight.isEmpty && w.queue.isEmpty && w.handling.isNone))

-- the shim exits with the StopUnit in its queue
example : afterFreed [.agent 0, .deliver 0, .restart] = some (some scopePath, true) := by
  decide +kernel

-- the agent finds no bus
example : afterFreed [.agentFails 0] = some (some scopePath, true) := by decide +kernel

end Shim
