import SystemdShim.Kernel

/- The shim, its clients, the kernel and the release agent as parties of one
   machine. Clients send the four calls; for each release event the agent sends
   StopUnit of the base name of the path, if it finds the system bus; messages
   stay under way for any time, and those that the bus has delivered are taken
   up one at a time, in any order. While the shim handles one, act by act, tasks
   come and go. When it exits, what was delivered to it is lost. A StopUnit names
   a unit, not the event behind it: `late_kill` says which tasks that came after
   the event it may kill. -/
namespace Shim
open Effects History

/-- The call the release agent makes. -/
def agentCall (cg : Place) : Call := .stopUnit [] (gPathGetBasename (kernelPath cg)) (ascii "/")

structure Handling where
  call : Call
  thread : Thread Act Ans Halt (Unit × Process)

structure World where
  process : Process := {}
  kernel : Kernel := {}
  /-- the messages under way to the shim, with the release event each is from -/
  inFlight : List (Option Nat × Call) := []
  /-- those delivered to the process -/
  queue : List (Option Nat × Call) := []
  handling : Option Handling := none

inductive Move where
  /-- A client sends a call. -/
  | send (c : Call)
  /-- The agent runs for the release event of this number. -/
  | agent (id : Nat)
  /-- It runs and cannot connect to the bus. -/
  | agentFails (id : Nat)
  /-- The bus delivers the message at this position. -/
  | deliver (i : Nat)
  /-- The shim takes up the delivered message at this position. -/
  | handle (i : Nat)
  | act (e : Event Ans)
  | finish
  /-- The shim exits with no call in hand, and is started again. -/
  | restart
  | fork (parent child : Int32)
  | exit (pid : Int32)
  /-- A task is moved by someone else. -/
  | enter (pid : Int32) (cg : Place)
  | mkdir (cg : Place)
  | rmdir (cg : Place)

def World.runKernel (w : World) (k : Option Kernel) : Option World :=
  k.map (fun k => { w with kernel := k })

def worldStep (w : World) : Move → Option World
  | .send c => some { w with inFlight := w.inFlight ++ [(none, c)] }
  | .agent id =>
    match w.kernel.pending.find? (fun x => x.1 = id) with
    | some x => some { w with
        kernel := { w.kernel with pending := w.kernel.pending.filter (fun x => x.1 ≠ id) }
        inFlight := w.inFlight ++ [(some x.1, agentCall x.2)] }
    | none => none
  | .agentFails id =>
    match w.kernel.pending.find? (fun x => x.1 = id) with
    | some x => some { w with
        kernel := { w.kernel with pending := w.kernel.pending.filter (fun x => x.1 ≠ id) }.note
          (.lost [(some x.1, agentCall x.2)]) }
    | none => none
  | .deliver i =>
    match w.inFlight[i]? with
    | some m => some { w with inFlight := w.inFlight.eraseIdx i, queue := w.queue ++ [m] }
    | none => none
  | .handle i =>
    match w.handling, w.queue[i]? with
    | none, some (origin, c) => some { w with
        kernel := w.kernel.note (.began origin c w.process)
        queue := w.queue.eraseIdx i
        handling := some ⟨c, .start (c.handle.run w.process)⟩ }
    | _, _ => none
  | .act e => do
    let h ← w.handling
    let th ← h.thread.step e
    let k ← w.kernel.answer e
    some { w with kernel := k.note (.did e), handling := some { h with thread := th } }
  | .finish =>
    match w.handling with
    | some h => match h.thread.rest with
      | .ret (_, p) => some { w with process := p, handling := none }
      | _ => none
    | none => none
  | .restart =>
    match w.handling with
    | none => some { w with
        process := w.process.restart
        kernel := w.kernel.note (.lost w.queue)
        queue := [] }
    | some _ => none
  | .fork parent child => w.runKernel (w.kernel.fork parent child)
  | .exit pid => w.runKernel (w.kernel.exit pid)
  | .enter pid cg =>
    w.runKernel (if w.kernel.isCgroup cg then some (w.kernel.enter pid cg) else none)
  | .mkdir cg =>
    w.runKernel (if w.kernel.isCgroup cg.dropLast then some (w.kernel.mkdir cg) else none)
  | .rmdir cg => w.runKernel (w.kernel.rmdir cg false)

/-- No cgroup, no unit, no message. -/
def bootWorld : World := {}

/-! What a handling kills. -/

/-- Every task killed has been reported by a GetTasksRecursive of this path. -/
def KillsReported (path : Bytes) (t : ShimTrace) : Prop :=
  ∀ t₁ pid t₂, t = t₁ ++ ⟨.kill pid, ()⟩ :: t₂ →
    ∃ pids, (⟨.cgmanagerCall (.getTasksRecursive (ascii "all") path), some pids⟩ : Event Ans) ∈ t₁ ∧
      pid ∈ pids

theorem KillsReported.append {path : Bytes} {t t' : ShimTrace} (h : KillsReported path t)
    (h' : KillsReported path t') : KillsReported path (t ++ t') := by
  intro t₁ pid t₂ ht
  rcases List.append_eq_append_iff.mp ht with ⟨a, rfl, ht'⟩ | ⟨a, rfl, ht'⟩
  · obtain ⟨pids, hm, hp⟩ := h' a pid t₂ ht'
    exact ⟨pids, List.mem_append_right _ hm, hp⟩
  · cases a with
    | nil =>
      obtain ⟨pids, hm, -⟩ := h' [] pid t₂ ht'.symm
      cases hm
    | cons e a =>
      obtain ⟨rfl, rfl⟩ := List.cons.inj ht'
      exact h t₁ pid a rfl

theorem killsReported_of_no_kill {path : Bytes} {t : ShimTrace}
    (h : ∀ pid, (⟨.kill pid, ()⟩ : Event Ans) ∉ t) : KillsReported path t := by
  intro t₁ pid t₂ ht
  subst ht
  exact absurd (by simp) (h pid)

theorem RoundTrace.killsReported {path : Bytes} {removed : Bool} {t : ShimTrace}
    (h : RoundTrace path removed t) : KillsReported path t := by
  obtain ⟨tasks, reply, rfl, -⟩ := h
  intro t₁ pid t₂ ht
  cases t₁ with
  | nil => cases (List.cons.inj ht).1
  | cons e t₁ =>
    rw [List.cons_append, List.cons_append] at ht
    obtain ⟨rfl, htail⟩ := List.cons.inj ht
    have hm : (⟨.kill pid, ()⟩ : Event Ans) ∈ t₁ ++ ⟨.kill pid, ()⟩ :: t₂ := by simp
    rw [← htail, List.mem_append, List.mem_map, List.mem_singleton] at hm
    rcases hm with ⟨p, hp, he⟩ | he
    · have hpid : p = pid := Act.kill.inj (congrArg Sigma.fst he)
      subst hpid
      cases tasks with
      | none => cases hp
      | some pids => exact ⟨pids, List.mem_cons_self .., hp⟩
    · cases congrArg Sigma.fst he

theorem StopTrace.killsReported {path : Bytes} {tries : Nat} {t : ShimTrace}
    (h : StopTrace path tries t) : KillsReported path t := by
  induction h with
  | removed h => exact h.killsReported
  | givenUp h => exact h.killsReported
  | again h _ ih => exact h.killsReported.append ih

theorem CallsTrace.no_kill {cs : List CgCall} {t : ShimTrace} (h : CallsTrace cs t) (pid : Int32) :
    (⟨.kill pid, ()⟩ : Event Ans) ∉ t := by
  intro hm
  have : Act.kill pid ∈ cs.map Act.cgmanagerCall := h ▸ List.mem_map_of_mem hm
  obtain ⟨c, -, hc⟩ := List.mem_map.mp this
  cases hc

/-- Only a stop kills, and only what the recorded path's cgroups have. -/
theorem OpSpec.killsReported {f f' : Files} {op : Option UnitOp} {t : ShimTrace} {pid : Int32}
    (h : OpSpec f op t f') (hm : (⟨.kill pid, ()⟩ : Event Ans) ∈ t) :
    ∃ unit path, op = some (.stop unit) ∧ f.recorded unit = some path ∧ KillsReported path t := by
  have saved : ∀ {kf b}, (⟨.kill pid, ()⟩ : Event Ans) ≠ ⟨.saveToFile kf, b⟩ :=
    fun he => by cases congrArg Sigma.fst he
  rcases op with _ | ⟨unit, path, uid, pids⟩ | unit | unit
  · rw [h.1] at hm
    cases hm
  · obtain ⟨tc, b, htc, rfl, -⟩ := h
    rcases List.mem_append.mp hm with hm | hm
    · exact absurd hm (htc.no_kill pid)
    · exact absurd (List.mem_singleton.mp hm) saved
  · cases hr : f.recorded unit with
    | none =>
      simp only [OpSpec, hr] at h
      rw [h.1] at hm
      cases hm
    | some path =>
      simp only [OpSpec, hr] at h
      obtain ⟨tc, b, htc, rfl, -⟩ := h
      refine ⟨unit, path, rfl, hr, htc.killsReported.append (killsReported_of_no_kill ?_)⟩
      exact fun p hp => by cases congrArg Sigma.fst (List.mem_singleton.mp hp)
  · cases hr : f.recorded unit with
    | none =>
      simp only [OpSpec, hr] at h
      rw [h.1] at hm
      cases hm
    | some path =>
      simp only [OpSpec, hr] at h
      obtain ⟨tc, b, htc, rfl, -⟩ := h
      rcases List.mem_append.mp hm with hm | hm
      · exact absurd hm (htc.no_kill pid)
      · exact absurd (List.mem_singleton.mp hm) saved

/-! What the log says of messages and handlings. -/

/-- The handling that a log ends in: the call, the state it began in, and the
acts since. -/
def follow : Option (Call × Process × ShimTrace) → Happening → Option (Call × Process × ShimTrace)
  | _, .began _ c s => some (c, s, [])
  | some (c, s, t), .did e => some (c, s, t ++ [e])
  | x, _ => x

def underWay (log : List Happening) : Option (Call × Process × ShimTrace) := log.foldl follow none

theorem underWay_snoc (log : List Happening) (x : Happening) :
    underWay (log ++ [x]) = follow (underWay log) x := by
  simp [underWay, List.foldl_append]

theorem follow_byKernel {x : Happening} (hx : x.byKernel = true)
    (u : Option (Call × Process × ShimTrace)) : follow u x = u := by
  cases x <;> first | (cases u <;> rfl) | cases hx

theorem follow_lost (ms : List (Option Nat × Call)) (u : Option (Call × Process × ShimTrace)) :
    follow u (.lost ms) = u := by
  cases u <;> rfl

/-- A message said to come from a release event is the agent's for it; every
act is one of the handling under way, and a report is true. -/
def MessageLaw (past : List Happening) : Happening → Prop
  | .began (some id) c _ => ∃ cg, .released id cg ∈ past ∧ c = agentCall cg
  | .did e =>
    (∃ c s t t' f', underWay past = some (c, s, t) ∧ OpSpec s.files c.op (core (t ++ e :: t')) f') ∧
    ∀ controllers path pids, e = ⟨.cgmanagerCall (.getTasksRecursive controllers path), some pids⟩ →
      ∀ pid, pid ∈ pids ↔ ∃ q, place path <+: q ∧ Located past pid q
  | _ => True

/-- What the handling of a call that began in the state `s` comes to. -/
def HandlingSpec (s : Process) (c : Call) (t : ShimTrace) (o : Except Halt (Unit × Process)) :
    Prop :=
  ∃ a s', o = .ok (a, s') ∧ OpSpec s.files c.op (core t) s'.files

structure World.Inv (w : World) : Prop where
  kernel : w.kernel.Inv
  law : Along MessageLaw w.kernel.log
  messages : ∀ id c, (some id, c) ∈ w.inFlight ++ w.queue →
    ∃ cg, .released id cg ∈ w.kernel.log ∧ c = agentCall cg
  handling : ∀ h, w.handling = some h → ∃ s,
    underWay w.kernel.log = some (h.call, s, h.thread.sofar) ∧ h.thread.wp (HandlingSpec s h.call)

theorem inv_bootWorld : bootWorld.Inv :=
  ⟨Kernel.inv_empty, along_nil, nofun, nofun⟩

variable {w w' : World} {k : Kernel}

theorem law_grows {log xs : List Happening} (h : Along MessageLaw log)
    (hxs : ∀ x ∈ xs, x.byKernel = true) : Along MessageLaw (log ++ xs) := by
  induction xs generalizing log with
  | nil => rw [List.append_nil]; exact h
  | cons x xs ih =>
    obtain ⟨hx, hxs⟩ := List.forall_mem_cons.mp hxs
    rw [← List.singleton_append, ← List.append_assoc]
    exact ih (along_snoc h (by cases x <;> trivial)) hxs

theorem underWay_grows {log xs : List Happening} (hxs : ∀ x ∈ xs, x.byKernel = true) :
    underWay (log ++ xs) = underWay log := by
  induction xs generalizing log with
  | nil => rw [List.append_nil]
  | cons x xs ih =>
    obtain ⟨hx, hxs⟩ := List.forall_mem_cons.mp hxs
    rw [← List.singleton_append, ← List.append_assoc, ih hxs, underWay_snoc, follow_byKernel hx]

theorem inv_kernel (hi : w.Inv) (h : w.kernel.Moves k) : ({ w with kernel := k } : World).Inv := by
  obtain ⟨xs, hlog, hxs⟩ := h.2
  refine ⟨h.1 hi.kernel, ?_, fun id c hm => ?_, fun h hh => ?_⟩
  · rw [hlog]
    exact law_grows hi.law hxs
  · obtain ⟨cg, hr, hc⟩ := hi.messages id c hm
    exact ⟨cg, hlog ▸ List.mem_append_left _ hr, hc⟩
  · obtain ⟨s, hu, hwp⟩ := hi.handling h hh
    exact ⟨s, by rw [hlog, underWay_grows hxs]; exact hu, hwp⟩

theorem inv_runKernel {k : Option Kernel} (hi : w.Inv) (hs : w.runKernel k = some w')
    (h : ∀ k', k = some k' → w.kernel.Moves k') : w'.Inv := by
  obtain ⟨k', hk, rfl⟩ := Option.map_eq_some_iff.mp hs
  exact inv_kernel hi (h k' hk)

theorem inv_taken {f : Nat × Place → Bool} (hi : w.Inv) : ({ w with
    kernel := { w.kernel with pending := w.kernel.pending.filter f } } : World).Inv :=
  ⟨⟨hi.kernel.located, hi.kernel.housed, hi.kernel.numbered,
    fun y hy => hi.kernel.pending y (List.mem_of_mem_filter hy), hi.kernel.law⟩, hi.law,
    hi.messages, hi.handling⟩

theorem inv_lost (hi : w.Inv) (ms : List (Option Nat × Call)) :
    ({ w with kernel := w.kernel.note (.lost ms) } : World).Inv := by
  refine ⟨Kernel.inv_note hi.kernel rfl, along_snoc hi.law trivial, fun id c hm => ?_,
    fun h hh => ?_⟩
  · obtain ⟨cg, hr, hc⟩ := hi.messages id c hm
    exact ⟨cg, List.mem_append_left _ hr, hc⟩
  · obtain ⟨s, hu, hwp⟩ := hi.handling h hh
    exact ⟨s, by rw [Kernel.note, underWay_snoc, follow_lost]; exact hu, hwp⟩

/-- The event that the agent runs for. -/
theorem worldStep_agent {id : Nat} (hs : worldStep w (.agent id) = some w') :
    ∃ x ∈ w.kernel.pending, x.1 = id ∧ w' = { w with
      kernel := { w.kernel with pending := w.kernel.pending.filter (fun x => x.1 ≠ id) }
      inFlight := w.inFlight ++ [(some x.1, agentCall x.2)] } := by
  simp only [worldStep] at hs
  split at hs
  · rename_i x hx
    exact ⟨x, List.mem_of_find?_eq_some hx, by simpa using List.find?_some hx,
      (Option.some.inj hs).symm⟩
  · cases hs

theorem worldStep_agentFails {id : Nat} (hs : worldStep w (.agentFails id) = some w') :
    ∃ x ∈ w.kernel.pending, x.1 = id ∧ w' = { w with
      kernel := { w.kernel with pending := w.kernel.pending.filter (fun x => x.1 ≠ id) }.note
        (.lost [(some x.1, agentCall x.2)]) } := by
  simp only [worldStep] at hs
  split at hs
  · rename_i x hx
    exact ⟨x, List.mem_of_find?_eq_some hx, by simpa using List.find?_some hx,
      (Option.some.inj hs).symm⟩
  · cases hs

theorem worldStep_deliver {i : Nat} (hs : worldStep w (.deliver i) = some w') :
    ∃ m, w.inFlight[i]? = some m ∧
      w' = { w with inFlight := w.inFlight.eraseIdx i, queue := w.queue ++ [m] } := by
  simp only [worldStep] at hs
  split at hs
  · rename_i m hm
    exact ⟨m, hm, (Option.some.inj hs).symm⟩
  · cases hs

theorem worldStep_handle {i : Nat} (hs : worldStep w (.handle i) = some w') :
    ∃ origin c, w.handling = none ∧ w.queue[i]? = some (origin, c) ∧ w' = { w with
      kernel := w.kernel.note (.began origin c w.process)
      queue := w.queue.eraseIdx i
      handling := some ⟨c, .start (c.handle.run w.process)⟩ } := by
  simp only [worldStep] at hs
  split at hs
  · rename_i origin c hnone hm
    exact ⟨origin, c, hnone, hm, (Option.some.inj hs).symm⟩
  · cases hs

theorem worldStep_restart (hs : worldStep w .restart = some w') : w.handling = none ∧
    w' = { w with
      process := w.process.restart
      kernel := w.kernel.note (.lost w.queue)
      queue := [] } := by
  simp only [worldStep] at hs
  split at hs
  · rename_i hnone
    exact ⟨hnone, (Option.some.inj hs).symm⟩
  · cases hs

theorem inv_agent {id : Nat} (hi : w.Inv) (hs : worldStep w (.agent id) = some w') : w'.Inv := by
  obtain ⟨x, hx, -, rfl⟩ := worldStep_agent hs
  have hi' := inv_taken (f := fun x => x.1 ≠ id) hi
  refine ⟨hi'.kernel, hi'.law, fun id c hm => ?_, hi'.handling⟩
  rw [List.append_assoc, List.mem_append, List.mem_append, List.mem_singleton] at hm
  obtain hm | hm | hm := hm
  · exact hi.messages id c (List.mem_append_left _ hm)
  · obtain ⟨hid, rfl⟩ := Prod.mk.inj hm
    obtain rfl := Option.some.inj hid
    exact ⟨x.2, hi.kernel.pending x hx, rfl⟩
  · exact hi.messages id c (List.mem_append_right _ hm)

theorem inv_deliver {i : Nat} (hi : w.Inv) (hs : worldStep w (.deliver i) = some w') :
    w'.Inv := by
  obtain ⟨m, hm, rfl⟩ := worldStep_deliver hs
  refine ⟨hi.kernel, hi.law, fun id c hc => ?_, hi.handling⟩
  rw [List.mem_append, List.mem_append, List.mem_singleton] at hc
  obtain hc | hc | rfl := hc
  · exact hi.messages id c (List.mem_append_left _ (List.mem_of_mem_eraseIdx hc))
  · exact hi.messages id c (List.mem_append_right _ hc)
  · exact hi.messages id c (List.mem_append_left _ (List.mem_of_getElem? hm))

theorem inv_handle {i : Nat} (hi : w.Inv) (hs : worldStep w (.handle i) = some w') : w'.Inv := by
  obtain ⟨origin, c, -, hm, rfl⟩ := worldStep_handle hs
  refine ⟨Kernel.inv_note hi.kernel rfl, along_snoc hi.law ?_, fun id c hm => ?_, fun h hh => ?_⟩
  · cases origin with
    | none => trivial
    | some id => exact hi.messages id c (List.mem_append_right _ (List.mem_of_getElem? hm))
  · have hm := List.mem_append.mp hm
    obtain ⟨cg, hr, hc⟩ := hi.messages id c
      (List.mem_append.mpr (hm.imp_right List.mem_of_mem_eraseIdx))
    exact ⟨cg, List.mem_append_left _ hr, hc⟩
  · obtain rfl := Option.some.inj hh
    exact ⟨w.process, underWay_snoc _ _, handle_spec c w.process⟩

theorem inv_restart (hi : w.Inv) (hs : worldStep w .restart = some w') : w'.Inv := by
  obtain ⟨hnone, rfl⟩ := worldStep_restart hs
  have hi' := inv_lost hi w.queue
  refine ⟨hi'.kernel, hi'.law, fun id c hm => ?_, fun h hh => by cases hnone.symm.trans hh⟩
  rw [List.append_nil] at hm
  exact hi'.messages id c (List.mem_append_left _ hm)

theorem inv_act {e : Event Ans} (hi : w.Inv) (hs : worldStep w (.act e) = some w') : w'.Inv := by
  simp only [worldStep, Option.bind_eq_bind, Option.bind_eq_some_iff] at hs
  obtain ⟨h, hh, th, hth, k, hk, hs⟩ := hs
  obtain rfl := Option.some.inj hs
  obtain ⟨s, hu, hwp⟩ := hi.handling h hh
  have hwp := Thread.wp_step hwp hth
  obtain ⟨_, -, rfl⟩ := Thread.step_cases hth
  have hmoves := Kernel.moves_answer hk
  have hi' := inv_kernel hi hmoves
  have hu' : underWay k.log = some (h.call, s, h.thread.sofar) := by
    obtain ⟨xs, hlog, hxs⟩ := hmoves.2
    rw [hlog, underWay_grows hxs]
    exact hu
  refine ⟨Kernel.inv_note hi'.kernel rfl, along_snoc hi'.law ⟨?_, ?_⟩, fun id c hm => ?_,
    fun h' hh' => ?_⟩
  · obtain ⟨t', o, a, s', -, hop⟩ := Prog.wp_exists hwp
    refine ⟨h.call, s, h.thread.sofar, t', s'.files, hu', ?_⟩
    rw [List.append_assoc] at hop
    exact hop
  · intro controllers path pids h
    subst h
    obtain ⟨rfl, hp⟩ := Kernel.answer_report hi.kernel hk
    exact hp
  · obtain ⟨cg, hr, hc⟩ := hi'.messages id c hm
    exact ⟨cg, List.mem_append_left _ hr, hc⟩
  · obtain rfl := Option.some.inj hh'
    refine ⟨s, ?_, hwp⟩
    show underWay (k.log ++ [.did e]) = _
    rw [underWay_snoc, hu']
    rfl

theorem inv_worldStep {m : Move} (hi : w.Inv) (hs : worldStep w m = some w') : w'.Inv := by
  cases m with
  | send c =>
    obtain rfl := Option.some.inj hs
    refine ⟨hi.kernel, hi.law, fun id c' hm => ?_, hi.handling⟩
    rw [List.append_assoc, List.mem_append, List.mem_append, List.mem_singleton] at hm
    obtain hm | hm | hm := hm
    · exact hi.messages id c' (List.mem_append_left _ hm)
    · cases (Prod.mk.inj hm).1
    · exact hi.messages id c' (List.mem_append_right _ hm)
  | agent id => exact inv_agent hi hs
  | agentFails id =>
    obtain ⟨x, -, -, rfl⟩ := worldStep_agentFails hs
    exact inv_lost (inv_taken hi) _
  | deliver i => exact inv_deliver hi hs
  | handle i => exact inv_handle hi hs
  | act e => exact inv_act hi hs
  | finish =>
    simp only [worldStep] at hs
    split at hs
    · split at hs
      · obtain rfl := Option.some.inj hs
        exact ⟨hi.kernel, hi.law, hi.messages, nofun⟩
      · cases hs
    · cases hs
  | restart => exact inv_restart hi hs
  | fork parent child => exact inv_runKernel hi hs (fun _ => Kernel.moves_fork)
  | exit pid => exact inv_runKernel hi hs (fun _ => Kernel.moves_exit)
  | enter pid cg =>
    refine inv_runKernel hi hs (fun k' h => ?_)
    obtain ⟨hcg, h⟩ := Option.ite_none_right_eq_some.mp h
    obtain rfl := Option.some.inj h
    exact Kernel.moves_enter (fun _ => hcg)
  | mkdir cg =>
    refine inv_runKernel hi hs (fun k' h => ?_)
    obtain ⟨-, h⟩ := Option.ite_none_right_eq_some.mp h
    obtain rfl := Option.some.inj h
    exact Kernel.moves_mkdir
  | rmdir cg => exact inv_runKernel hi hs (fun _ => Kernel.moves_rmdir)

theorem inv_worldRun (ms : List Move) (w : World)
    (hrun : Runs.run worldStep bootWorld ms = some w) :
    w.Inv :=
  Runs.run_invariant inv_bootWorld (fun _ _ _ => inv_worldStep) ms w hrun

/-! Late tasks. -/

/-- At time `k` of the log the shim sends SIGKILL to `pid`, while it handles the
StopUnit that the release event of time `i`, for `cg`, produced. The handling
began at time `j`, in the state `s`. -/
structure KillsFor (log : List Happening) (i j k : Nat) (cg : Place) (s : Process) (pid : Int32) :
    Prop where
  event : ∃ id c, log[i]? = some (.released id cg) ∧ log[j]? = some (.began (some id) c s)
  kill : log[k]? = some (.did ⟨.kill pid, ()⟩)
  after : j < k
  same : ∀ m origin c s', j < m → m < k → log[m]? ≠ some (.began origin c s')

/-- The task enters the cgroup after time `i` and before time `k`. -/
def EntersBetween (log : List Happening) (i k : Nat) (pid : Int32) (cg : Place) : Prop :=
  ∃ m, i < m ∧ m < k ∧ log[m]? = some (.entered pid cg)

variable {log : List Happening} {i j k r : Nat} {cg : Place} {c : Call} {s : Process} {pid : Int32}

theorem underWay_take {origin : Option Nat} (hj : log[j]? = some (.began origin c s)) (hk : j < k)
    (hsame : ∀ m origin c s', j < m → m < k → log[m]? ≠ some (.began origin c s')) :
    ∃ t, underWay (log.take k) = some (c, s, t) ∧
      ∀ e ∈ t, ∃ r, j < r ∧ r < k ∧ log[r]? = some (.did e) := by
  induction k, hk using Nat.le_induction with
  | base =>
    refine ⟨[], ?_, nofun⟩
    rw [List.take_add_one, hj, Option.toList_some, underWay_snoc]
    rfl
  | succ k hk ih =>
    obtain ⟨t, ht, hmem⟩ := ih
      (fun m o c s' hm hmk => hsame m o c s' hm (hmk.trans (Nat.lt_succ_self k)))
    have hmem' : ∀ e ∈ t, ∃ r, j < r ∧ r < k + 1 ∧ log[r]? = some (.did e) := by
      intro e he
      obtain ⟨r, hr, hrk, hrl⟩ := hmem e he
      exact ⟨r, hr, hrk.trans (Nat.lt_succ_self k), hrl⟩
    rw [List.take_add_one]
    cases hx : log[k]? with
    | none =>
      rw [Option.toList_none, List.append_nil]
      exact ⟨t, ht, hmem'⟩
    | some x =>
      rw [Option.toList_some, underWay_snoc, ht]
      cases x with
      | began o c' s' => exact absurd hx (hsame k o c' s' hk (Nat.lt_succ_self k))
      | did e =>
        refine ⟨t ++ [e], rfl, fun e' he' => ?_⟩
        rcases List.mem_append.mp he' with he' | he'
        · exact hmem' e' he'
        · rw [List.mem_singleton.mp he']
          exact ⟨k, hk, Nat.lt_succ_self k, hx⟩
      | entered p q => exact ⟨t, rfl, hmem'⟩
      | exited p => exact ⟨t, rfl, hmem'⟩
      | released id q => exact ⟨t, rfl, hmem'⟩
      | lost ms => exact ⟨t, rfl, hmem'⟩

theorem released_unique {id : Nat} {cg' : Place} (hlaw : Along ReleaseLaw log)
    (hi : log[i]? = some (.released id cg)) (hj : log[j]? = some (.released id cg')) :
    i = j ∧ cg = cg' := by
  have earlier : ∀ {i j : Nat} {cg cg' : Place}, log[i]? = some (.released id cg) →
      log[j]? = some (.released id cg') → ¬ i < j := by
    intro i j cg cg' hi hj hlt
    refine (hlaw j _ hj).1 cg (List.mem_of_getElem? (i := i) ?_)
    rw [List.getElem?_take, if_pos hlt, hi]
  obtain rfl : i = j :=
    Nat.le_antisymm (Nat.not_lt.mp (earlier hj hi)) (Nat.not_lt.mp (earlier hi hj))
  exact ⟨rfl, (Happening.released.inj (Option.some.inj (hi.symm.trans hj))).2⟩

theorem located_take : Located (log.take r) pid cg ↔
    ∃ n, n < r ∧ log[n]? = some (.entered pid cg) ∧
      ∀ m x, n < m → m < r → log[m]? = some x → x.moves pid = false := by
  rw [Located, since_times]
  simp only [List.getElem?_take, Option.ite_none_right_eq_some]
  constructor
  · intro h
    obtain ⟨n, x, ⟨hnr, hn⟩, rfl, hstay⟩ := h
    exact ⟨n, hnr, hn, fun m x hnm hmr hm => hstay m x hnm ⟨hmr, hm⟩⟩
  · intro h
    obtain ⟨n, hnr, hn, hstay⟩ := h
    exact ⟨n, _, ⟨hnr, hn⟩, rfl, fun m x hnm hm => hstay m x hnm hm.1 hm.2⟩

/-- The handling came after the event, stops the recorded unit of that name, and
has reported the task. -/
theorem KillsFor.reported {w : World} (hi : w.Inv) (h : KillsFor w.kernel.log i j k cg s pid) :
    i < j ∧ ∃ path, s.recorded (gPathGetBasename (kernelPath cg)) = some path ∧
      ∃ r pids, j < r ∧ r < k ∧ w.kernel.log[r]? =
        some (.did ⟨.cgmanagerCall (.getTasksRecursive (ascii "all") path), some pids⟩) ∧
      pid ∈ pids := by
  obtain ⟨id, c, hrel, hbegan⟩ := h.event
  -- the message is the agent's for the event
  obtain ⟨cg', hmem, rfl⟩ := hi.law j _ hbegan
  obtain ⟨i', hi'⟩ := List.mem_iff_getElem?.mp hmem
  rw [List.getElem?_take] at hi'
  obtain ⟨hij, hi'⟩ := Option.ite_none_right_eq_some.mp hi'
  obtain ⟨rfl, rfl⟩ := released_unique hi.kernel.law hrel hi'
  -- the kill is an act of its handling
  obtain ⟨t, ht, hdid⟩ := underWay_take hbegan h.after h.same
  obtain ⟨⟨c', s', t₁, t₂, f', hu, hop⟩, -⟩ := hi.law k _ h.kill
  obtain ⟨rfl, rfl, rfl⟩ : agentCall cg = c' ∧ s = s' ∧ t = t₁ := by
    have := Option.some.inj (ht.symm.trans hu)
    exact ⟨congrArg Prod.fst this, congrArg (fun x => x.2.1) this, congrArg (fun x => x.2.2) this⟩
  have hcore : core (t ++ ⟨.kill pid, ()⟩ :: t₂) = core t ++ ⟨.kill pid, ()⟩ :: core t₂ :=
    core_append t (⟨.kill pid, ()⟩ :: t₂)
  rw [hcore] at hop
  have hmem : (⟨.kill pid, ()⟩ : Event Ans) ∈ core t ++ ⟨.kill pid, ()⟩ :: core t₂ := by simp
  obtain ⟨unit, path, hstop, hrec, hkills⟩ := hop.killsReported hmem
  obtain ⟨pids, hreport, hp⟩ := hkills _ pid _ rfl
  obtain ⟨r, hjr, hrk, hr⟩ := hdid _ (List.mem_of_mem_filter hreport)
  refine ⟨hij, path, ?_, r, pids, hjr, hrk, hr, hp⟩
  simp only [agentCall, Call.op] at hstop
  obtain ⟨-, hstop⟩ := Option.ite_none_right_eq_some.mp hstop
  obtain rfl := UnitOp.stop.inj (Option.some.inj hstop)
  exact hrec

/-- A StopUnit of the release agent kills a task that entered a cgroup after
the release event only if the task entered, since then, a cgroup in or below
the one recorded for the unit, and was reported there; or entered a cgroup
after it was reported. -/
theorem late_kill {ms : List Move} {w : World} {q : Place}
    (hrun : Runs.run worldStep bootWorld ms = some w) (h : KillsFor w.kernel.log i j k cg s pid)
    (hlate : EntersBetween w.kernel.log i k pid q) :
    ∃ path, s.recorded (gPathGetBasename (kernelPath cg)) = some path ∧ ∃ r pids, j < r ∧ r < k ∧
      w.kernel.log[r]? =
        some (.did ⟨.cgmanagerCall (.getTasksRecursive (ascii "all") path), some pids⟩) ∧
      pid ∈ pids ∧
      ((∃ q, place path <+: q ∧ EntersBetween w.kernel.log i r pid q) ∨
        ∃ q, EntersBetween w.kernel.log r k pid q) := by
  have hi := inv_worldRun ms w hrun
  obtain ⟨-, path, hrec, r, pids, hjr, hrk, hr, hp⟩ := h.reported hi
  refine ⟨path, hrec, r, pids, hjr, hrk, hr, hp, ?_⟩
  obtain ⟨m, him, hmk, hm⟩ := hlate
  by_cases hmr : m < r
  · left
    obtain ⟨p, hpath, hloc⟩ := ((hi.law r _ hr).2 _ _ _ rfl pid).mp hp
    obtain ⟨n, hnr, hn, hstay⟩ := located_take.mp hloc
    refine ⟨p, hpath, n, ?_, hnr, hn⟩
    -- the task has not moved since it entered `p`, so that was after the event too
    by_contra hni
    have := hstay m (.entered pid q) (by omega) hmr hm
    simp [Happening.moves] at this
  · right
    refine ⟨q, m, ?_, hmk, hm⟩
    rcases Nat.lt_or_eq_of_le (Nat.not_lt.mp hmr) with h | rfl
    · exact h
    · rw [hr] at hm
      cases hm

/-- StartTransientUnit of one scope with one task. -/
def startScope (pid : UInt32) : Call :=
  .startTransientUnit [] (ascii "x.scope") []
    [(ascii "Slice", .string (ascii "a.slice")), (ascii "PIDs", .uint32Array [pid])] []

def afterStart : Process := callEnd allGood bootProcess (startScope 100)

def scopePath : Bytes := ascii "a.slice/x.scope"

/-- The scope's task exits; before the agent's StopUnit is taken up, the scope
is started again. -/
def restartedScope : List Move :=
  [.send (startScope 100), .deliver 0, .handle 0] ++
  (callExec allGood bootProcess (startScope 100)).map .act ++
  [.finish, .exit 100, .agent 0, .send (startScope 200), .deliver 1, .handle 0] ++
  (callExec allGood afterStart (startScope 200)).map .act ++
  [.finish, .deliver 0, .handle 0,
    .act ⟨.cgmanagerCall (.getTasksRecursive (ascii "all") scopePath), some [(200 : Int32)]⟩,
    .act ⟨.kill 200, ()⟩]

/-- What of an entry a run of fixed moves is checked for. -/
inductive Mark where
  | entered (pid : Int32) (cg : Place)
  | released (id : Nat) (cg : Place)
  | began (origin : Option Nat)
  | killed (pid : Int32)
  | other
  deriving DecidableEq

def Happening.mark : Happening → Mark
  | .entered pid cg => .entered pid cg
  | .released id cg => .released id cg
  | .began origin _ _ => .began origin
  | .did ⟨.kill pid, _⟩ => .killed pid
  | _ => .other

def scope : Place := [ascii "a.slice", ascii "x.scope"]

theorem marks_restartedScope :
    (Runs.run worldStep bootWorld restartedScope).map (fun w => w.kernel.log.map Happening.mark) =
      some [.began none, .other, .entered 100 scope, .other, .other, .other, .other, .other, .other,
        .other, .released 0 scope, .began none, .other, .entered 200 scope, .other, .other, .other,
        .other, .other, .other, .other, .began (some 0), .other, .killed 200] := by
  decide +kernel

/-- What a mark says of its entry. -/
def Happening.Has (x : Happening) : Mark → Prop
  | .entered pid cg => x = .entered pid cg
  | .released id cg => x = .released id cg
  | .began origin => ∃ c s, x = .began origin c s
  | .killed pid => x = .did ⟨.kill pid, ()⟩
  | .other => ∀ origin c s, x ≠ .began origin c s

theorem has_mark (x : Happening) : x.Has x.mark := by
  cases x with
  | began origin c s => exact ⟨c, s, rfl⟩
  | did e =>
    obtain ⟨a, r⟩ := e
    cases a with
    | kill pid => rfl
    | _ =>
      intro origin c s h
      cases h
  | exited pid =>
    intro origin c s h
    cases h
  | lost ms =>
    intro origin c s h
    cases h
  | _ => rfl

theorem entry_of_mark {n : Nat} {m : Mark} (h : (log.map Happening.mark)[n]? = some m) :
    ∃ x, log[n]? = some x ∧ x.Has m := by
  rw [List.getElem?_map] at h
  obtain ⟨x, hx, rfl⟩ := Option.map_eq_some_iff.mp h
  exact ⟨x, hx, has_mark x⟩

theorem restartedScope_kills : ∃ w s, Runs.run worldStep bootWorld restartedScope = some w ∧
    KillsFor w.kernel.log 10 21 23 scope s 200 ∧ EntersBetween w.kernel.log 10 23 200 scope := by
  obtain ⟨w, hrun, hmarks⟩ := Option.map_eq_some_iff.mp marks_restartedScope
  have entry : ∀ (n : Nat) (m : Mark), (w.kernel.log.map Happening.mark)[n]? = some m →
      ∃ x, w.kernel.log[n]? = some x ∧ x.Has m := fun _ _ => entry_of_mark
  rw [hmarks] at entry
  obtain ⟨_, hreleased, rfl⟩ := entry 10 (.released 0 scope) rfl
  obtain ⟨_, hentered, rfl⟩ := entry 13 (.entered 200 scope) rfl
  obtain ⟨_, hbegan, c, s, rfl⟩ := entry 21 (.began (some 0)) rfl
  obtain ⟨x, hx, hother⟩ := entry 22 .other rfl
  obtain ⟨_, hkill, rfl⟩ := entry 23 (.killed 200) rfl
  refine ⟨w, s, hrun, ⟨⟨0, c, hreleased, hbegan⟩, hkill, by decide, ?_⟩,
    13, by decide, by decide, hentered⟩
  intro m origin c' s' hm hm' h
  obtain rfl : m = 22 := by omega
  exact hother origin c' s' (Option.some.inj (hx.symm.trans h))

theorem late_kill_restartedScope : ∃ (w : World) (s : Process) (path : Bytes),
    Runs.run worldStep bootWorld restartedScope = some w ∧
    s.recorded (gPathGetBasename (kernelPath scope)) = some path ∧ ∃ r pids, 21 < r ∧ r < 23 ∧
      w.kernel.log[r]? =
        some (.did ⟨.cgmanagerCall (.getTasksRecursive (ascii "all") path), some pids⟩) ∧
      (200 : Int32) ∈ pids ∧
      ((∃ q, place path <+: q ∧ EntersBetween w.kernel.log 10 r 200 q) ∨
        ∃ q, EntersBetween w.kernel.log r 23 200 q) := by
  obtain ⟨w, s, hrun, hkills, hlate⟩ := restartedScope_kills
  obtain ⟨path, h⟩ := late_kill hrun hkills hlate
  exact ⟨w, s, path, hrun, h⟩

/-- The StopUnit for the scope's first task kills its second. -/
theorem late_task_killed : ¬ ∀ (ms : List Move) (w : World) (i j k : Nat) (cg : Place) (s : Process)
    (pid : Int32) (q : Place), Runs.run worldStep bootWorld ms = some w →
    KillsFor w.kernel.log i j k cg s pid → ¬ EntersBetween w.kernel.log i k pid q := by
  intro h
  obtain ⟨w, s, hrun, hkills, hlate⟩ := restartedScope_kills
  exact h _ _ _ _ _ _ _ _ _ hrun hkills hlate

end Shim
