import SystemdShim.Quiet

/- The four calls that work on cgroup units, and what each does. `Call.op` says
   from a call's arguments alone which operation on which unit it amounts to;
   `handle_spec` says that this is what the handlers do, whatever cgmanager
   and the disk answer: the core trace and the files afterwards are those of
   the operation. -/
namespace Shim
open Effects

inductive Call where
  | startUnit (sender name mode : Bytes)
  /-- `aux` is what follows the properties, for the versions that pass more. -/
  | startTransientUnit (sender name mode : Bytes) (properties : List (Bytes × Variant))
      (aux : List Variant)
  | stopUnit (sender name mode : Bytes)
  /-- Abandon on the object `node` below /org/freedesktop/systemd1/unit. -/
  | abandon (node : Bytes)

def Call.request : Call → Request
  | .startUnit sender name mode => .manager sender "StartUnit" [.string name, .string mode]
  | .startTransientUnit sender name mode properties aux =>
    .manager sender "StartTransientUnit"
      ([.string name, .string mode, .properties properties] ++ aux)
  | .stopUnit sender name mode => .manager sender "StopUnit" [.string name, .string mode]
  | .abandon node => .unit (some node) "Abandon"

/-- No callback behind the four calls looks at the version. -/
def Call.handle (c : Call) : ShimM Unit := c.request.handle 0

/-! The property list. -/

/-- The value of the last Slice entry of type string. -/
def lastStringSlice (properties : List (Bytes × Variant)) : Option Bytes :=
  (properties.filterMap (fun p => match p with
    | (key, .string v) => if key = ascii "Slice" then some v else none
    | _ => none)).getLast?

/-- All PIDs entries of type `au`, in order. -/
def allPids (properties : List (Bytes × Variant)) : List UInt32 :=
  properties.flatMap (fun p => match p with
    | (key, .uint32Array vs) => if key = ascii "PIDs" then vs else []
    | _ => [])

theorem foldl_readProperty (properties : List (Bytes × Variant))
    (acc : Option Bytes × List UInt32) :
    properties.foldl readProperty acc =
      ((lastStringSlice properties).or acc.1, acc.2 ++ allPids properties) := by
  induction properties using List.reverseRecOn with
  | nil => simp [lastStringSlice, allPids]
  | append_singleton ps p ih =>
    -- the last entry decides about the slice, and its PIDs come last
    rw [List.foldl_append, ih]
    obtain ⟨key, value⟩ := p
    cases value with
    | string v =>
      by_cases h : key = ascii "Slice" <;>
        simp [readProperty, lastStringSlice, allPids, h]
    | uint32Array vs =>
      by_cases h : key = ascii "PIDs" <;>
        simp [readProperty, lastStringSlice, allPids, h]
    | _ => simp [readProperty, lastStringSlice, allPids]

theorem readProperties_eq (properties : List (Bytes × Variant)) :
    readProperties properties = (lastStringSlice properties, allPids properties) := by
  simp [readProperties, foldl_readProperty]

/-! Operations. -/

inductive UnitOp where
  | start (unit path : Bytes) (uid : Int) (pids : List UInt32)
  | stop (unit : Bytes)
  | abandon (unit : Bytes)
  deriving DecidableEq

def UnitOp.unit : UnitOp → Bytes
  | .start unit _ _ _ => unit
  | .stop unit => unit
  | .abandon unit => unit

def startOp (unit slice : Bytes) (scope : Option Bytes) (pids : List UInt32) : UnitOp :=
  let (path, uid) := cgroupUnitGetPathAndUid slice scope
  .start unit path uid pids

/-- The operation a call amounts to, `none` where it touches no cgroup unit:
StartUnit starts slices, StartTransientUnit scopes whose last string-typed
Slice is a slice, StopUnit and Abandon take either. -/
def Call.op : Call → Option UnitOp
  | .startUnit _ name _ =>
    if gStrHasSuffix name (ascii ".slice") then some (startOp name name none []) else none
  | .startTransientUnit _ name _ properties _ =>
    if gStrHasSuffix name (ascii ".scope") then
      match lastStringSlice properties with
      | some slice =>
        if gStrHasSuffix slice (ascii ".slice") then
          some (startOp name slice (some name) (allPids properties))
        else none
      | none => none
    else none
  | .stopUnit _ name _ => if isCgroupName name then some (.stop name) else none
  | .abandon node =>
    if isCgroupName (unescapeObjectPath node) then some (.abandon (unescapeObjectPath node))
    else none

/-- The slice a start is in, or is of. -/
def Call.slice : Call → Option Bytes
  | .startUnit _ name _ => some name
  | .startTransientUnit _ _ _ properties _ => lastStringSlice properties
  | _ => none

/-- A start is of a slice by its own name, or of a scope in its Slice. -/
theorem Call.op_start {c : Call} {unit path : Bytes} {uid : Int} {pids : List UInt32}
    (h : c.op = some (.start unit path uid pids)) :
    ∃ slice scope, c.slice = some slice ∧ ascii ".slice" <:+ slice ∧
      cgroupUnitGetPathAndUid slice scope = (path, uid) ∧
      (scope = none ∧ unit = slice ∨ scope = some unit ∧ ascii ".scope" <:+ unit) := by
  cases c with
  | startUnit sender name mode =>
    simp only [Call.op] at h
    split at h
    · rename_i hs
      obtain ⟨rfl, rfl, rfl, -⟩ := UnitOp.start.inj (Option.some.inj h)
      exact ⟨name, none, rfl, gStrHasSuffix_iff.mp hs, rfl, .inl ⟨rfl, rfl⟩⟩
    · cases h
  | startTransientUnit sender name mode properties aux =>
    simp only [Call.op] at h
    split at h
    · rename_i hn
      split at h
      · rename_i slice hslice
        split at h
        · rename_i hs
          obtain ⟨rfl, rfl, rfl, -⟩ := UnitOp.start.inj (Option.some.inj h)
          exact ⟨slice, some name, hslice, gStrHasSuffix_iff.mp hs, rfl,
            .inr ⟨rfl, gStrHasSuffix_iff.mp hn⟩⟩
        · cases h
      · cases h
    · cases h
  | stopUnit sender name mode =>
    simp only [Call.op] at h
    split at h <;> cases h
  | abandon node =>
    simp only [Call.op] at h
    split at h <;> cases h

/-- The calls of cgmanager_create. -/
def createCalls (path : Bytes) (uid : Int) (pids : List UInt32) : List CgCall :=
  [.create (ascii "all") (skipSlash path)] ++
  (if uid ≠ -1 then [.chown (ascii "all") (skipSlash path) uid (-1)] else []) ++
  pids.map (fun pid => .movePid (ascii "all") (skipSlash path) pid.toInt32) ++
  [.setValue (ascii "systemd") (skipSlash path) (ascii "notify_on_release") (ascii "1")]

theorem mem_createCalls {k : CgCall} {path : Bytes} {uid : Int} {pids : List UInt32} :
    k ∈ createCalls path uid pids ↔
      k = .create (ascii "all") (skipSlash path) ∨
      (uid ≠ -1 ∧ k = .chown (ascii "all") (skipSlash path) uid (-1)) ∨
      (∃ pid ∈ pids, k = .movePid (ascii "all") (skipSlash path) pid.toInt32) ∨
      k = .setValue (ascii "systemd") (skipSlash path) (ascii "notify_on_release") (ascii "1") := by
  by_cases huid : uid = -1 <;> simp [createCalls, huid, eq_comm]

theorem mem_createCalls_create {path controllers q : Bytes} {uid : Int} {pids : List UInt32}
    (h : CgCall.create controllers q ∈ createCalls path uid pids) : skipSlash path = q := by
  obtain h | ⟨-, h⟩ | ⟨_, -, h⟩ | h := mem_createCalls.mp h
  · exact (CgCall.create.inj h).2.symm
  · cases h
  · cases h
  · cases h

/-- A trace of exactly these calls, whatever the answers. -/
def CallsTrace (cs : List CgCall) (t : ShimTrace) : Prop :=
  t.map Sigma.fst = cs.map Act.cgmanagerCall

/-- One round of the loop of cgroup_unit_stop: every task reported is killed,
and the removal succeeds or not. -/
def RoundTrace (path : Bytes) (removed : Bool) (t : ShimTrace) : Prop :=
  ∃ (tasks : Option (List Int32)) (reply : Option Unit),
    t = ⟨.cgmanagerCall (.getTasksRecursive (ascii "all") path), tasks⟩ ::
      (tasks.getD []).map (fun pid => ⟨.kill pid, ()⟩) ++
      [⟨.cgmanagerCall (.remove (ascii "all") (skipSlash path) 1), reply⟩] ∧
    reply.isSome = removed

/-- The whole loop, with `tries` more rounds to go after the first. -/
inductive StopTrace (path : Bytes) : Nat → ShimTrace → Prop where
  | removed {tries t} : RoundTrace path true t → StopTrace path tries t
  | givenUp {t} : RoundTrace path false t → StopTrace path 0 t
  | again {tries t t'} : RoundTrace path false t → StopTrace path tries t' →
      StopTrace path (tries + 1) (t ++ t')

/-- The core trace of an operation on the files `f`, and the files it leaves. -/
def OpSpec (f : Files) : Option UnitOp → ShimTrace → Files → Prop
  | none, t, f' => t = [] ∧ f' = f
  | some (.start unit path uid pids), t, f' =>
    let kf := f.store.setString unit (ascii "path") path
    ∃ tc b, CallsTrace (createCalls path uid pids) tc ∧ t = tc ++ [⟨.saveToFile kf, b⟩] ∧
      f' = f.stored kf b
  | some (.stop unit), t, f' => match f.recorded unit with
    | none => t = [] ∧ f' = f.loaded
    | some path =>
      let kf := f.store.removeGroup unit
      ∃ tc b, StopTrace path 5 tc ∧ t = tc ++ [⟨.saveToFile kf, b⟩] ∧ f' = f.stored kf b
  | some (.abandon unit), t, f' => match f.recorded unit with
    | none => t = [] ∧ f' = f.loaded
    | some path =>
      let kf := f.store.removeGroup unit
      ∃ tc b, CallsTrace [.prune (ascii "all") path] tc ∧ t = tc ++ [⟨.saveToFile kf, b⟩] ∧
        f' = f.stored kf b

/-- Stop and abandon alike: nothing where nothing is recorded, and else the
unit's group is removed and saved at the end. -/
theorem OpSpec.release {f f' : Files} {op : Option UnitOp} {t : ShimTrace} {unit : Bytes}
    (h : OpSpec f op t f') (hop : op = some (.stop unit) ∨ op = some (.abandon unit)) :
    (f.recorded unit = none ∧ t = [] ∧ f' = f.loaded) ∨
    ∃ path tc b, f.recorded unit = some path ∧
      t = tc ++ [⟨.saveToFile (f.store.removeGroup unit), b⟩] ∧
      f' = f.stored (f.store.removeGroup unit) b := by
  cases hr : f.recorded unit with
  | none =>
    obtain rfl | rfl := hop
    · simp only [OpSpec, hr] at h
      exact .inl ⟨rfl, h⟩
    · simp only [OpSpec, hr] at h
      exact .inl ⟨rfl, h⟩
  | some path =>
    obtain rfl | rfl := hop
    · simp only [OpSpec, hr] at h
      obtain ⟨tc, b, -, ht, hf⟩ := h
      exact .inr ⟨path, tc, b, rfl, ht, hf⟩
    · simp only [OpSpec, hr] at h
      obtain ⟨tc, b, -, ht, hf⟩ := h
      exact .inr ⟨path, tc, b, rfl, ht, hf⟩

/-- A release that finds nothing recorded at most loads the key file. -/
theorem OpSpec.release_idle {f f' : Files} {op : Option UnitOp} {t : ShimTrace} {unit : Bytes}
    (h : OpSpec f op t f') (hop : op = some (.stop unit) ∨ op = some (.abandon unit))
    (hr : f.recorded unit = none) : t = [] ∧ f' = f.loaded := by
  obtain ⟨-, ht, hf⟩ | ⟨path, tc, b, hsome, -, -⟩ := h.release hop
  · exact ⟨ht, hf⟩
  · rw [hr] at hsome
    cases hsome

/-! The methods of cgroup units. -/

/-- The program makes exactly these calls and leaves the state alone. -/
def Issues {α : Type} (x : ShimM α) (cs : List CgCall) : Prop :=
  ∀ s, Proc.wp x s (fun t o => CallsTrace cs t ∧ ∃ a, o = .ok (a, s))

namespace Issues
variable {α β : Type}

theorem pure (a : α) : Issues (Pure.pure a : ShimM α) [] := fun _ => ⟨rfl, a, rfl⟩

theorem call (c : CgCall) : Issues (cgmanagerCall c) [c] := fun _ r => ⟨rfl, r, rfl⟩

theorem bind {x : ShimM α} {f : α → ShimM β} {cs ds : List CgCall} (hx : Issues x cs)
    (hf : ∀ a, Issues (f a) ds) : Issues (x >>= f) (cs ++ ds) := by
  intro s
  refine Proc.wp_seq (hx s) ?_ (fun _ _ h => by obtain ⟨_, _, h⟩ := h; cases h)
  intro t a s' h
  obtain ⟨ht, _, h⟩ := h
  obtain ⟨rfl, rfl⟩ := Prod.mk.inj (Except.ok.inj h)
  refine Proc.wp_mono (hf a s') (fun t' o h' => ⟨?_, h'.2⟩)
  unfold CallsTrace at ht h' ⊢
  rw [List.map_append, List.map_append, ht, h'.1]

theorem movePids (path : Bytes) (pids : List UInt32) :
    Issues (Shim.movePids path pids)
      (pids.map (fun pid => .movePid (ascii "all") path pid.toInt32)) := by
  induction pids with
  | nil => exact .pure ()
  | cons pid pids ih => exact .bind (.call _) (fun _ => ih)

theorem chownToUser (path : Bytes) (uid : Int) : Issues (Shim.chownToUser path uid)
    (if uid ≠ -1 then [.chown (ascii "all") path uid (-1)] else []) := by
  unfold Shim.chownToUser
  split
  · exact .bind (.call _) (fun _ => .pure ())
  · exact .pure ()

theorem cgmanagerCreate (path : Bytes) (uid : Int) (pids : List UInt32) :
    Issues (Shim.cgmanagerCreate path uid pids) (createCalls path uid pids) := by
  have h := bind (call (.create (ascii "all") (skipSlash path))) (fun _ =>
    bind (chownToUser (skipSlash path) uid) (fun _ => bind (movePids (skipSlash path) pids)
      (fun _ => bind (call (.setValue (ascii "systemd") (skipSlash path)
        (ascii "notify_on_release") (ascii "1"))) (fun _ => pure ()))))
  simp only [List.append_nil] at h
  simp only [createCalls, List.append_assoc]
  exact h

theorem cgmanagerPrune (path : Bytes) :
    Issues (Shim.cgmanagerPrune path) [.prune (ascii "all") path] :=
  .bind (.call _) (fun _ => .pure ())

end Issues

theorem CallsTrace.core {cs : List CgCall} {t : ShimTrace} (h : CallsTrace cs t) :
    core t = t := by
  unfold Shim.core
  rw [List.filter_eq_self]
  intro e he
  have : e.1 ∈ cs.map Act.cgmanagerCall := h ▸ List.mem_map_of_mem he
  obtain ⟨c, -, hc⟩ := List.mem_map.mp this
  simp [← hc, isCgroupAct]

/-! The loop of cgroup_unit_stop. -/

theorem wp_killAll (pids : List Int32) (s : Process) :
    Proc.wp (killAll pids) s (fun t o =>
      t = pids.map (fun pid => ⟨.kill pid, ()⟩) ∧ o = .ok ((), s)) := by
  induction pids with
  | nil => exact ⟨rfl, rfl⟩
  | cons pid pids ih =>
    intro r
    apply Prog.wp_mono ih
    intro t o h
    obtain ⟨rfl, ho⟩ := h
    exact ⟨rfl, ho⟩

theorem wp_cgmanagerKill (path : Bytes) (s : Process) :
    Proc.wp (cgmanagerKill path) s (fun t o => ∃ a s', o = .ok (a, s') ∧ s' = s ∧
      ∃ tasks : Option (List Int32),
        t = ⟨.cgmanagerCall (.getTasksRecursive (ascii "all") path), tasks⟩ ::
          (tasks.getD []).map (fun pid => ⟨.kill pid, ()⟩)) := by
  intro r
  cases r with
  | none => exact ⟨(), s, rfl, rfl, none, rfl⟩
  | some pids =>
    apply Prog.wp_mono (wp_killAll pids s)
    intro t o h
    obtain ⟨rfl, ho⟩ := h
    exact ⟨(), s, ho, rfl, some pids, rfl⟩

theorem wp_stopRound (path : Bytes) (s : Process) :
    Proc.wp (stopRound path) s (fun t o => ∃ removed s', o = .ok (removed, s') ∧ s' = s ∧
      RoundTrace path removed t) := by
  apply Proc.wp_seq_ok (wp_cgmanagerKill path s)
  intro t _ _ h
  obtain ⟨rfl, tasks, rfl⟩ := h
  exact fun r => ⟨r.isSome, _, rfl, rfl, tasks, r, rfl, rfl⟩

theorem wp_stopLoop (path : Bytes) (tries : Nat) (s : Process) :
    Proc.wp (stopLoop path tries) s (fun t o => StopTrace path tries t ∧ o = .ok ((), s)) := by
  induction tries with
  | zero =>
    apply Proc.wp_seq_ok (wp_stopRound path s)
    intro t a s' h
    obtain ⟨rfl, ht⟩ := h
    refine (Proc.wp_pure () s').mpr ⟨?_, rfl⟩
    rw [List.append_nil]
    cases a with
    | true => exact .removed ht
    | false => exact .givenUp ht
  | succ tries ih =>
    apply Proc.wp_seq_ok (wp_stopRound path s)
    intro t a s' h
    obtain ⟨rfl, ht⟩ := h
    cases a with
    | true =>
      refine (Proc.wp_pure () s').mpr ⟨?_, rfl⟩
      rw [List.append_nil]
      exact .removed ht
    | false => exact Proc.wp_mono ih (fun t' o h' => ⟨.again ht h'.1, h'.2⟩)

theorem RoundTrace.core {path : Bytes} {removed : Bool} {t : ShimTrace}
    (h : RoundTrace path removed t) : core t = t := by
  obtain ⟨tasks, reply, rfl, -⟩ := h
  unfold Shim.core
  rw [List.filter_eq_self]
  intro e he
  simp only [List.cons_append, List.mem_cons, List.mem_append, List.mem_map,
    List.not_mem_nil, or_false] at he
  rcases he with rfl | ⟨pid, -, rfl⟩ | rfl <;> rfl

theorem StopTrace.core {path : Bytes} {tries : Nat} {t : ShimTrace} (h : StopTrace path tries t) :
    core t = t := by
  induction h with
  | removed h => exact h.core
  | givenUp h => exact h.core
  | again h _ ih => rw [core_append, h.core, ih]

/-! The operations. -/

theorem does_start (name slice : Bytes) (scope : Option Bytes) (pids : List UInt32) (s : Process) :
    Does (do
      let (path, uid) := cgroupUnitGetPathAndUid slice scope
      cgmanagerCreate path uid pids
      stateSetString name (ascii "path") path) s
        (OpSpec s.files (some (startOp name slice scope pids))) := by
  simp only [startOp, Does]
  refine Proc.wp_seq (Issues.cgmanagerCreate _ _ pids s) ?_
    (fun _ _ h => by obtain ⟨_, _, h⟩ := h; cases h)
  intro t _ s' h
  obtain ⟨ht, _, h⟩ := h
  obtain ⟨-, rfl⟩ := Prod.mk.inj (Except.ok.inj h)
  rw [wp_stateSetString]
  intro b
  refine ⟨(), _, rfl, t, b, ht, ?_, rfl⟩
  rw [core_append, ht.core]
  rfl

/-- Stop and abandon: work on the recorded path, then forget it. -/
theorem does_recorded (name : Bytes) (body : Bytes → ShimM Unit) {P : Bytes → ShimTrace → Prop}
    (s : Process)
    (hb : ∀ path s, Proc.wp (body path) s (fun t o => P path t ∧ ∃ a, o = .ok (a, s)))
    (hc : ∀ path t, P path t → core t = t) :
    Does (do
      match ← stateGetString name (ascii "path") with
      | none => pure ()
      | some path =>
        body path
        stateRemoveUnit name) s (fun t f' => match s.files.recorded name with
      | none => t = [] ∧ f' = s.files.loaded
      | some path =>
        let kf := s.files.store.removeGroup name
        ∃ tc b, P path tc ∧ t = tc ++ [⟨.saveToFile kf, b⟩] ∧ f' = s.files.stored kf b) := by
  unfold Does
  rw [Proc.wp_bind, wp_stateGetString, Proc.andThen_ok]
  simp only [Process.store, ← Files.recorded.eq_1]
  cases hr : s.files.recorded name with
  -- nothing recorded, and nothing done but the load of the key file
  | none => exact ⟨(), _, rfl, rfl, rfl⟩
  | some path =>
    refine Proc.wp_seq (hb path _) ?_ (fun _ _ h => by obtain ⟨_, _, h⟩ := h; cases h)
    intro t _ s' h
    obtain ⟨ht, _, h⟩ := h
    obtain ⟨-, rfl⟩ := Prod.mk.inj (Except.ok.inj h)
    rw [wp_stateRemoveUnit]
    intro b
    refine ⟨(), _, rfl, t, b, ht, ?_, rfl⟩
    rw [List.nil_append, core_append, hc path t ht]
    rfl

theorem does_cgroupUnitStop (name : Bytes) (s : Process) :
    Does (cgroupUnitStop name) s (OpSpec s.files (some (.stop name))) :=
  does_recorded name (fun path => stopLoop path 5) s
    (fun path s => Proc.wp_mono (wp_stopLoop path 5 s) (fun _ _ h => ⟨h.1, (), h.2⟩))
    (fun _ _ h => h.core)

theorem does_cgroupUnitAbandon (name : Bytes) (s : Process) :
    Does (cgroupUnitAbandon name) s (OpSpec s.files (some (.abandon name))) :=
  does_recorded name cgmanagerPrune s (fun path s => Issues.cgmanagerPrune path s)
    (fun _ _ h => h.core)

theorem does_nothing {x : ShimM Unit} (hx : Quiet x) (s : Process) :
    Does x s (OpSpec s.files none) := .quiet hx ⟨rfl, rfl⟩

theorem does_cgroupUnitStart (name : Bytes) (s : Process) :
    Does (cgroupUnitStart name) s (OpSpec s.files (Call.op (.startUnit [] name []))) := by
  unfold cgroupUnitStart
  by_cases h : gStrHasSuffix name (ascii ".slice") = true
  · simp only [Call.op, h, if_true, Bool.not_true, Bool.false_eq_true, if_false]
    exact does_start name name none [] s
  · simp only [Call.op, h, if_false, Bool.not_false, if_true, Bool.false_eq_true]
    exact does_nothing (.pure ()) s

theorem does_cgroupUnitStartTransient (name : Bytes) (properties : List (Bytes × Variant))
    (s : Process) :
    Does (cgroupUnitStartTransient name properties) s
      (OpSpec s.files (Call.op (.startTransientUnit [] name [] properties []))) := by
  unfold cgroupUnitStartTransient
  simp only [readProperties_eq, Call.op]
  by_cases h : gStrHasSuffix name (ascii ".scope") = true
  · simp only [h, if_true, Bool.not_true, Bool.false_eq_true, if_false]
    cases lastStringSlice properties with
    | none => exact does_nothing (.pure ()) s
    | some slice =>
      by_cases hs : gStrHasSuffix slice (ascii ".slice") = true
      · simp only [hs, if_true]
        exact does_start name slice (some name) (allPids properties) s
      · simp only [hs, if_false, Bool.false_eq_true]
        exact does_nothing (.pure ()) s
  · simp only [h, if_false, Bool.not_false, if_true, Bool.false_eq_true]
    exact does_nothing (.pure ()) s

/-! Looking a unit up. -/

/-- A cgroup unit's name is no other unit's. -/
theorem lookupUnit_cgroup {name : Bytes} (h : isCgroupName name = true) :
    lookupUnit name = pure (.ok (.cgroup name)) := by
  have other : ∀ n, isCgroupName n = false → name ≠ n := fun n hn e => by
    rw [e, hn] at h; exact absurd h (by decide)
  have hn : lookupNtp name = pure false := by
    simp only [lookupNtp, other (ascii "ntpd.service") (by decide),
      other (ascii "systemd-timesyncd.service") (by decide), or_self, if_false]
  have hu : unitOfName name false = some (.cgroup name) := by
    simp only [unitOfName, other (ascii "suspend.target") (by decide),
      other (ascii "hibernate.target") (by decide), other (ascii "reboot.target") (by decide),
      other (ascii "shutdown.target") (by decide), other (ascii "poweroff.target") (by decide), h,
      or_self, if_false, if_true]
  unfold lookupUnit
  rw [hn, pure_bind, hu]

theorem unitOfName_other {name : Bytes} (h : isCgroupName name = false) (ntp : Bool) (n : Bytes) :
    unitOfName name ntp ≠ some (.cgroup n) := by
  simp only [unitOfName, h, Bool.false_eq_true, if_false]
  repeat' split
  all_goals simp

/-- Any other name leads to another unit or to an error. -/
theorem wp_lookupUnit_other {name : Bytes} (h : isCgroupName name = false) (s : Process) :
    Proc.wp (lookupUnit name) s (fun t o => ∃ r s', o = .ok (r, s') ∧ core t = [] ∧
      s'.files = s.files ∧ ∀ n, r ≠ .ok (.cgroup n)) := by
  have hq : Quiet (lookupNtp name) := .inquiry (.lookupNtp name)
  unfold lookupUnit
  apply Proc.wp_seq_ok (hq.wp s)
  intro t ntp s' ho
  obtain ⟨ht, hs'⟩ := ho
  cases hu : unitOfName name ntp with
  | some unit =>
    refine (Proc.wp_pure _ s').mpr ⟨_, _, rfl, by rw [List.append_nil]; exact ht, hs', ?_⟩
    intro n e
    obtain rfl := Except.ok.inj e
    exact unitOfName_other h ntp n hu
  | none =>
    exact (Proc.wp_pure _ s').mpr ⟨_, _, rfl, by rw [List.append_nil]; exact ht, hs', nofun⟩

/-- A callback that looks a unit up: its operation if it is a cgroup unit,
nothing if it is another, or none. -/
theorem does_lookupUnit {β : Type} (name : Bytes) (g : Except GError UnitObject → ShimM β)
    {op : Option UnitOp} (s : Process)
    (hcg : isCgroupName name = true → Does (g (.ok (.cgroup name))) s (OpSpec s.files op))
    (hnone : isCgroupName name = false → op = none)
    (hq : ∀ r, (∀ n, r ≠ .ok (.cgroup n)) → Quiet (g r)) :
    Does (lookupUnit name >>= g) s (OpSpec s.files op) := by
  cases h : isCgroupName name with
  | true =>
    rw [lookupUnit_cgroup h]
    exact hcg h
  | false =>
    obtain rfl := hnone h
    apply Proc.wp_seq_ok (wp_lookupUnit_other h s)
    intro t r s' ho
    obtain ⟨ht, hs', hr⟩ := ho
    apply Proc.wp_mono ((hq r hr).wp s')
    intro t' o h
    obtain ⟨a, s'', rfl, ht', hs''⟩ := h
    exact ⟨a, s'', rfl, by rw [core_append, ht, ht']; rfl, hs''.trans hs'⟩

theorem does_withUnit (name : Bytes) (rest : List Variant) (body : Bytes → UnitObject → ShimM Unit)
    {op : Option UnitOp} (s : Process)
    (hcg : isCgroupName name = true → Does (body name (.cgroup name)) s (OpSpec s.files op))
    (hnone : isCgroupName name = false → op = none)
    (hq : ∀ unit, (∀ n, unit ≠ .cgroup n) → Quiet (body name unit)) :
    Does (withUnit (.string name :: rest) body) s (OpSpec s.files op) := by
  rw [withUnit_string]
  apply does_lookupUnit name _ s (fun h => .before (hcg h) (fun _ => .pure _)) hnone
  intro r hr
  cases r with
  | ok unit => exact .bind (hq unit (fun n e => hr n (by rw [e]))) (fun _ => .pure _)
  | error error => exact .pure _

/-! The four handlers. -/

theorem quiet_unitStart {unit : UnitObject} (h : ∀ n, unit ≠ .cgroup n) :
    Quiet (unitStart unit) := by
  cases unit with
  | ntp => exact .inquiry (.ntpUnitSwitch true)
  | power action => exact .powerWork (.powerUnitStart action)
  | cgroup name => exact absurd rfl (h name)

theorem quiet_unitStop {unit : UnitObject} (h : ∀ n, unit ≠ .cgroup n) :
    Quiet (unitStop unit) := by
  cases unit with
  | ntp => exact .inquiry (.ntpUnitSwitch false)
  | power action => exact .pure _
  | cgroup name => exact absurd rfl (h name)

theorem unitStartTransient_other {unit : UnitObject} (h : ∀ n, unit ≠ .cgroup n)
    (properties : List (Bytes × Variant)) : unitStartTransient unit properties = pure () := by
  cases unit with
  | cgroup name => exact absurd rfl (h name)
  | _ => rfl

theorem unitAbandon_other {unit : UnitObject} (h : ∀ n, unit ≠ .cgroup n) :
    unitAbandon unit = pure () := by
  cases unit with
  | cgroup name => exact absurd rfl (h name)
  | _ => rfl

theorem quiet_returnIfError (error : Option GError) : Quiet (returnIfError error) := by
  cases error with
  | none => exact .pure _
  | some error => exact .act rfl

theorem does_shimMethodCall {sender : Bytes} {methodName : String} {parameters : List Variant}
    {s : Process} {P : ShimTrace → Files → Prop}
    (h : Does (shimMethodBranch sender methodName parameters) s P) :
    Does (shimMethodCall sender methodName parameters) s P :=
  .before h (fun error => .bind (quiet_returnIfError error)
    (fun _ => Quiet.housekeeping .hadActivity))

theorem isCgroupName_iff {name : Bytes} : isCgroupName name = true ↔
    gStrHasSuffix name (ascii ".slice") = true ∨ gStrHasSuffix name (ascii ".scope") = true := by
  simp [isCgroupName]

theorem does_startUnit (sender name mode : Bytes) (s : Process) :
    Does (Call.startUnit sender name mode).handle s
      (OpSpec s.files (Call.startUnit sender name mode).op) := by
  refine does_shimMethodCall (does_withUnit name [.string mode] _ s (fun _ => ?_) (fun h => ?_)
    (fun unit hu => ?_))
  · exact .before (does_cgroupUnitStart name s)
      (fun _ => .bind (.act rfl) (fun _ => .act rfl))
  · have : gStrHasSuffix name (ascii ".slice") = false := by
      simp only [isCgroupName, Bool.or_eq_false_iff] at h; exact h.1
    simp only [Call.op, this, Bool.false_eq_true, if_false]
  · exact .bind (quiet_unitStart hu)
      (fun _ => .bind (.act rfl) (fun _ => .act rfl))

theorem does_startTransientUnit (sender name mode : Bytes) (properties : List (Bytes × Variant))
    (aux : List Variant) (s : Process) :
    Does (Call.startTransientUnit sender name mode properties aux).handle s
      (OpSpec s.files (Call.startTransientUnit sender name mode properties aux).op) := by
  have reply : ∀ unit, Quiet (do
      act (.returnValue [.o (ascii "/")])
      let state ← unitGetState unit
      act (.emitSignal (some sender) "JobRemoved"
        [.u 0, .o (ascii "/"), .s state, .s (ascii "done")])) := fun unit =>
    .bind (.act rfl) (fun _ => .bind (Quiet.inquiry (.unitGetState unit))
      (fun _ => .act rfl))
  refine does_shimMethodCall (does_withUnit name (.string mode :: .properties properties :: aux) _ s
    (fun _ => ?_) (fun h => ?_) (fun unit hu => ?_))
  · change Does (unitStartTransient (.cgroup name) properties >>= fun _ => _) s _
    exact .before (does_cgroupUnitStartTransient name properties s) (fun _ => reply (.cgroup name))
  · have : gStrHasSuffix name (ascii ".scope") = false := by
      simp only [isCgroupName, Bool.or_eq_false_iff] at h; exact h.2
    simp only [Call.op, this, Bool.false_eq_true, if_false]
  · refine .bind (.pure properties) (fun properties => ?_)
    rw [unitStartTransient_other hu]
    exact .bind (.pure ()) (fun _ => reply unit)

theorem does_stopUnit (sender name mode : Bytes) (s : Process) :
    Does (Call.stopUnit sender name mode).handle s
      (OpSpec s.files (Call.stopUnit sender name mode).op) := by
  refine does_shimMethodCall (does_withUnit name [.string mode] _ s (fun h => ?_) (fun h => ?_)
    (fun unit hu => ?_))
  · simp only [Call.op, h, if_true]
    exact .before (does_cgroupUnitStop name s)
      (fun _ => .bind (.act rfl) (fun _ => .act rfl))
  · simp only [Call.op, h, Bool.false_eq_true, if_false]
  · exact .bind (quiet_unitStop hu)
      (fun _ => .bind (.act rfl) (fun _ => .act rfl))

theorem does_abandon (node : Bytes) (s : Process) :
    Does (Call.abandon node).handle s (OpSpec s.files (Call.abandon node).op) := by
  rw [Call.handle, Call.request, handle_unit]
  -- the lookup of the node, its dispatch and the call each re-arm the timer
  refine .after (Quiet.housekeeping .hadActivity) (fun _ s₁ h₁ => ?_)
  refine .after (Quiet.housekeeping .hadActivity) (fun _ s₂ h₂ => ?_)
  refine .after (Quiet.housekeeping .hadActivity) (fun _ s₃ h₃ => ?_)
  rw [← h₁, ← h₂, ← h₃]
  refine does_lookupUnit (unescapeObjectPath node) _ s₃ (fun h => ?_) (fun h => ?_) (fun r hr => ?_)
  · simp only [Call.op, h, if_true]
    exact .before (does_cgroupUnitAbandon (unescapeObjectPath node) s₃)
      (fun _ => .act rfl)
  · simp only [Call.op, h, Bool.false_eq_true, if_false]
  · cases r with
    | error error => exact .act rfl
    | ok unit =>
      have hu : ∀ n, unit ≠ .cgroup n := fun n e => hr n (by rw [e])
      show Quiet (unitAbandon unit >>= fun _ => _)
      rw [unitAbandon_other hu]
      exact .bind (.pure ()) (fun _ => .act rfl)

/-- Each call does its operation. -/
theorem handle_spec (c : Call) (s : Process) : Does c.handle s (OpSpec s.files c.op) := by
  cases c with
  | startUnit sender name mode => exact does_startUnit sender name mode s
  | startTransientUnit sender name mode properties aux =>
    exact does_startTransientUnit sender name mode properties aux s
  | stopUnit sender name mode => exact does_stopUnit sender name mode s
  | abandon node => exact does_abandon node s

end Shim
