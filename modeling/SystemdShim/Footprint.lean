import SystemdShim.Dispatch

/- What each function may touch. An inquiry (looking a unit up, everything about
   ntp) changes nothing of the process; housekeeping is that and the timer, and
   changes only the handle of the timer; power_unit_start changes only the flag
   and the time that are its own; the cgroup methods only the key file. A fact
   about requests as a whole is put together from these by `Closed.handle`,
   whatever it is about: what holds of the pieces of a callback, and is kept by
   putting programs together, holds of every callback. -/
namespace Shim
open Effects

def isHousekeeping : Act → Bool
  | .timeoutAdd _ => true
  | .sourceRemove _ => true
  | .testExists _ => true
  | .spawnSync _ => true
  | .rename _ _ => true
  | .detectVirtualization => true
  | _ => false

/-- The acts of housekeeping that leave the timer alone. -/
def isInquiry : Act → Bool
  | .testExists _ => true
  | .spawnSync _ => true
  | .rename _ _ => true
  | .detectVirtualization => true
  | _ => false

def isPowerAct : Act → Bool
  | .getpid => true
  | .fileSetContents _ _ => true
  | .system _ => true
  | .testExecutable _ => true
  | .openForWriting _ => true
  | .write _ _ => true
  | .close _ => true
  | .getMonotonicTime => true
  | _ => false

/-- The acts that work on cgroups and on the recorded state. -/
def isCgroupAct : Act → Bool
  | .cgmanagerCall _ => true
  | .kill _ => true
  | .saveToFile _ => true
  | _ => false

/-- Only the handle of the timer is another. -/
def TimerChange (s s' : Process) : Prop :=
  s' = { s with inactivityTimeout := s'.inactivityTimeout }

/-- Only the variables of power_unit_start are others; the flag is never
cleared. -/
def PowerChange (s s' : Process) : Prop :=
  s' = { s with inShutdown := s'.inShutdown, lastSuspendTime := s'.lastSuspendTime } ∧
    (s.inShutdown = true → s'.inShutdown = true)

/-- Only the key file and the state file are others. -/
def FilesChange (s s' : Process) : Prop := s' = s.setFiles s'.files

variable {α : Type}

def Inquiry (x : ShimM α) : Prop := Proc.Footprint isInquiry (fun s s' : Process => s' = s) x
def Housekeeping (x : ShimM α) : Prop := Proc.Footprint isHousekeeping TimerChange x
def PowerWork (x : ShimM α) : Prop := Proc.Footprint isPowerAct PowerChange x
def CgroupWork (x : ShimM α) : Prop := Proc.Footprint isCgroupAct FilesChange x

namespace Inquiry
theorem ntpUnitGet : Inquiry Shim.ntpUnitGet :=
  .bind (.act rfl) (fun _ => .ite (.pure _) (.act rfl))

theorem ntpUnitGetUsingNtpdate : Inquiry Shim.ntpUnitGetUsingNtpdate :=
  .bind (.act rfl) (fun _ => .ite (.act rfl) (.pure _))

theorem ntpUnitGetUsingNtpd : Inquiry Shim.ntpUnitGetUsingNtpd :=
  .bind (.act rfl) (fun _ => .ite (.bind (.act rfl) (fun _ => .pure _)) (.pure _))

theorem ntpUnitSwitch (usingNtp : Bool) : Inquiry (Shim.ntpUnitSwitch usingNtp) := by
  refine .bind (.bind (.act rfl) (fun _ => .ite ?_ (.pure _)))
    (fun _ => .bind (.act rfl) (fun _ => .ite ?_ (.pure _)))
  · exact .bind ntpUnitGetUsingNtpdate (fun _ => .ite (.pure _)
      (.ite (.bind (.act rfl) (fun _ => .bind (.act rfl) (fun _ => .pure _))) (.act rfl)))
  · exact .bind (.act rfl) (fun _ => .bind (.act rfl) (fun _ => .pure _))

theorem ntpUnitGetState : Inquiry Shim.ntpUnitGetState :=
  .bind ntpUnitGetUsingNtpdate (fun _ => .ite (.pure _)
    (.bind ntpUnitGetUsingNtpd (fun _ => .ite (.pure _) (.pure _))))

theorem lookupNtp (unitName : Bytes) : Inquiry (Shim.lookupNtp unitName) :=
  .ite ntpUnitGet (.pure _)

theorem lookupUnit (unitName : Bytes) : Inquiry (Shim.lookupUnit unitName) := by
  apply Proc.Footprint.bind (lookupNtp unitName)
  intro ntp
  cases unitOfName unitName ntp with
  | some unit => exact .pure _
  | none => exact .pure _

theorem unitGetState (unit : UnitObject) : Inquiry (Shim.unitGetState unit) := by
  cases unit with
  | ntp => exact ntpUnitGetState
  | power action => exact .pure _
  | cgroup name => exact .pure _

theorem housekeeping {x : ShimM α} (hx : Inquiry x) : Housekeeping x :=
  hx.mono (fun a ha => by cases a <;> first | rfl | cases ha) (fun _ _ h => by rw [h]; rfl)

end Inquiry

namespace Housekeeping
theorem hadActivity : Housekeeping Shim.hadActivity :=
  .bind .get (fun _ => .bind (.ite (.act rfl) (.pure _)) (fun _ => .bind (.act rfl)
    (fun _ => .modify (fun _ => rfl))))

theorem shimGetProperty (systemdVersion : Nat) (propertyName : String) :
    Housekeeping (Shim.shimGetProperty systemdVersion propertyName) :=
  .bind hadActivity (fun _ => .ite (.bind (.act rfl) (fun _ => .pure _)) (.ite (.pure _) (.pure _)))

theorem shimUnitGetProperty (propertyName : String) :
    Housekeeping (Shim.shimUnitGetProperty propertyName) :=
  .bind hadActivity (fun _ => .ite (.pure _) (.pure _))

theorem shimUnitsIntrospect (node : Option Bytes) : Housekeeping (Shim.shimUnitsIntrospect node) :=
  .bind hadActivity (fun _ => .pure _)

theorem shimUnitsDispatch (node : Option Bytes) : Housekeeping (Shim.shimUnitsDispatch node) :=
  .bind hadActivity (fun _ => .pure _)

end Housekeeping

namespace PowerWork
theorem suspendedJustNow (action : PowerAction) : PowerWork (Shim.suspendedJustNow action) :=
  .ite (.bind .get (fun _ => .bind (.act rfl) (fun _ => .pure _))) (.pure _)

theorem performSleep (action : PowerAction) : PowerWork (Shim.performSleep action) :=
  .bind (.act rfl) (fun _ => .ite (.bind (.act rfl) (fun _ => .pure _))
    (.bind (.act rfl) (fun _ => .ite (.pure _)
      (.bind (.act rfl) (fun _ => .bind (.act rfl) (fun _ => .pure _))))))

theorem powerUnitStart (action : PowerAction) : PowerWork (Shim.powerUnitStart action) := by
  refine .ite ?_ (.bind .get (fun _ => .ite (.pure _) (.bind (suspendedJustNow action)
    (fun _ => .ite (.pure _) (.bind (performSleep action)
      (fun _ => .ite (.ite ?_ (.pure _)) (.pure _)))))))
  · exact .bind (.modify (fun _ => ⟨rfl, fun _ => rfl⟩)) (fun _ => .bind (.act rfl)
      (fun _ => .bind (.act rfl) (fun _ => .bind (.act rfl) (fun _ => .pure _))))
  · exact .bind (.act rfl) (fun _ => .modify (fun _ => ⟨rfl, id⟩))

end PowerWork

namespace CgroupWork
theorem stateListUnits : CgroupWork Shim.stateListUnits := fun _ hJ s hs =>
  wp_stateListUnits.mpr ⟨by simp, hJ s _ rfl hs⟩

theorem stateGetString (unit key : Bytes) : CgroupWork (Shim.stateGetString unit key) :=
  fun _ hJ s hs => wp_stateGetString.mpr ⟨by simp, hJ s _ rfl hs⟩

theorem stateSetString (unit key value : Bytes) : CgroupWork (Shim.stateSetString unit key value) :=
  fun _ hJ s hs => wp_stateSetString.mpr
    (fun _ => ⟨by simp [isCgroupAct], hJ s _ rfl hs⟩)

theorem stateRemoveUnit (unit : Bytes) : CgroupWork (Shim.stateRemoveUnit unit) :=
  fun _ hJ s hs => wp_stateRemoveUnit.mpr
    (fun _ => ⟨by simp [isCgroupAct], hJ s _ rfl hs⟩)

theorem movePids (path : Bytes) (pids : List UInt32) : CgroupWork (Shim.movePids path pids) := by
  induction pids with
  | nil => exact .pure ()
  | cons pid pids ih => exact .bind (.act rfl) (fun _ => ih)

theorem cgmanagerCreate (path : Bytes) (uid : Int) (pids : List UInt32) :
    CgroupWork (Shim.cgmanagerCreate path uid pids) :=
  .bind (.act rfl) (fun _ => .bind (.ite (.bind (.act rfl) (fun _ => .pure ())) (.pure ()))
    (fun _ => .bind (movePids _ pids) (fun _ => .bind (.act rfl) (fun _ => .pure ()))))

theorem killAll (pids : List Int32) : CgroupWork (Shim.killAll pids) := by
  induction pids with
  | nil => exact .pure ()
  | cons pid pids ih => exact .bind (.act rfl) (fun _ => ih)

theorem stopRound (path : Bytes) : CgroupWork (Shim.stopRound path) := by
  refine .bind (.bind (.act rfl) (fun reply => ?_)) (fun _ => .bind (.act rfl) (fun _ => .pure _))
  cases reply with
  | some pids => exact killAll pids
  | none => exact .pure ()

theorem stopLoop (path : Bytes) (tries : Nat) : CgroupWork (Shim.stopLoop path tries) := by
  induction tries with
  | zero => exact .bind (stopRound path) (fun _ => .pure ())
  | succ tries ih => exact .bind (stopRound path) (fun _ => .ite (.pure ()) ih)

theorem cgroupUnitStart (name : Bytes) : CgroupWork (Shim.cgroupUnitStart name) :=
  .ite (.pure ()) (.bind (cgmanagerCreate _ _ _) (fun _ => stateSetString _ _ _))

theorem cgroupUnitStartTransient (name : Bytes) (properties : List (Bytes × Variant)) :
    CgroupWork (Shim.cgroupUnitStartTransient name properties) := by
  unfold Shim.cgroupUnitStartTransient
  rcases readProperties properties with ⟨_ | slice, pids⟩
  · exact .ite (.pure ()) (.pure ())
  · exact .ite (.pure ())
      (.ite (.bind (cgmanagerCreate _ _ _) (fun _ => stateSetString _ _ _)) (.pure ()))

theorem cgroupUnitStop (name : Bytes) : CgroupWork (Shim.cgroupUnitStop name) := by
  refine .bind (stateGetString _ _) (fun path => ?_)
  cases path with
  | none => exact .pure ()
  | some path => exact .bind (stopLoop path 5) (fun _ => stateRemoveUnit name)

theorem cgroupUnitAbandon (name : Bytes) : CgroupWork (Shim.cgroupUnitAbandon name) := by
  refine .bind (stateGetString _ _) (fun path => ?_)
  cases path with
  | none => exact .pure ()
  | some path =>
    exact .bind (.bind (.act rfl) (fun _ => .pure ())) (fun _ => stateRemoveUnit name)

end CgroupWork

/-! The methods of a unit. -/

/-- What the methods of a unit do is work of one of the three kinds. -/
inductive UnitWork : ShimM Unit → Prop where
  | housekeeping {x : ShimM Unit} (hx : Housekeeping x) : UnitWork x
  | power (action : PowerAction) : UnitWork (powerUnitStart action)
  | cgroup {x : ShimM Unit} (hx : CgroupWork x) : UnitWork x

namespace UnitWork

theorem unitStart (unit : UnitObject) : UnitWork (Shim.unitStart unit) := by
  cases unit with
  | ntp => exact .housekeeping (Inquiry.ntpUnitSwitch true).housekeeping
  | power action => exact .power action
  | cgroup name => exact .cgroup (.cgroupUnitStart name)

theorem unitStartTransient (unit : UnitObject) (properties : List (Bytes × Variant)) :
    UnitWork (Shim.unitStartTransient unit properties) := by
  cases unit with
  | cgroup name => exact .cgroup (.cgroupUnitStartTransient name properties)
  | _ => exact .housekeeping (.pure ())

theorem unitStop (unit : UnitObject) : UnitWork (Shim.unitStop unit) := by
  cases unit with
  | ntp => exact .housekeeping (Inquiry.ntpUnitSwitch false).housekeeping
  | power action => exact .housekeeping (.pure ())
  | cgroup name => exact .cgroup (.cgroupUnitStop name)

theorem unitAbandon (unit : UnitObject) : UnitWork (Shim.unitAbandon unit) := by
  cases unit with
  | cgroup name => exact .cgroup (.cgroupUnitAbandon name)
  | _ => exact .housekeeping (.pure ())

end UnitWork

/-! Requests as a whole. -/

/-- A property of programs that the pieces of the callbacks have, all but
power_unit_start, and that is kept by putting programs together. -/
structure Closed (C : (α : Type) → ShimM α → Prop) : Prop where
  pure : ∀ {α : Type} (a : α), C α (Pure.pure a)
  bind : ∀ {α β : Type} {x : ShimM α} {f : α → ShimM β}, C α x → (∀ a, C β (f a)) → C β (x >>= f)
  halt : ∀ {α : Type} {h : Halt}, (∀ status, h ≠ .exit status) → C α (Shim.halt h)
  inquiry : ∀ {α : Type} {x : ShimM α}, Inquiry x → C α x
  hadActivity : C Unit Shim.hadActivity
  cgroup : ∀ {α : Type} {x : ShimM α}, CgroupWork x → C α x
  returnValue : ∀ value, C Unit (act (.returnValue value))
  returnGError : ∀ error, C Unit (act (.returnGError error))
  emitSignal : ∀ destination name value, C Unit (act (.emitSignal destination name value))

/-- The names that lookup_unit tries ntp_unit_get for. -/
def isNtpName (unitName : Bytes) : Bool :=
  unitName == ascii "ntpd.service" || unitName == ascii "systemd-timesyncd.service"

/-- Whether the first argument is such a name. -/
def namesNtp (parameters : List Variant) : Bool :=
  match (parameters[0]? : Option Variant) with
  | some (.string unitName) => isNtpName unitName
  | _ => false

/-- The requests that start or stop the ntp unit. -/
def Request.switchesNtp : Request → Option Bool
  | .manager _ methodName parameters =>
    if !namesNtp parameters then none
    else if methodName = "StartUnit" then some true
    else if methodName = "StopUnit" then some false
    else none
  | _ => none

/-- The power unit that a request starts. -/
def Request.startsPower : Request → Option PowerAction
  | .manager _ methodName parameters =>
    if methodName = "StartUnit" then
      match (parameters[0]? : Option Variant) with
      | some (.string unitName) =>
        match unitOfName unitName false with
        | some (.power action) => some action
        | _ => none
      | _ => none
    else none
  | _ => none

/-- The same, where it matters which of the inquiries are made and for which
requests: ntp_unit_start and ntp_unit_stop are not among the pieces, and neither is
power_unit_start. -/
structure Pieces (C : (α : Type) → ShimM α → Prop) : Prop where
  pure : ∀ {α : Type} (a : α), C α (Pure.pure a)
  bind : ∀ {α β : Type} {x : ShimM α} {f : α → ShimM β}, C α x → (∀ a, C β (f a)) → C β (x >>= f)
  halt : ∀ {α : Type} {h : Halt}, (∀ status, h ≠ .exit status) → C α (Shim.halt h)
  ntpUnitGet : C Bool Shim.ntpUnitGet
  ntpUnitGetState : C Bytes Shim.ntpUnitGetState
  detectVirtualization : C Bytes (act .detectVirtualization)
  hadActivity : C Unit Shim.hadActivity
  cgroup : ∀ {α : Type} {x : ShimM α}, CgroupWork x → C α x
  returnValue : ∀ value, C Unit (act (.returnValue value))
  returnGError : ∀ error, C Unit (act (.returnGError error))
  emitSignal : ∀ destination name value, C Unit (act (.emitSignal destination name value))

theorem Closed.pieces {C : (α : Type) → ShimM α → Prop} (hC : Closed C) : Pieces C where
  pure := hC.pure
  bind := hC.bind
  halt := hC.halt
  ntpUnitGet := hC.inquiry .ntpUnitGet
  ntpUnitGetState := hC.inquiry .ntpUnitGetState
  detectVirtualization := hC.inquiry (.act rfl)
  hadActivity := hC.hadActivity
  cgroup := hC.cgroup
  returnValue := hC.returnValue
  returnGError := hC.returnGError
  emitSignal := hC.emitSignal

/-- The error of lookup_unit. -/
def unknownUnit (unitName : Bytes) : GError :=
  ⟨"G_DBUS_ERROR_FILE_NOT_FOUND", ascii "Unknown unit: " ++ unitName⟩

theorem lookupUnit_bind {β : Type} (unitName : Bytes) (f : Except GError UnitObject → ShimM β) :
    lookupUnit unitName >>= f = lookupNtp unitName >>= fun ntp =>
      f ((unitOfName unitName ntp).elim (.error (unknownUnit unitName)) .ok) := by
  unfold lookupUnit
  rw [bind_assoc]
  congr 1
  funext ntp
  cases unitOfName unitName ntp <;> exact pure_bind _ _

theorem unitOfName_ntp {unitName : Bytes} {ntp : Bool} (h : unitOfName unitName ntp = some .ntp) :
    ntp = true := by
  unfold unitOfName at h
  repeat' split at h
  all_goals first | assumption | cases h

/-- The tests for a power unit come before what is found of ntp matters. -/
theorem unitOfName_power_false {unitName : Bytes} {ntp : Bool} {action : PowerAction}
    (h : unitOfName unitName ntp = some (.power action)) :
    unitOfName unitName false = some (.power action) := by
  cases ntp with
  | false => exact h
  | true =>
    unfold unitOfName at h ⊢
    repeat' split at h
    all_goals simp_all

namespace Pieces
variable {C : (α : Type) → ShimM α → Prop} (hC : Pieces C)
include hC

theorem unitStop (unit : UnitObject) (hN : unit = .ntp → C Unit (ntpUnitSwitch false)) :
    C Unit (Shim.unitStop unit) := by
  cases unit with
  | ntp => exact hN rfl
  | power action => exact hC.pure ()
  | cgroup name => exact hC.cgroup (.cgroupUnitStop name)

theorem unitStart (unit : UnitObject)
    (hP : ∀ action, unit = .power action → C Unit (powerUnitStart action))
    (hN : unit = .ntp → C Unit (ntpUnitSwitch true)) : C Unit (Shim.unitStart unit) := by
  cases unit with
  | ntp => exact hN rfl
  | power action => exact hP action rfl
  | cgroup name => exact hC.cgroup (.cgroupUnitStart name)

theorem unitStartTransient (unit : UnitObject) (properties : List (Bytes × Variant)) :
    C Unit (Shim.unitStartTransient unit properties) := by
  cases unit with
  | cgroup name => exact hC.cgroup (.cgroupUnitStartTransient name properties)
  | _ => exact hC.pure ()

theorem unitAbandon (unit : UnitObject) : C Unit (Shim.unitAbandon unit) := by
  cases unit with
  | cgroup name => exact hC.cgroup (.cgroupUnitAbandon name)
  | _ => exact hC.pure ()

theorem unitGetState (unit : UnitObject) : C Bytes (Shim.unitGetState unit) := by
  cases unit with
  | ntp => exact hC.ntpUnitGetState
  | _ => exact hC.pure _

theorem returnConstant (value : List Arg) : C (Option GError) (Shim.returnConstant value) :=
  hC.bind (hC.returnValue _) (fun _ => hC.pure _)

/-- The unit found has the name; the ntp unit has one of its own. -/
theorem lookupUnit {β : Type} (unitName : Bytes) {f : Except GError UnitObject → ShimM β}
    (hok : ∀ unit ntp, unitOfName unitName ntp = some unit →
      (unit = .ntp → isNtpName unitName = true) → C β (f (.ok unit)))
    (herror : ∀ error, C β (f (.error error))) : C β (Shim.lookupUnit unitName >>= f) := by
  have hfound : ∀ ntp, (ntp = true → isNtpName unitName = true) →
      C β (f ((unitOfName unitName ntp).elim (.error (unknownUnit unitName)) .ok)) := by
    intro ntp hntp
    cases hunit : unitOfName unitName ntp with
    | some unit =>
      apply hok unit ntp hunit
      intro h
      exact hntp (unitOfName_ntp (hunit.trans (congrArg some h)))
    | none => exact herror _
  rw [lookupUnit_bind]
  unfold lookupNtp
  split
  · rename_i h
    refine hC.bind hC.ntpUnitGet (fun ntp => hfound ntp (fun _ => ?_))
    simpa [isNtpName] using h
  · rw [pure_bind]
    exact hfound false (fun h => absurd h Bool.false_ne_true)

theorem withUnit (parameters : List Variant) (body : Bytes → UnitObject → ShimM Unit)
    (hb : ∀ name unit ntp, (parameters[0]? : Option Variant) = some (.string name) →
      unitOfName name ntp = some unit → (unit = .ntp → namesNtp parameters = true) →
        C Unit (body name unit)) :
    C (Option GError) (Shim.withUnit parameters body) := by
  unfold Shim.withUnit getChildString
  split
  · rename_i name hname
    rw [pure_bind]
    apply hC.lookupUnit name
    · intro unit ntp hunit hntp
      refine hC.bind (hb name unit ntp hname hunit (fun h => ?_)) (fun _ => hC.pure _)
      unfold namesNtp
      rw [hname]
      exact hntp h
    · exact fun error => hC.pure _
  · exact hC.halt nofun

theorem shimMethodBranch (sender : Bytes) (methodName : String) (parameters : List Variant)
    (hP : ∀ action, (Request.manager sender methodName parameters).startsPower = some action →
      C Unit (powerUnitStart action))
    (hN : ∀ usingNtp, (Request.manager sender methodName parameters).switchesNtp = some usingNtp →
      C Unit (ntpUnitSwitch usingNtp)) :
    C (Option GError) (Shim.shimMethodBranch sender methodName parameters) := by
  unfold Shim.shimMethodBranch
  split
  · exact hC.withUnit _ _ (fun _ unit _ _ _ _ => hC.bind (hC.unitGetState unit)
      (fun _ => hC.returnValue _))
  · repeat' split
    · exact hC.returnConstant _
    · exact hC.returnConstant _
    · exact hC.returnConstant _
    · exact hC.returnConstant _
    · exact hC.returnConstant _
    · rename_i hmethod
      have hswitch : namesNtp parameters = true → C Unit (ntpUnitSwitch false) := by
        intro h
        exact hN false (by simp [Request.switchesNtp, h, hmethod])
      exact hC.withUnit _ _ (fun _ unit _ _ _ hntp =>
        hC.bind (hC.unitStop unit (fun h => hswitch (hntp h)))
          (fun _ => hC.bind (hC.returnValue _) (fun _ => hC.emitSignal _ _ _)))
    · rename_i hmethod
      have hswitch : namesNtp parameters = true → C Unit (ntpUnitSwitch true) := by
        intro h
        exact hN true (by simp [Request.switchesNtp, h, hmethod])
      apply hC.withUnit
      intro name unit ntp hname hunit hntp
      refine hC.bind (hC.unitStart unit ?_ (fun h => hswitch (hntp h)))
        (fun _ => hC.bind (hC.returnValue _) (fun _ => hC.emitSignal _ _ _))
      intro action h
      apply hP action
      subst h
      simp [Request.startsPower, hmethod, hname, unitOfName_power_false hunit]
    · apply hC.withUnit
      intro _ unit _ _ _ _
      apply hC.bind
      · unfold getChildProperties
        split
        · exact hC.pure _
        · exact hC.halt nofun
      · intro properties
        exact hC.bind (hC.unitStartTransient unit properties) (fun _ => hC.bind (hC.returnValue _)
          (fun _ => hC.bind (hC.unitGetState unit) (fun _ => hC.emitSignal _ _ _)))
    · exact hC.halt nofun

theorem returnIfError (error : Option GError) : C Unit (Shim.returnIfError error) := by
  cases error with
  | some error => exact hC.returnGError error
  | none => exact hC.pure _

theorem shimUnitsIntrospect (node : Option Bytes) :
    C (List InterfaceInfo) (Shim.shimUnitsIntrospect node) :=
  hC.bind hC.hadActivity (fun _ => hC.pure _)

theorem shimUnitsDispatch (node : Option Bytes) :
    C (Option Bytes) (Shim.shimUnitsDispatch node) :=
  hC.bind hC.hadActivity (fun _ => hC.pure _)

theorem shimGetProperty (systemdVersion : Nat) (propertyName : String) :
    C (Option Arg) (Shim.shimGetProperty systemdVersion propertyName) := by
  apply hC.bind hC.hadActivity
  intro _
  split
  · exact hC.bind hC.detectVirtualization (fun _ => hC.pure _)
  · split
    · exact hC.pure _
    · exact hC.pure _

theorem shimUnitGetProperty (propertyName : String) :
    C (Option Arg) (Shim.shimUnitGetProperty propertyName) := by
  apply hC.bind hC.hadActivity
  intro _
  split
  · exact hC.pure _
  · exact hC.pure _

theorem returnProperty (value : Option Arg) : C Unit (Shim.returnProperty value) := by
  cases value with
  | some v => exact hC.returnValue _
  | none => exact hC.returnGError _

theorem shimUnitMethodCall (node : Option Bytes) (methodName : String) :
    C Unit (Shim.shimUnitMethodCall node methodName) := by
  apply hC.bind hC.hadActivity
  intro _
  split
  · cases node with
    | none => exact hC.halt nofun
    | some node =>
      apply hC.lookupUnit
      · exact fun unit _ _ _ => hC.bind (hC.unitAbandon unit) (fun _ => hC.returnValue _)
      · exact fun error => hC.returnGError error
  · exact hC.halt nofun

/-- Every request has the property; power units and the ntp unit are started and
stopped by those that say so. -/
theorem handle {systemdVersion : Nat} (r : Request)
    (hP : ∀ action, r.startsPower = some action → C Unit (powerUnitStart action))
    (hN : ∀ usingNtp, r.switchesNtp = some usingNtp → C Unit (ntpUnitSwitch usingNtp)) :
    C Unit (r.handle systemdVersion) := by
  cases r with
  | manager sender methodName parameters =>
    exact hC.bind (hC.shimMethodBranch sender methodName parameters hP hN)
      (fun error => hC.bind (hC.returnIfError error) (fun _ => hC.hadActivity))
  | managerProperty propertyName =>
    exact hC.bind (hC.shimGetProperty _ _) (fun value => hC.returnProperty value)
  | unit node methodName =>
    exact hC.bind (hC.shimUnitsIntrospect _) (fun _ => hC.bind (hC.shimUnitsDispatch _)
      (fun _ => hC.shimUnitMethodCall _ _))
  | unitProperty node propertyName =>
    exact hC.bind (hC.shimUnitsIntrospect _) (fun _ => hC.bind (hC.shimUnitsDispatch _)
      (fun _ => hC.bind (hC.shimUnitGetProperty _) (fun value => hC.returnProperty value)))
  | enumerate =>
    exact hC.bind (hC.bind hC.hadActivity (fun _ => hC.bind (hC.cgroup .stateListUnits)
      (fun _ => hC.pure _))) (fun _ => hC.returnValue _)
  | introspect node => exact hC.bind (hC.shimUnitsIntrospect _) (fun _ => hC.returnValue _)

end Pieces

/-- Every request has the property; only those of the manager start units. -/
theorem Closed.handle {C : (α : Type) → ShimM α → Prop} (hC : Closed C) {systemdVersion : Nat}
    (r : Request) (hP : ∀ sender methodName parameters, r = .manager sender methodName parameters →
      ∀ action, C Unit (powerUnitStart action)) : C Unit (r.handle systemdVersion) := by
  refine hC.pieces.handle r ?_ (fun usingNtp _ => hC.inquiry (.ntpUnitSwitch usingNtp))
  intro action h
  cases r with
  | manager sender methodName parameters => exact hP sender methodName parameters rfl action
  | _ => cases h

/-! Invariants. -/

section Keeps
variable {J : Process → Prop} {E : Event Ans → Prop} {K : Halt → Prop}
  (hT : ∀ s s', TimerChange s s' → J s → J s') (hF : ∀ s s', FilesChange s s' → J s → J s')
  (hP : ∀ action, Proc.Keeps J E K (powerUnitStart action))
  (hE : ∀ e : Event Ans, isPowerAct e.1 = false → e.1 ≠ .flushSync → E e)
  (hK : ∀ h, (∀ status, h ≠ .exit status) → K h)

include hT hE in
theorem keeps_housekeeping {x : ShimM α} (hx : Housekeeping x) : Proc.Keeps J E K x :=
  hx.keeps hT (fun e he => hE e (by revert he; cases e.1 <;> simp [isHousekeeping, isPowerAct])
    (by intro h; rw [h] at he; cases he))

include hF hE in
theorem keeps_cgroupWork {x : ShimM α} (hx : CgroupWork x) : Proc.Keeps J E K x :=
  hx.keeps hF (fun e he => hE e (by revert he; cases e.1 <;> simp [isCgroupAct, isPowerAct])
    (by intro h; rw [h] at he; cases he))

include hT hF hE hK in
theorem closed_keeps : Closed (fun _ x => Proc.Keeps J E K x) where
  pure := .pure
  bind := .bind
  halt h := .halt (hK _ h)
  inquiry hx := keeps_housekeeping hT hE hx.housekeeping
  hadActivity := keeps_housekeeping hT hE .hadActivity
  cgroup := keeps_cgroupWork hF hE
  returnValue _ := .act (fun _ => hE _ rfl nofun)
  returnGError _ := .act (fun _ => hE _ rfl nofun)
  emitSignal _ _ _ := .act (fun _ => hE _ rfl nofun)

include hT hF hP hE hK in
/-- What the units' own methods keep, every request keeps; none exits. -/
theorem keeps_handle (systemdVersion : Nat) (r : Request) :
    Proc.Keeps J E K (r.handle systemdVersion) :=
  (closed_keeps hT hF hE hK).handle r (fun _ _ _ _ => hP)

end Keeps
end Shim
