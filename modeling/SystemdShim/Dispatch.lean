import SystemdShim.ObjectPath
import SystemdShim.Unit

/- systemd-shim.c: the inactivity timer, and the callbacks GDBus runs for each
   request. A callback's `goto success` is `none`; an error left over is the
   reply. -/
namespace Shim
open Effects

/-- The timeout callback; returns when a shutdown is under way. -/
def exitOnInactivity : ShimM Unit := do
  if (← get).inShutdown then pure ()
  else
    act .flushSync
    halt (.exit 0)

/-- `if (inactivity_timeout) g_source_remove (inactivity_timeout);` -/
def removeTimeout (inactivityTimeout : Nat) : ShimM Unit :=
  if inactivityTimeout ≠ 0 then act (.sourceRemove inactivityTimeout) else pure ()

def hadActivity : ShimM Unit := do
  let s ← get
  removeTimeout s.inactivityTimeout
  let id ← act (.timeoutAdd 10000)
  modify (fun s => { s with inactivityTimeout := id })

/-- `g_variant_get_child (parameters, i, "&s", ..)`. -/
def getChildString (parameters : List Variant) (i : Nat) : ShimM Bytes :=
  match parameters[i]? with
  | some (.string v) => pure v
  | _ => halt .wrongVariantType

/-- `g_variant_get_child_value (parameters, i)`, used as an `a(sv)`. -/
def getChildProperties (parameters : List Variant) (i : Nat) :
    ShimM (List (Bytes × Variant)) :=
  match parameters[i]? with
  | some (.properties vs) => pure vs
  | _ => halt .wrongVariantType

/-- The branches that look up the unit their first argument names. -/
def withUnit (parameters : List Variant) (body : Bytes → UnitObject → ShimM Unit) :
    ShimM (Option GError) := do
  let unitName ← getChildString parameters 0
  match ← lookupUnit unitName with
  | .ok unit =>
    body unitName unit
    pure none
  | .error error => pure (some error)

/-- A branch that answers with a constant. -/
def returnConstant (value : List Arg) : ShimM (Option GError) := do
  act (.returnValue value)
  pure none

def getUnitFileState (parameters : List Variant) : ShimM (Option GError) :=
  withUnit parameters fun _ unit => do
    let state ← unitGetState unit
    act (.returnValue [.s state])

def stopUnit (parameters : List Variant) : ShimM (Option GError) :=
  withUnit parameters fun unitName unit => do
    unitStop unit
    act (.returnValue [.o (ascii "/")])
    act (.emitSignal none "UnitRemoved" [.s unitName, .o (ascii "/")])

def startUnit (sender : Bytes) (parameters : List Variant) : ShimM (Option GError) :=
  withUnit parameters fun _ unit => do
    unitStart unit
    act (.returnValue [.o (ascii "/")])
    act (.emitSignal (some sender) "JobRemoved" [.u 0, .o (ascii "/"), .s [], .s []])

def startTransientUnit (sender : Bytes) (parameters : List Variant) : ShimM (Option GError) :=
  withUnit parameters fun _ unit => do
    let properties ← getChildProperties parameters 2
    unitStartTransient unit properties
    act (.returnValue [.o (ascii "/")])
    let state ← unitGetState unit
    act (.emitSignal (some sender) "JobRemoved" [.u 0, .o (ascii "/"), .s state, .s (ascii "done")])

/-- The if-chain of shim_method_call. -/
def shimMethodBranch (sender : Bytes) (methodName : String) (parameters : List Variant) :
    ShimM (Option GError) :=
  if methodName = "GetUnitFileState" then getUnitFileState parameters
  else if methodName = "DisableUnitFiles" then returnConstant [.emptyArray "(sss)"]
  else if methodName = "EnableUnitFiles" then returnConstant [.b true, .emptyArray "(sss)"]
  else if methodName = "Reload" then returnConstant []
  else if methodName = "Subscribe" then returnConstant []
  else if methodName = "Unsubscribe" then returnConstant []
  else if methodName = "StopUnit" then stopUnit parameters
  else if methodName = "StartUnit" then startUnit sender parameters
  else if methodName = "StartTransientUnit" then startTransientUnit sender parameters
  else halt .assertNotReached

/-- The end of the chain: an error falls through to the reply, a success jumps
over it. -/
def returnIfError : Option GError → ShimM Unit
  | some error => act (.returnGError error)
  | none => pure ()

def shimMethodCall (sender : Bytes) (methodName : String) (parameters : List Variant) :
    ShimM Unit := do
  let error ← shimMethodBranch sender methodName parameters
  returnIfError error
  hadActivity

def shimGetProperty (systemdVersion : Nat) (propertyName : String) : ShimM (Option Arg) := do
  hadActivity
  if propertyName = "Virtualization" then
    let id ← act .detectVirtualization
    pure (some (.s id))
  else if propertyName = "Version" then pure (some (.s (ascii (toString systemdVersion))))
  else pure none

/-- `node` is the user data shim_units_dispatch left, NULL as `none`. -/
def shimUnitMethodCall (node : Option Bytes) (methodName : String) : ShimM Unit := do
  hadActivity
  if methodName = "Abandon" then
    match node with
    | none => halt .nullString
    | some node =>
      match ← lookupUnit (unescapeObjectPath node) with
      | .ok unit =>
        unitAbandon unit
        act (.returnValue [])
      | .error error => act (.returnGError error)
  else halt .assertNotReached

def shimUnitGetProperty (propertyName : String) : ShimM (Option Arg) := do
  hadActivity
  if propertyName = "ActiveState" then pure (some (.s (ascii "inactive"))) else pure none

def shimUnitsEnumerate : ShimM (List Bytes) := do
  hadActivity
  let cgroups ← stateListUnits
  pure (cgroups.map escapeObjectPath)

def shimUnitsIntrospect (_node : Option Bytes) : ShimM (List InterfaceInfo) := do
  hadActivity
  pure [unitIface, scopeIface]

def shimUnitsDispatch (node : Option Bytes) : ShimM (Option Bytes) := do
  hadActivity
  pure node

/-! Requests, as GDBus runs the callbacks for them. -/

/-- A property read is answered by GDBus with the callback's value. -/
def returnProperty (value : Option Arg) : ShimM Unit :=
  match value with
  | some v => act (.returnValue [v])
  | none => act (.returnGError ⟨"G_DBUS_ERROR_INVALID_ARGS", []⟩)

/-- A request on the Manager object or in the unit subtree, where `node` is
`none` for the root of the subtree. -/
inductive Request where
  | manager (sender : Bytes) (methodName : String) (parameters : List Variant)
  | managerProperty (propertyName : String)
  | unit (node : Option Bytes) (methodName : String)
  | unitProperty (node : Option Bytes) (propertyName : String)
  | enumerate
  | introspect (node : Option Bytes)

def Request.handle (systemdVersion : Nat) : Request → ShimM Unit
  | .manager sender methodName parameters => shimMethodCall sender methodName parameters
  | .managerProperty propertyName => do
    let value ← shimGetProperty systemdVersion propertyName
    returnProperty value
  | .unit node methodName => do
    let _ ← shimUnitsIntrospect node
    let userData ← shimUnitsDispatch node
    shimUnitMethodCall userData methodName
  | .unitProperty node propertyName => do
    let _ ← shimUnitsIntrospect node
    let _ ← shimUnitsDispatch node
    let value ← shimUnitGetProperty propertyName
    returnProperty value
  | .enumerate => do
    let nodes ← shimUnitsEnumerate
    act (.returnValue (nodes.map .s))
  | .introspect node => do
    let ifaces ← shimUnitsIntrospect node
    act (.returnValue (ifaces.map (fun i => .s (ascii i.name))))

/-- Requests, one after the other. -/
def serve (systemdVersion : Nat) : List Request → ShimM Unit
  | [] => pure ()
  | r :: rs => do
    r.handle systemdVersion
    serve systemdVersion rs

theorem withUnit_string (name : Bytes) (rest : List Variant)
    (body : Bytes → UnitObject → ShimM Unit) :
    withUnit (.string name :: rest) body = (lookupUnit name >>= fun r => match r with
      | .ok unit => do
        body name unit
        pure none
      | .error error => pure (some error)) := rfl

/-- A method call in the subtree, from the point of view of the timer. -/
theorem handle_unit (systemdVersion : Nat) (node : Option Bytes) (methodName : String) :
    (Request.unit node methodName).handle systemdVersion = (do
      hadActivity
      hadActivity
      shimUnitMethodCall node methodName) := by
  simp only [Request.handle, shimUnitsIntrospect, shimUnitsDispatch, bind_assoc, pure_bind]

end Shim
