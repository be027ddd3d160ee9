import SystemdShim.CgroupUnit
import SystemdShim.PowerUnit
import SystemdShim.NtpUnit

/- unit.c: the units by name, and the class methods behind them. A slot a
   class leaves unset is `none`, and calling it ends the process. -/
namespace Shim
open Effects

inductive UnitObject where
  | ntp
  | power (action : PowerAction)
  | cgroup (name : Bytes)
  deriving DecidableEq

/-- A class, its methods already applied to the object. -/
structure UnitClass where
  getState : Option (ShimM Bytes) := none
  start : Option (ShimM Unit) := none
  startTransient : Option (List (Bytes × Variant) → ShimM Unit) := none
  stop : Option (ShimM Unit) := none
  abandon : Option (ShimM Unit) := none

def UnitObject.getClass : UnitObject → UnitClass
  | .ntp =>
    { start := some ntpUnitStart
      stop := some ntpUnitStop
      getState := some ntpUnitGetState }
  | .power action =>
    { start := some (powerUnitStart action)
      stop := some powerUnitStop
      getState := some powerUnitGetState }
  | .cgroup name =>
    { startTransient := some (cgroupUnitStartTransient name)
      start := some (cgroupUnitStart name)
      stop := some (cgroupUnitStop name)
      abandon := some (cgroupUnitAbandon name)
      getState := some (cgroupUnitGetState name) }

def isCgroupName (name : Bytes) : Bool :=
  gStrHasSuffix name (ascii ".slice") || gStrHasSuffix name (ascii ".scope")

/-- The first test of lookup_unit: whether there is an ntp unit by that name. -/
def lookupNtp (unitName : Bytes) : ShimM Bool :=
  if unitName = ascii "ntpd.service" ∨ unitName = ascii "systemd-timesyncd.service" then ntpUnitGet
  else pure false

/-- The if-chain of lookup_unit, which an ntp unit found before survives. -/
def unitOfName (unitName : Bytes) (ntp : Bool) : Option UnitObject :=
  if unitName = ascii "suspend.target" then some (.power .suspend)
  else if unitName = ascii "hibernate.target" then some (.power .hibernate)
  else if unitName = ascii "reboot.target" then some (.power .reboot)
  else if unitName = ascii "shutdown.target" ∨ unitName = ascii "poweroff.target" then
    some (.power .off)
  else if isCgroupName unitName then some (.cgroup unitName)
  else if ntp then some .ntp
  else none

/-- The unit, or the error to answer with. -/
def lookupUnit (unitName : Bytes) : ShimM (Except GError UnitObject) := do
  let ntp ← lookupNtp unitName
  match unitOfName unitName ntp with
  | some unit => pure (.ok unit)
  | none =>
    pure (.error ⟨"G_DBUS_ERROR_FILE_NOT_FOUND", ascii "Unknown unit: " ++ unitName⟩)

def callSlot {α : Type} : Option (ShimM α) → ShimM α
  | some method => method
  | none => halt .unsetClassMethod

def unitGetState (unit : UnitObject) : ShimM Bytes := callSlot unit.getClass.getState

def unitStart (unit : UnitObject) : ShimM Unit := callSlot unit.getClass.start

def unitStartTransient (unit : UnitObject) (properties : List (Bytes × Variant)) : ShimM Unit :=
  match unit.getClass.startTransient with
  | none => pure ()
  | some startTransient => startTransient properties

def unitStop (unit : UnitObject) : ShimM Unit := callSlot unit.getClass.stop

/-- The guard asks for start_transient, as the source's does, not for abandon. -/
def unitAbandon (unit : UnitObject) : ShimM Unit :=
  match unit.getClass.startTransient with
  | none => pure ()
  | some _ => callSlot unit.getClass.abandon

end Shim
