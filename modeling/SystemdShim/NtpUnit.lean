import SystemdShim.Acts

/- ntp-unit.c: time synchronisation by ntpdate or ntpd, whichever is
   installed. -/
namespace Shim
open Effects

def ntpdateEnabled : String := "/etc/network/if-up.d/ntpdate"
def ntpdateDisabled : String := "/etc/network/if-up.d/ntpdate.disabled"
def ntpdateAvailable : String := "/usr/sbin/ntpdate-debian"
def ntpdAvailable : String := "/usr/sbin/ntpd"

def ntpUnitGetCanUseNtpdate : ShimM Bool := act (.testExists ntpdateAvailable)

def ntpUnitGetUsingNtpdate : ShimM Bool := do
  if ← ntpUnitGetCanUseNtpdate then act (.testExists ntpdateEnabled) else pure false

def ntpUnitGetCanUseNtpd : ShimM Bool := act (.testExists ntpdAvailable)

def ntpUnitGetUsingNtpd : ShimM Bool := do
  if ← ntpUnitGetCanUseNtpd then
    let exitStatus ← act (.spawnSync "/usr/sbin/service ntp status")
    pure (exitStatus == some (0 : Int))
  else pure false

def ntpUnitSetUsingNtpdate (usingNtp : Bool) : ShimM Unit := do
  if usingNtp = (← ntpUnitGetUsingNtpdate) then pure ()
  else if usingNtp then
    act (.rename ntpdateDisabled ntpdateEnabled)
    let _ ← act (.spawnSync "/etc/network/if-up.d/ntpdate")
  else act (.rename ntpdateEnabled ntpdateDisabled)

def ntpUnitSetUsingNtpd (usingNtp : Bool) : ShimM Unit := do
  let _ ← act (.spawnSync (if usingNtp then "/usr/sbin/update-rc.d ntp enable"
    else "/usr/sbin/update-rc.d ntp disable"))
  let _ ← act (.spawnSync (if usingNtp then "/usr/sbin/service ntp restart"
    else "/usr/sbin/service ntp stop"))

def ntpUnitSwitchNtpdate (usingNtp : Bool) : ShimM Unit := do
  if ← ntpUnitGetCanUseNtpdate then ntpUnitSetUsingNtpdate usingNtp else pure ()

def ntpUnitSwitchNtpd (usingNtp : Bool) : ShimM Unit := do
  if ← ntpUnitGetCanUseNtpd then ntpUnitSetUsingNtpd usingNtp else pure ()

/-- ntp_unit_start with `usingNtp`, ntp_unit_stop without. -/
def ntpUnitSwitch (usingNtp : Bool) : ShimM Unit := do
  ntpUnitSwitchNtpdate usingNtp
  ntpUnitSwitchNtpd usingNtp

def ntpUnitStart : ShimM Unit := ntpUnitSwitch true
def ntpUnitStop : ShimM Unit := ntpUnitSwitch false

def ntpUnitGetState : ShimM Bytes := do
  if ← ntpUnitGetUsingNtpdate then pure (ascii "enabled")
  else if ← ntpUnitGetUsingNtpd then pure (ascii "enabled")
  else pure (ascii "disabled")

/-- Whether ntp_unit_get returns a unit. -/
def ntpUnitGet : ShimM Bool := do
  if ← ntpUnitGetCanUseNtpdate then pure true else ntpUnitGetCanUseNtpd

end Shim
