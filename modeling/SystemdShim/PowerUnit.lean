import SystemdShim.Acts

/- power-unit.c: power off, reboot, suspend and hibernate. -/
namespace Shim
open Effects

inductive PowerAction where
  | off
  | reboot
  | suspend
  | hibernate
  deriving DecidableEq

def powerCmds : PowerAction → String
  | .off => "/sbin/shutdown -h now"
  | .reboot => "/sbin/reboot"
  | .suspend => "/usr/sbin/pm-suspend"
  | .hibernate => "/usr/sbin/pm-hibernate"

/-- G_TIME_SPAN_SECOND, in microseconds. -/
def gTimeSpanSecond : Int := 1000000

/-- Whether a suspend comes within a second of the last one. The clock is read
for a suspend only. -/
def suspendedJustNow (action : PowerAction) : ShimM Bool := do
  if action = .suspend then
    let last := (← get).lastSuspendTime
    let now ← act .getMonotonicTime
    pure (decide (last + gTimeSpanSecond > now))
  else pure false

/-- The sleep itself, by pm-utils or by /sys/power/state; `false` where the
source returns because the file cannot be opened. -/
def performSleep (action : PowerAction) : ShimM Bool := do
  if ← act (.testExecutable (powerCmds action)) then
    let _ ← act (.system (powerCmds action))
    pure true
  else
    let fd ← act (.openForWriting "/sys/power/state")
    if fd = -1 then pure false
    else
      let _ ← act (.write fd (if action = .suspend then "mem" else "disk"))
      act (.close fd)
      pure true

def powerUnitStart (action : PowerAction) : ShimM Unit := do
  if action = .off ∨ action = .reboot then
    -- before anything that can fail or block
    modify (fun s => { s with inShutdown := true })
    let pid ← act .getpid
    let _ ← act (.fileSetContents "/run/sendsigs.omit.d/systemd-shim.pid" (ascii (toString pid)))
    let _ ← act (.system (powerCmds action))
  else if (← get).inShutdown then pure ()
  else if ← suspendedJustNow action then pure ()
  else if ← performSleep action then
    if action = .suspend then
      let now ← act .getMonotonicTime
      modify (fun s => { s with lastSuspendTime := now })

def powerUnitStop : ShimM Unit := pure ()

def powerUnitGetState : ShimM Bytes := pure (ascii "static")

end Shim
