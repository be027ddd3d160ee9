import SystemdShim.Iface
import SystemdShim.State
import SystemdShim.Cgmanager

/- cgroup-unit.c: slices and scopes, each a cgroup under the path computed
   from its names. A warning goes to the log and is not modelled. -/
namespace Shim
open Effects

/-- The loop of cgroup_unit_get_path_and_uid over what is left of `slice` from
index `i` on. -/
def pathLoop (slice : Bytes) : Nat → Bytes → Bytes → Bytes
  | i, [], path => path ++ slice.take i
  | i, c :: rest, path =>
    if c = chr '-' then pathLoop slice (i + 1) rest (path ++ slice.take i ++ ascii ".slice/")
    else pathLoop slice (i + 1) rest path

def userSliceUid (slice : Bytes) : Int :=
  if gStrHasPrefix slice (ascii "user-") then
    let r := gAsciiStrtoull (slice.drop 5)
    if r.erange = false ∧ r.stop = ascii ".slice" ∧ r.value < gMaxInt then r.value else -1
  else -1

def cgroupUnitGetPathAndUid (slice : Bytes) (scope : Option Bytes) : Bytes × Int :=
  let path := pathLoop slice 0 slice []
  let uid := userSliceUid slice
  match scope with
  | some scope => (path ++ [chr '/'] ++ scope, uid)
  | none => (path, uid)

/-- One entry of the property list: the last Slice of type string wins, the
PIDs of type `au` add up, anything else is skipped. -/
def readProperty (acc : Option Bytes × List UInt32) (property : Bytes × Variant) :
    Option Bytes × List UInt32 :=
  match property.2 with
  | .string v => if property.1 = ascii "Slice" then (some v, acc.2) else acc
  | .uint32Array vs => if property.1 = ascii "PIDs" then (acc.1, acc.2 ++ vs) else acc
  | _ => acc

def readProperties (properties : List (Bytes × Variant)) : Option Bytes × List UInt32 :=
  properties.foldl readProperty (none, [])

def cgroupUnitStartTransient (name : Bytes) (properties : List (Bytes × Variant)) :
    ShimM Unit := do
  -- a start that cannot be carried out is only warned about
  if !gStrHasSuffix name (ascii ".scope") then pure ()
  else
    let (slice, pids) := readProperties properties
    match slice with
    | some slice =>
      if gStrHasSuffix slice (ascii ".slice") then
        let (path, uid) := cgroupUnitGetPathAndUid slice (some name)
        cgmanagerCreate path uid pids
        stateSetString name (ascii "path") path
      else pure ()
    | none => pure ()

def cgroupUnitStart (name : Bytes) : ShimM Unit := do
  if !gStrHasSuffix name (ascii ".slice") then pure ()
  else
    let (path, uid) := cgroupUnitGetPathAndUid name none
    cgmanagerCreate path uid []
    stateSetString name (ascii "path") path

/-- The body of the loop of cgroup_unit_stop: whether the removal succeeded. -/
def stopRound (path : Bytes) : ShimM Bool := do
  cgmanagerKill path
  cgmanagerRemove path

/-- The do-while loop of cgroup_unit_stop. The test reads `tries` before it
counts down, so `tries` more rounds may follow the first. -/
def stopLoop (path : Bytes) : Nat → ShimM Unit
  | 0 => do
    let _successful ← stopRound path
  | tries + 1 => do
    let successful ← stopRound path
    if successful then pure () else stopLoop path tries

def cgroupUnitStop (name : Bytes) : ShimM Unit := do
  match ← stateGetString name (ascii "path") with
  | none => pure ()
  | some path =>
    stopLoop path 5
    stateRemoveUnit name

def cgroupUnitAbandon (name : Bytes) : ShimM Unit := do
  match ← stateGetString name (ascii "path") with
  | none => pure ()
  | some path =>
    cgmanagerPrune path
    stateRemoveUnit name

def cgroupUnitGetState (name : Bytes) : ShimM Bytes := pure name

end Shim
