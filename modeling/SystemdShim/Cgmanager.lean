import SystemdShim.Acts

/- cgmanager.c: the calls to the cgroup manager. `cgmanagerCall` folds the
   cached connection into the answer: while there is none, every call answers
   `none`, as a call that fails does. -/
namespace Shim
open Effects

def cgmanagerCall (c : CgCall) : ShimM (Option c.Reply) := act (.cgmanagerCall c)

/-- `if (path[0] == '/') path++;` -/
def skipSlash (path : Bytes) : Bytes :=
  if path.head? = some (chr '/') then path.tail else path

/-- The MovePid loop of cgmanager_create; a guint goes out as an int32. -/
def movePids (path : Bytes) : List UInt32 → ShimM Unit
  | [] => pure ()
  | pid :: pids => do
    let _ ← cgmanagerCall (.movePid (ascii "all") path pid.toInt32)
    movePids path pids

def chownToUser (path : Bytes) (uid : Int) : ShimM Unit :=
  if uid ≠ -1 then do
    let _ ← cgmanagerCall (.chown (ascii "all") path uid (-1))
  else pure ()

def cgmanagerCreate (path : Bytes) (uid : Int) (pids : List UInt32) : ShimM Unit := do
  let path := skipSlash path
  let _ ← cgmanagerCall (.create (ascii "all") path)
  chownToUser path uid
  movePids path pids
  let _ ← cgmanagerCall (.setValue (ascii "systemd") path (ascii "notify_on_release") (ascii "1"))

def cgmanagerRemove (path : Bytes) : ShimM Bool := do
  let path := skipSlash path
  let reply ← cgmanagerCall (.remove (ascii "all") path 1)
  pure reply.isSome

def cgmanagerPrune (path : Bytes) : ShimM Unit := do
  let _ ← cgmanagerCall (.prune (ascii "all") path)

/-- The kill loop of cgmanager_kill. -/
def killAll : List Int32 → ShimM Unit
  | [] => pure ()
  | pid :: pids => do
    act (.kill pid)
    killAll pids

def cgmanagerKill (path : Bytes) : ShimM Unit := do
  let reply ← cgmanagerCall (.getTasksRecursive (ascii "all") path)
  match reply with
  | some pids => killAll pids
  | none => pure ()

end Shim
