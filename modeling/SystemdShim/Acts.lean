import SystemdShim.Glib
import SystemdShim.Lib.Prog

/- The shim's surroundings, as the acts of its programs: every synchronous
   call it makes to cgmanager, every signal, command and file operation,
   every D-Bus message it sends and every main-loop source it adds or removes.
   The answers are the surroundings' own. The static variables of the process
   and the state file are the program's state; the file is the shim's alone,
   so only the outcome of a save is left open. -/
namespace Shim
open Effects

/-- A method call to cgmanager, with the arguments the shim passes. -/
inductive CgCall where
  | create (controllers path : Bytes)
  | chown (controllers path : Bytes) (uid gid : Int)
  | movePid (controllers path : Bytes) (pid : Int32)
  | setValue (controller path key value : Bytes)
  | remove (controllers path : Bytes) (recursive : Int)
  | getTasksRecursive (controllers path : Bytes)
  | prune (controllers path : Bytes)
  deriving DecidableEq

/-- What of a reply the shim reads. -/
abbrev CgCall.Reply : CgCall → Type
  | .getTasksRecursive _ _ => List Int32
  | _ => Unit

/-- A value in an outgoing D-Bus message. -/
inductive Arg where
  | s (v : Bytes)
  | o (path : Bytes)
  | u (n : Nat)
  | b (v : Bool)
  | emptyArray (elementType : String)
  deriving DecidableEq

/-- A GError of the domain G_DBUS_ERROR. -/
structure GError where
  code : String
  message : Bytes
  deriving DecidableEq

inductive Act where
  | cgmanagerCall (c : CgCall)
  | kill (pid : Int32)
  | saveToFile (keyFile : KeyFile)
  | getpid
  | fileSetContents (file : String) (contents : Bytes)
  | system (command : String)
  | testExecutable (file : String)
  | testExists (file : String)
  | openForWriting (file : String)
  | write (fd : Int) (text : String)
  | close (fd : Int)
  | getMonotonicTime
  | rename (source target : String)
  | spawnSync (command : String)
  | detectVirtualization
  | returnValue (value : List Arg)
  | returnGError (error : GError)
  | emitSignal (destination : Option Bytes) (name : String) (value : List Arg)
  | timeoutAdd (interval : Nat)
  | sourceRemove (id : Nat)
  | flushSync
  deriving DecidableEq

/-- The answer to an act. A call to cgmanager that fails, or is not made for
want of a connection, answers `none`. -/
abbrev Ans : Act → Type
  | .cgmanagerCall c => Option c.Reply
  | .saveToFile _ => Bool
  | .getpid => Nat
  | .fileSetContents _ _ => Bool
  | .system _ => Int
  | .testExecutable _ => Bool
  | .testExists _ => Bool
  | .openForWriting _ => Int
  | .write _ _ => Int
  | .getMonotonicTime => Int
  | .spawnSync _ => Option Int
  | .detectVirtualization => Bytes
  | .timeoutAdd _ => Nat
  | _ => Unit

instance (a : Act) : Nonempty (Ans a) := by
  cases a with
  | cgmanagerCall c => exact ⟨none⟩
  | _ => exact ⟨default⟩

/-- The ends of a process other than returning to the main loop. -/
inductive Halt where
  | exit (status : Nat)
  | assertNotReached
  | unsetClassMethod
  | nullString
  | wrongVariantType
  deriving DecidableEq

/-- The static variables of the process, and the state file. -/
structure Process where
  /-- `key_file` of state_get_key_file -/
  keyFile : Option KeyFile := none
  /-- what a load of STATE_FILENAME gives, `none` while there is no file -/
  stateFile : Option KeyFile := none
  inShutdown : Bool := false
  /-- `last_suspend_time` of power_unit_start -/
  lastSuspendTime : Int := 0
  /-- `inactivity_timeout` of had_activity -/
  inactivityTimeout : Nat := 0
  deriving DecidableEq

/-- A fresh process: only the state file is left of the one before. -/
def Process.restart (s : Process) : Process := { stateFile := s.stateFile }

abbrev ShimM (α : Type) := Proc Act Ans Halt Process α

abbrev ShimTrace := Trace Ans

def act (a : Act) : ShimM (Ans a) := Proc.perform a

def halt {α : Type} (h : Halt) : ShimM α := Proc.halt h

@[simp] theorem wp_act (a : Act) (s : Process)
    (Q : ShimTrace → Except Halt (Ans a × Process) → Prop) :
    Proc.wp (act a) s Q ↔ ∀ r, Q [⟨a, r⟩] (.ok (r, s)) := Iff.rfl

@[simp] theorem wp_halt {α : Type} (h : Halt) (s : Process)
    (Q : ShimTrace → Except Halt (α × Process) → Prop) :
    Proc.wp (halt h) s Q ↔ Q [] (.error h) := Iff.rfl

end Shim
