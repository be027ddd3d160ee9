import SystemdShim.Acts
import SystemdShim.Lib.Buffer

/- The surroundings one level down. Two acts of the shim's programs are
   programs themselves: a call to cgmanager goes over a connection that the
   first call makes (cgmanager.c), and what detect_virtualization answers is put
   together from files, registers and an earlier answer (virt.c). Their own
   static variables are the state at this level. Streams and strings on the heap
   are known by the file they are for, and every use of one is an act: a stream
   is read to the end at once, and nothing but the program reads from it. -/
namespace Shim
open Effects

/-- A value of errno after a failure. -/
structure Errno where
  code : Nat
  positive : 0 < code
  deriving DecidableEq

def eperm : Errno := ⟨1, by decide⟩
def enoent : Errno := ⟨2, by decide⟩
def enomem : Errno := ⟨12, by decide⟩

/-- `-errno` as a return value. -/
def Errno.neg (e : Errno) : Int := -(e.code : Int)

theorem Errno.neg_lt (e : Errno) : e.neg < 0 := by
  have := e.positive
  unfold Errno.neg
  omega

/-- The bytes of an open file, and then its end or the error a read meets. -/
structure Stream where
  bytes : Bytes
  error : Option Errno := none
  deriving DecidableEq

/-- What `stat` says which file it is. -/
structure Stat where
  stDev : Nat
  stIno : Nat
  deriving DecidableEq

/-- The registers after a cpuid instruction. -/
structure Cpuid where
  eax : UInt32
  ebx : UInt32
  ecx : UInt32
  edx : UInt32
  deriving DecidableEq

/-- The methods of cgmanager: those of the units, and those of
cgmanager_move_self. -/
inductive CgMethod where
  | ofCall (c : CgCall)
  | movePidAbs (controllers path : Bytes) (pid : Nat)
  | getValue (controller path key : Bytes)
  deriving DecidableEq

abbrev CgMethod.Reply : CgMethod → Type
  | .ofCall c => c.Reply
  | .movePidAbs _ _ _ => Unit
  | .getValue _ _ _ => Bytes

/-- The variant in the reply to a property read, as far as its type matters. -/
inductive Version where
  | int32 (n : Int32)
  | otherType
  deriving DecidableEq

inductive SysAct where
  /-- an act that is not taken apart further -/
  | shim (a : Act)
  | geteuid
  | stat (path : String)
  | access (path : String)
  | fopen (path : String)
  /-- fgets, ferror and getc: all that the open stream has to give -/
  | read (path : String)
  | fclose (path : String)
  /-- the copy of the line of this file -/
  | strdup (fn : String) (text : Bytes)
  /-- a read of the copy, or a write to it -/
  | touch (fn : String)
  | free (fn : String)
  | cpuid (leaf : UInt32)
  | getpid
  /-- g_dbus_connection_new_for_address_sync -/
  | connect
  /-- the synchronous read of the property api_version -/
  | getApiVersion
  /-- g_dbus_connection_call_sync -/
  | callSync (m : CgMethod)
  deriving DecidableEq

abbrev SysAns : SysAct → Type
  | .shim a => Ans a
  | .geteuid => Nat
  | .stat _ => Except Errno Stat
  | .access _ => Int
  | .fopen _ => Except Errno Unit
  | .read _ => Stream
  | .strdup _ _ => Bool
  | .cpuid _ => Cpuid
  | .getpid => Nat
  | .connect => Bool
  | .getApiVersion => Option Version
  | .callSync m => Option m.Reply
  | _ => Unit

/-- The ends of a process, with an access outside an object as one more. -/
inductive SysHalt where
  | shim (h : Halt)
  | fault (f : Buffer.Fault)
  deriving DecidableEq

/-- The static variables of cgmanager_call and of detect_virtualization. A
string pointer that is NULL or not set is `none`. -/
structure Statics where
  connection : Bool := false
  initialised : Bool := false
  cachedVirt : Int := -1
  cachedId : Option Bytes := none
  deriving DecidableEq

abbrev SysM (α : Type) := Proc SysAct SysAns SysHalt Statics α

abbrev SysTrace := Trace SysAns

def sys (a : SysAct) : SysM (SysAns a) := Proc.perform a

/-- A computation on memory, which goes wrong where it leaves its bounds. -/
def checked {α : Type} : Except Buffer.Fault α → SysM α
  | .ok a => pure a
  | .error f => Proc.halt (.fault f)

@[simp] theorem wp_sys (a : SysAct) (s : Statics)
    (Q : SysTrace → Except SysHalt (SysAns a × Statics) → Prop) :
    Proc.wp (sys a) s Q ↔ ∀ r, Q [⟨a, r⟩] (.ok (r, s)) := Iff.rfl

@[simp] theorem result_sys (ω : ∀ a, SysAns a) (a : SysAct) (s : Statics) :
    (sys a).result ω s = .ok (ω a, s) := rfl

@[simp] theorem checked_ok {α : Type} (a : α) : checked (.ok a) = pure a := rfl

end Shim
