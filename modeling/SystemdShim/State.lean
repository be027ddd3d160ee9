import SystemdShim.Acts

/- state.c: the recorded state, a key file read from the state file on first
   use and written back on every change. -/
namespace Shim
open Effects

def stateGetKeyFile : ShimM KeyFile := do
  match (← get).keyFile with
  | some keyFile => pure keyFile
  | none =>
    -- a load that fails leaves the new key file empty
    let keyFile := (← get).stateFile.getD KeyFile.empty
    modify (fun s => { s with keyFile := some keyFile })
    pure keyFile

def stateSync : ShimM Unit := do
  let keyFile ← stateGetKeyFile
  if ← act (.saveToFile keyFile) then
    modify (fun s => { s with stateFile := some keyFile })

def stateListUnits : ShimM (List Bytes) := do
  let keyFile ← stateGetKeyFile
  pure keyFile.getGroups

def stateGetString (unit key : Bytes) : ShimM (Option Bytes) := do
  let keyFile ← stateGetKeyFile
  pure (keyFile.getString unit key)

def stateSetString (unit key value : Bytes) : ShimM Unit := do
  let keyFile ← stateGetKeyFile
  modify (fun s => { s with keyFile := some (keyFile.setString unit key value) })
  stateSync

def stateRemoveUnit (unit : Bytes) : ShimM Unit := do
  let keyFile ← stateGetKeyFile
  modify (fun s => { s with keyFile := some (keyFile.removeGroup unit) })
  stateSync

/-- The two copies of the recorded state: the process's and the disk's. -/
structure Files where
  keyFile : Option KeyFile := none
  stateFile : Option KeyFile := none
  deriving DecidableEq

namespace Files

/-- The recorded state: the key file the process has, or would load. -/
def store (f : Files) : KeyFile := f.keyFile.getD (f.stateFile.getD KeyFile.empty)

/-- The path recorded for a unit. -/
def recorded (f : Files) (unit : Bytes) : Option Bytes := f.store.getString unit (ascii "path")

/-- Once the process has loaded its key file. -/
def loaded (f : Files) : Files := { f with keyFile := some f.store }

/-- The key file replaced, and written out if the save succeeds. -/
def stored (f : Files) (keyFile : KeyFile) (saved : Bool) : Files where
  keyFile := some keyFile
  stateFile := if saved then some keyFile else f.stateFile

@[simp] theorem store_loaded (f : Files) : f.loaded.store = f.store := rfl
@[simp] theorem store_stored (f : Files) (kf : KeyFile) (b : Bool) :
    (f.stored kf b).store = kf := rfl

end Files

namespace Process

def files (s : Process) : Files := ⟨s.keyFile, s.stateFile⟩

def store (s : Process) : KeyFile := s.files.store

def recorded (s : Process) (unit : Bytes) : Option Bytes := s.files.recorded unit

def setFiles (s : Process) (f : Files) : Process :=
  { s with keyFile := f.keyFile, stateFile := f.stateFile }

theorem isGroupName_of_recorded {s : Process} {unit path : Bytes}
    (h : s.recorded unit = some path) : gKeyFileIsGroupName unit = true :=
  KeyFile.isGroupName_of_getString s.store h

@[simp] theorem files_setFiles (s : Process) (f : Files) : (s.setFiles f).files = f := rfl

end Process

variable {s : Process} {u k v : Bytes}

theorem wp_stateGetKeyFile {Q : ShimTrace → Except Halt (KeyFile × Process) → Prop} :
    Proc.wp stateGetKeyFile s Q ↔ Q [] (.ok (s.store, s.setFiles s.files.loaded)) := by
  unfold stateGetKeyFile
  rw [Proc.wp_bind, Proc.wp_get, Proc.andThen_ok]
  obtain ⟨keyFile, stateFile, sd, ls, it⟩ := s
  cases keyFile with
  | none => rfl
  | some kf => rfl

theorem wp_stateSync {Q : ShimTrace → Except Halt (Unit × Process) → Prop} :
    Proc.wp stateSync s Q ↔
      ∀ b, Q [⟨.saveToFile s.store, b⟩] (.ok ((), s.setFiles (s.files.stored s.store b))) := by
  unfold stateSync
  rw [Proc.wp_bind, wp_stateGetKeyFile, Proc.andThen_ok, Proc.wp_bind, wp_act]
  refine forall_congr' (fun b => ?_)
  rw [Proc.andThen_ok]
  cases b <;> rfl

theorem wp_stateListUnits {Q : ShimTrace → Except Halt (List Bytes × Process) → Prop} :
    Proc.wp stateListUnits s Q ↔ Q [] (.ok (s.store.getGroups, s.setFiles s.files.loaded)) := by
  unfold stateListUnits
  rw [Proc.wp_bind, wp_stateGetKeyFile, Proc.andThen_ok]
  rfl

theorem wp_stateGetString {Q : ShimTrace → Except Halt (Option Bytes × Process) → Prop} :
    Proc.wp (stateGetString u k) s Q ↔
      Q [] (.ok (s.store.getString u k, s.setFiles s.files.loaded)) := by
  unfold stateGetString
  rw [Proc.wp_bind, wp_stateGetKeyFile, Proc.andThen_ok]
  rfl

theorem wp_stateSetString {Q : ShimTrace → Except Halt (Unit × Process) → Prop} :
    Proc.wp (stateSetString u k v) s Q ↔
      ∀ b, Q [⟨.saveToFile (s.store.setString u k v), b⟩]
        (.ok ((), s.setFiles (s.files.stored (s.store.setString u k v) b))) := by
  unfold stateSetString
  rw [Proc.wp_bind, wp_stateGetKeyFile, Proc.andThen_ok, Proc.wp_bind, Proc.wp_modify,
    Proc.andThen_ok, wp_stateSync]
  rfl

theorem wp_stateRemoveUnit {Q : ShimTrace → Except Halt (Unit × Process) → Prop} :
    Proc.wp (stateRemoveUnit u) s Q ↔
      ∀ b, Q [⟨.saveToFile (s.store.removeGroup u), b⟩]
        (.ok ((), s.setFiles (s.files.stored (s.store.removeGroup u) b))) := by
  unfold stateRemoveUnit
  rw [Proc.wp_bind, wp_stateGetKeyFile, Proc.andThen_ok, Proc.wp_bind, Proc.wp_modify,
    Proc.andThen_ok, wp_stateSync]
  rfl

end Shim
