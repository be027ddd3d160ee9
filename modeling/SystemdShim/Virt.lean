import SystemdShim.Lib.NulStr
import SystemdShim.SysActs

/- util.c and virt.c, on x86: which container or virtual machine the shim runs
   in. The out parameter `id` goes in and comes out; a fresh local one is
   `none`. -/
namespace Shim
open Effects Buffer

def lineMax : Nat := 2048

/-- NEWLINE -/
def isNewline (c : UInt8) : Bool := c == chr '\n' || c == chr '\r'

def streq (a b : Bytes) : Bool := a == b

def startswith (s start : Bytes) : Bool :=
  if start.length = 0 then true
  else if s.length < start.length then false
  else s.take start.length == start

theorem startswith_iff {s p : Bytes} : startswith s p = true ↔ p <+: s := by
  unfold startswith
  split
  · rename_i h
    simp [List.length_eq_zero_iff.mp h]
  · split
    · rename_i h
      simp only [Bool.false_eq_true, false_iff]
      intro hp
      have := hp.length_le
      omega
    · rw [beq_iff_eq, List.prefix_iff_eq_take, eq_comm]

/-- `s[strcspn (s, NEWLINE)] = 0` -/
def truncateNl (s : Bytes) : Bytes := s.takeWhile (fun c => !isNewline c)

/-- What `fgets (t, size, f)` leaves in `t` before the terminator it adds, or
NULL: bytes up to a newline, to the end of the file or to the end of the buffer. -/
def fgets (size : Nat) (f : Stream) : Option Bytes :=
  let line := f.bytes.takeWhile (· != chr '\n')
  if size - 1 ≤ line.length then some (line.take (size - 1))
  else if line.length < f.bytes.length then some (line ++ [chr '\n'])
  else if f.error.isSome ∨ line = [] then none
  else some line

/-- The string in a buffer that holds these bytes, up to the first terminator. -/
def cString (t : Bytes) : Bytes := chars 0 t

/-- `c = strdup (t); truncate_nl (c);` -/
def copyString (fn : String) (t : Bytes) : SysM (Except Errno Bytes) := do
  if ← sys (.strdup fn (cString t)) then
    sys (.touch fn)
    pure (.ok (truncateNl (cString t)))
  else pure (.error enomem)

/-- The part of read_one_line_file before `finish:`; a file with nothing in it
gives an empty line. -/
def copyLine (fn : String) : SysM (Except Errno Bytes) := do
  let f ← sys (.read fn)
  match fgets lineMax f, f.error with
  | none, some errno => pure (.error errno)
  | t, _ => copyString fn (t.getD [])

def readOneLineFile (fn : String) : SysM (Except Errno Bytes) := do
  match ← sys (.fopen fn) with
  | .error errno => pure (.error errno)
  | .ok _ =>
    let r ← copyLine fn
    sys (.fclose fn)
    pure r

def runningInChroot : SysM Int := do
  match ← sys (.stat "/proc/1/root") with
  | .error errno => pure errno.neg
  | .ok a =>
    match ← sys (.stat "/") with
    | .error errno => pure errno.neg
    | .ok b => pure (if a.stDev ≠ b.stDev ∨ a.stIno ≠ b.stIno then 1 else 0)

/-! detect_vm. -/

def dmiVendors : List String :=
  ["/sys/class/dmi/id/sys_vendor", "/sys/class/dmi/id/board_vendor",
    "/sys/class/dmi/id/bios_vendor"]

/-- `key\0 val\0` in a table. -/
def entry (key val : String) (h : ascii key ≠ [] ∧ 0 ∉ ascii key ∧ 0 ∉ ascii val) :
    NulStr.Pair (0 : UInt8) :=
  ⟨ascii key, ascii val, h.1, h.2.1, h.2.2⟩

def dmiVendorTable : List (NulStr.Pair (0 : UInt8)) :=
  [entry "QEMU" "qemu" (by decide), entry "VMware" "vmware" (by decide),
    entry "VMW" "vmware" (by decide), entry "Microsoft Corporation" "microsoft" (by decide),
    entry "innotek GmbH" "oracle" (by decide), entry "Xen" "xen" (by decide),
    entry "Bochs" "bochs" (by decide)]

def cpuidVendorTable : List (NulStr.Pair (0 : UInt8)) :=
  [entry "XenVMMXenVMM" "xen" (by decide), entry "KVMKVMKVM" "kvm" (by decide),
    entry "VMwareVMware" "vmware" (by decide), entry "Microsoft Hv" "microsoft" (by decide)]

/-- A walk over a table in memory, where it stays inside. -/
def forTable {σ ρ : Type} (body : σ → Bytes → Bytes → Except ρ σ)
    (table : List (NulStr.Pair (0 : UInt8))) (s : σ) : SysM (Except ρ σ) :=
  match NulStr.forPairs 0 body (NulStr.mem table) s with
  | some r => pure r
  | none => Proc.halt (.fault .unfinished)

def bytesOf (r : UInt32) : Bytes :=
  [r.toUInt8, (r >>> 8).toUInt8, (r >>> 16).toUInt8, (r >>> 24).toUInt8]

/-- `sig.text`: three registers in memory and the thirteenth byte, zero. -/
def sigText (r : Cpuid) : Bytes := cString (bytesOf r.ebx ++ bytesOf r.ecx ++ bytesOf r.edx ++ [0])

/-- The first entry that is the signature; `return` ends the walk. -/
def cpuidVendor (hypervisor : Bool) : SysM (Option Bytes) :=
  if hypervisor then do
    let sig := sigText (← sys (.cpuid 0x40000000))
    match ← forTable (fun _ j k => if streq sig j then .error k else .ok ())
        cpuidVendorTable () with
    | .error k => pure (some k)
    | .ok () => pure none
  else pure none

/-- The last entry the vendor starts with: nothing ends this walk early. -/
def dmiFound (s : Bytes) : SysM (Except Empty (Option Bytes)) :=
  forTable (fun found j k => .ok (if startswith s j then some k else found)) dmiVendorTable none

/-- The loop over the DMI files: a missing file is passed over. -/
def dmiVendor : List String → SysM (Except Errno (Option Bytes))
  | [] => pure (.ok none)
  | fn :: files => do
    match ← readOneLineFile fn with
    | .error errno => if errno ≠ enoent then pure (.error errno) else dmiVendor files
    | .ok s =>
      -- each entry of the table is compared with it
      sys (.touch fn)
      match ← dmiFound s with
      | .error e => nomatch e
      | .ok found =>
        sys (.free fn)
        if found.isSome then pure (.ok found) else dmiVendor files

def detectVm (id : Option Bytes) : SysM (Int × Option Bytes) := do
  let r ← sys (.cpuid 1)
  let hypervisor : Bool := r.ecx &&& 0x80000000 ≠ 0
  match ← cpuidVendor hypervisor with
  | some k => pure (1, some k)
  | none =>
    match ← dmiVendor dmiVendors with
    | .error errno => pure (errno.neg, id)
    | .ok (some found) => pure (1, some found)
    | .ok none => if hypervisor then pure (1, some (ascii "other")) else pure (0, id)

/-! detect_container. -/

def openvz : SysM Bool := do
  if (← sys (.access "/proc/vz")) ≥ 0 then pure ((← sys (.access "/proc/bc")) < 0) else pure false

/-- `char line[LINE_MAX]`, with nothing in it yet. -/
def freshLine : List (Option UInt8) := List.replicate lineMax none

/-- The loop that fills a line: `i` and the stream as they go on, and whether
the file is done. -/
def fillLine : Nat → List (Option UInt8) → Int → Bytes →
    Except Fault (List (Option UInt8) × Int × Bytes × Bool)
  | 0, line, i, f => .ok (line, i, f, false)
  | _ + 1, line, i, [] => .ok (line, i, [], true)
  | n + 1, line, i, c :: f =>
    if c = 0 then .ok (line, i, f, false)
    else (storeAt line i (some c)).bind (fun line => fillLine n line (i + 1) f)

/-- The string at the start of a line; it may not run into what was not set. -/
def lineString (line : List (Option UInt8)) : Except Fault Bytes :=
  match (chars (some 0) line).mapM id with
  | some s => .ok s
  | none => .error (.read 0)

/-- The tests on a line of the environment. -/
def containerOf (line : Bytes) : Option Bytes :=
  if streq line (ascii "container=lxc") then some (ascii "lxc")
  else if streq line (ascii "container=lxc-libvirt") then some (ascii "lxc-libvirt")
  else if streq line (ascii "container=systemd-nspawn") then some (ascii "systemd-nspawn")
  else if startswith line (ascii "container=") then some (ascii "other")
  else none

/-- The do-while loop over the lines of the environment. -/
def scanEnviron : Nat → Bytes → Except Fault (Option Bytes)
  | 0, _ => .error .unfinished
  | n + 1, f =>
    (fillLine (lineMax - 1) freshLine 0 f).bind fun (line, i, f, done) =>
    (storeAt line i (some 0)).bind fun line =>
    (lineString line).bind fun s =>
    match containerOf s with
    | some id => .ok (some id)
    | none => if done then .ok none else scanEnviron n f

def detectContainer (id : Option Bytes) : SysM (Int × Option Bytes) := do
  if (← sys .geteuid) ≠ 0 then pure (eperm.neg, id)
  else if (← runningInChroot) > 0 then pure (1, some (ascii "chroot"))
  else if ← openvz then pure (1, some (ascii "openvz"))
  else
    match ← sys (.fopen "/proc/1/environ") with
    | .error _ => pure (0, id)
    | .ok _ =>
      let f ← sys (.read "/proc/1/environ")
      -- each return from the loop closes the file first
      let found ← checked (scanEnviron (f.bytes.length + 1) f.bytes)
      sys (.fclose "/proc/1/environ")
      match found with
      | some container => pure (1, some container)
      | none => pure (0, id)

/-! detect_virtualization. -/

def virtualizationNone : Int := 0
def virtualizationVm : Int := 1
def virtualizationContainer : Int := 2

/-- The value before `finish:`, and the local `_id`. -/
def virtualizationOf : SysM (Int × Option Bytes) := do
  let (r, _id) ← detectContainer none
  if r < 0 then pure (r, _id)
  else if r > 0 then pure (virtualizationContainer, _id)
  else
    let (r, _id) ← detectVm _id
    if r < 0 then pure (r, _id)
    else if r > 0 then pure (virtualizationVm, _id)
    else pure (virtualizationNone, _id)

/-- From `finish:` on. -/
def finishVirtualization (v : Int) (_id id : Option Bytes) : SysM (Int × Option Bytes) := do
  modify (fun s => if v > 0 then { s with cachedId := _id } else s)
  modify (fun s => if v ≥ 0 then { s with cachedVirt := v } else s)
  pure (v, if v > 0 then _id else id)

def detectVirtualization (id : Option Bytes) : SysM (Int × Option Bytes) := do
  let s ← get
  if s.cachedVirt ≥ 0 then
    pure (s.cachedVirt, if s.cachedVirt > 0 then s.cachedId else id)
  else
    let (v, _id) ← virtualizationOf
    finishVirtualization v _id id

end Shim
