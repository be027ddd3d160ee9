import SystemdShim.Lib.Stages
import SystemdShim.Service
import SystemdShim.Virt

/- What detect_container and detect_vm find. The scan of the environment stays
   in its line, ends, and finds the first record that names a container
   (`scanEnviron_eq`); where no entry is longer than a line, that is the first
   such entry. In the DMI table the order of the entries does not matter
   (`dmiFound_eq`), and the files decide in their order (`dmiVendor_exec`). -/
namespace Shim
open Effects Buffer

/-! The scan of the environment. -/

theorem lineString_of_prefix {xs : Bytes} {line : List (Option UInt8)} (hx : 0 ∉ xs)
    (h : xs.map some ++ [some 0] <+: line) : lineString line = .ok xs := by
  have hc : chars (some 0) line = xs.map some := chars_of_prefix (by simpa using hx) h
  have hm : (xs.map some).mapM id = some xs := by
    rw [List.mapM_map]
    exact List.mapM_pure.trans (by rw [List.map_id_fun', id]; rfl)
  rw [lineString, hc, hm]

/-- The loop puts the next record behind what the line holds. -/
theorem fillLine_prefix (n : Nat) {xs : Bytes} {line : List (Option UInt8)} (f : Bytes)
    (h : xs.map some <+: line) (hroom : xs.length + n ≤ line.length) :
    ∃ line', fillLine n line xs.length f = .ok (line', ((xs ++ (NulStr.next 0 n f).1).length : Int),
        (NulStr.next 0 n f).2.getD [], (NulStr.next 0 n f).2.isNone) ∧
      (xs ++ (NulStr.next 0 n f).1).map some <+: line' ∧ line'.length = line.length := by
  induction n generalizing xs line f with
  | zero => exact ⟨line, by simp [fillLine, NulStr.next], by simpa [NulStr.next] using h, rfl⟩
  | succ n ih =>
    cases f with
    | nil => exact ⟨line, by simp [fillLine, NulStr.next], by simpa [NulStr.next] using h, rfl⟩
    | cons c f =>
      rw [fillLine, NulStr.next]
      split
      · exact ⟨line, by simp, by simpa using h, rfl⟩
      · obtain ⟨line₁, hstore, hpre, hlen⟩ := storeAt_prefix (some c) h (by simp; omega)
        rw [List.length_map] at hstore
        have hpre₁ : (xs ++ [c]).map some <+: line₁ := by simpa using hpre
        obtain ⟨line', hfill, hpre', hlen'⟩ := ih f hpre₁ (by simp; omega)
        refine ⟨line', ?_, by simpa using hpre', by omega⟩
        rw [hstore]
        have hi : ((xs ++ [c]).length : Int) = xs.length + 1 := by simp
        rw [hi] at hfill
        show fillLine n line₁ (xs.length + 1) f = _
        simpa using hfill

theorem storeAt_freshLine {xs : Bytes} {line : List (Option UInt8)} (h : xs.map some <+: line)
    (hroom : xs.length < line.length) : ∃ line', storeAt line xs.length (some 0) = .ok line' ∧
      xs.map some ++ [some 0] <+: line' := by
  obtain ⟨line', hstore, hpre, -⟩ := storeAt_prefix (some 0) h (by simpa using hroom)
  rw [List.length_map] at hstore
  exact ⟨line', hstore, hpre⟩

/-- A line of the environment that starts the test of its container. -/
def environLines (f : Bytes) : List Bytes := NulStr.records 0 (lineMax - 1) f

/-- The scan ends, never leaves its line and never reads what it has not set;
its answer is that of the first line that names a container. -/
theorem scanEnviron_eq (n : Nat) (f : Bytes) (hn : f.length < n) :
    scanEnviron n f = .ok ((environLines f).findSome? containerOf) := by
  induction n generalizing f with
  | zero => omega
  | succ n ih =>
    have hfresh : freshLine.length = lineMax := List.length_replicate
    have hmax : lineMax - 1 ≠ 0 := by decide
    have hnil : ([] : Bytes).map some <+: freshLine := List.nil_prefix
    obtain ⟨line, hfill, hpre, hlen⟩ := fillLine_prefix (lineMax - 1) f hnil
      (by rw [hfresh]; decide)
    have hrecord := NulStr.length_next (z := (0 : UInt8)) (lineMax - 1) f
    rw [List.nil_append] at hfill hpre
    obtain ⟨line', hstore, hpre'⟩ := storeAt_freshLine hpre (by
      rw [hlen, hfresh]
      have : lineMax = 2048 := rfl
      omega)
    have hstring := lineString_of_prefix (NulStr.not_mem_next (lineMax - 1) f) hpre'
    have hlines := NulStr.records_next (z := (0 : UInt8)) hmax f
    unfold scanEnviron environLines
    rw [hlines, List.findSome?_cons]
    have hfill : fillLine (lineMax - 1) freshLine 0 f = _ := hfill
    rw [hfill]
    simp only [Except.bind, hstore, hstring]
    cases hc : containerOf (NulStr.next 0 (lineMax - 1) f).1 with
    | some id => rfl
    | none =>
      cases hrest : (NulStr.next 0 (lineMax - 1) f).2 with
      | none => rfl
      | some rest =>
        have hshort := NulStr.next_shorter hmax hrest
        exact ih rest (by omega)

/-! The tables. -/

@[simp] theorem forTable_eq {σ ρ : Type} (body : σ → Bytes → Bytes → Except ρ σ)
    (table : List (NulStr.Pair (0 : UInt8))) (s : σ) :
    forTable body table s = pure (table.foldlM (fun s p => body s p.key p.val) s) := by
  rw [forTable, NulStr.foreachPair_mem]

/-- A walk that the first hit ends. -/
theorem foldlM_first {α β : Type} (c : α → Bool) (g : α → β) (t : List α) :
    t.foldlM (fun _ p => if c p then .error (g p) else .ok ()) () =
      match t.find? c with
      | some p => Except.error (g p)
      | none => .ok () := by
  induction t with
  | nil => rfl
  | cons p t ih =>
    rw [List.foldlM_cons, List.find?_cons]
    cases h : c p with
    | true => rfl
    | false => exact ih

/-- A walk that keeps the last hit, where all hits say the same. -/
theorem foldl_last {α β : Type} {c : α → Bool} {g : α → β} {t : List α}
    (h : ∀ p ∈ t, ∀ q ∈ t, c p = true → c q = true → g p = g q) :
    t.foldl (fun found p => if c p then some (g p) else found) none = (t.find? c).map g := by
  induction t using List.reverseRecOn with
  | nil => rfl
  | append_singleton t p ih =>
    have ih := ih (fun q hq r hr => h q (by simp [hq]) r (by simp [hr]))
    rw [List.foldl_append, List.find?_append, List.foldl_cons, List.foldl_nil, ih]
    cases hp : c p with
    | false => simp [hp]
    | true =>
      cases hq : t.find? c with
      | none => simp [hp]
      | some q =>
        have hq' := h q (by simp [List.mem_of_find?_eq_some hq]) p (by simp)
          (List.find?_some hq) hp
        simp [hq']

/-- The name of a signature in the CPUID table. -/
def cpuidName (sig : Bytes) : Option Bytes :=
  (cpuidVendorTable.find? (fun p => streq sig p.key)).map (·.val)

/-- The name of a vendor in the DMI table. -/
def dmiName (s : Bytes) : Option Bytes :=
  (dmiVendorTable.find? (fun p => startswith s p.key)).map (·.val)

/-- No vendor of the table starts another that stands for something else. -/
theorem dmiVendorTable_consistent {p q : NulStr.Pair (0 : UInt8)} (hp : p ∈ dmiVendorTable)
    (hq : q ∈ dmiVendorTable) {s : Bytes} (h : startswith s p.key = true)
    (h' : startswith s q.key = true) : p.val = q.val := by
  have hkeys : ∀ p ∈ dmiVendorTable, ∀ q ∈ dmiVendorTable,
      p.key.isPrefixOf q.key = true → p.val = q.val := by decide
  rw [startswith_iff] at h h'
  rcases List.prefix_or_prefix_of_prefix h h' with hpq | hqp
  · exact hkeys p hp q hq (List.isPrefixOf_iff_prefix.mpr hpq)
  · exact (hkeys q hq p hp (List.isPrefixOf_iff_prefix.mpr hqp)).symm

/-- In whichever order the entries stand. -/
theorem dmiName_eq_some_iff (s v : Bytes) : dmiName s = some v ↔
    ∃ p ∈ dmiVendorTable, p.key <+: s ∧ p.val = v := by
  constructor
  · intro h
    obtain ⟨p, hp, rfl⟩ := Option.map_eq_some_iff.mp h
    have hs : startswith s p.key = true := by simpa using List.find?_some hp
    exact ⟨p, List.mem_of_find?_eq_some hp, startswith_iff.mp hs, rfl⟩
  · intro h
    obtain ⟨p, hp, hs, rfl⟩ := h
    have hs := startswith_iff.mpr hs
    cases hq : dmiVendorTable.find? (fun p => startswith s p.key) with
    | none => exact absurd hs (by simpa using List.find?_eq_none.mp hq p hp)
    | some q =>
      have hs' : startswith s q.key = true := by simpa using List.find?_some hq
      unfold dmiName
      rw [hq, Option.map_some,
        dmiVendorTable_consistent (List.mem_of_find?_eq_some hq) hp hs' hs]

theorem dmiFound_eq (s : Bytes) : dmiFound s = pure (.ok (dmiName s)) := by
  unfold dmiFound
  rw [forTable_eq]
  congr 1
  exact List.foldlM_pure.trans (congrArg Except.ok (foldl_last
    (fun p hp q hq h h' => dmiVendorTable_consistent hp hq h h')))

/-! What a look at the surroundings `ω` finds. -/

section Found
variable (ω : ∀ a, SysAns a)

def copyOf (fn : String) (t : Bytes) : Except Errno Bytes :=
  if ω (.strdup fn (cString t)) then .ok (truncateNl (cString t)) else .error enomem

/-- The first line of an open file. -/
def lineIn (fn : String) : Except Errno Bytes :=
  match fgets lineMax (ω (.read fn)), (ω (.read fn)).error with
  | none, some errno => .error errno
  | t, _ => copyOf ω fn (t.getD [])

def lineOf (fn : String) : Except Errno Bytes :=
  match ω (.fopen fn) with
  | .error errno => .error errno
  | .ok _ => lineIn ω fn

/-- What a DMI file decides, if anything. -/
def dmiVerdict (fn : String) : Option (Except Errno Bytes) :=
  match lineOf ω fn with
  | .error errno => if errno ≠ enoent then some (.error errno) else none
  | .ok s => (dmiName s).map .ok

def hypervisorBit : Bool := (ω (.cpuid 1)).ecx &&& 0x80000000 ≠ 0

/-- The name the hypervisor gives itself, if there is one and it is known. -/
def hypervisorName : Option Bytes :=
  if hypervisorBit ω then cpuidName (sigText (ω (.cpuid 0x40000000))) else none

/-- The virtual machine: the hypervisor's own name first, then the first DMI
file that decides. -/
def vmIn : Except Errno (Option Bytes) :=
  match hypervisorName ω with
  | some name => .ok (some name)
  | none => match dmiVendors.findSome? (dmiVerdict ω) with
    | some verdict => verdict.map some
    | none => .ok (if hypervisorBit ω then some (ascii "other") else none)

def chrooted : Bool :=
  match ω (.stat "/proc/1/root"), ω (.stat "/") with
  | .ok a, .ok b => a ≠ b
  | _, _ => false

def environNames : Option Bytes :=
  match ω (.fopen "/proc/1/environ") with
  | .ok _ => (environLines (ω (.read "/proc/1/environ")).bytes).findSome? containerOf
  | .error _ => none

def containerIn : Option Bytes :=
  if chrooted ω then some (ascii "chroot")
  else if ω (.access "/proc/vz") ≥ 0 ∧ ω (.access "/proc/bc") < 0 then some (ascii "openvz")
  else environNames ω

variable (id : Option Bytes) (s : Statics)

theorem result_copyString (fn : String) (t : Bytes) :
    (copyString fn t).result ω s = .ok (copyOf ω fn t, s) := by
  unfold copyString copyOf
  rw [Proc.result_bind_ok _ _ (result_sys ..)]
  split <;> rfl

theorem result_copyLine (fn : String) : (copyLine fn).result ω s = .ok (lineIn ω fn, s) := by
  unfold copyLine lineIn
  rw [Proc.result_bind_ok _ _ (result_sys ..)]
  cases fgets lineMax (ω (.read fn)) with
  | some t => exact result_copyString ω s fn t
  | none =>
    cases (ω (.read fn)).error with
    | some errno => rfl
    | none => exact result_copyString ω s fn []

theorem result_readOneLineFile (fn : String) :
    (readOneLineFile fn).result ω s = .ok (lineOf ω fn, s) := by
  unfold readOneLineFile lineOf
  rw [Proc.result_bind_ok _ _ (result_sys ..)]
  cases ω (.fopen fn) with
  | error errno => rfl
  | ok _ =>
    show Proc.result ω (copyLine fn >>= _) s = _
    rw [Proc.result_bind_ok _ _ (result_copyLine ω s fn)]
    rfl

theorem result_dmiVendor (files : List String) : (dmiVendor files).result ω s =
    .ok (match files.findSome? (dmiVerdict ω) with
      | some verdict => verdict.map some
      | none => .ok none, s) := by
  induction files with
  | nil => rfl
  | cons fn files ih =>
    rw [dmiVendor, Proc.result_bind_ok _ _ (result_readOneLineFile ω s fn), List.findSome?_cons]
    cases hline : lineOf ω fn with
    | error errno =>
      have hv : dmiVerdict ω fn = if errno ≠ enoent then some (.error errno) else none := by
        rw [dmiVerdict, hline]
      rw [hv]
      by_cases h : errno = enoent
      · simpa [h] using ih
      · simp [h, Except.map]
    | ok line =>
      have hv : dmiVerdict ω fn = (dmiName line).map .ok := by rw [dmiVerdict, hline]
      rw [hv]
      simp only [dmiFound_eq, pure_bind]
      rw [Proc.result_bind_ok _ _ (result_sys ..), Proc.result_bind_ok _ _ (result_sys ..)]
      cases dmiName line with
      | none => simpa using ih
      | some name => rfl

theorem result_cpuidVendor :
    (cpuidVendor (hypervisorBit ω)).result ω s = .ok (hypervisorName ω, s) := by
  unfold cpuidVendor hypervisorName cpuidName
  split
  · simp only [forTable_eq, pure_bind]
    rw [Proc.result_bind_ok _ _ (result_sys ..), foldlM_first]
    cases cpuidVendorTable.find? _ <;> rfl
  · rfl

theorem result_detectVm : (detectVm id).result ω s = .ok (match vmIn ω with
    | .error errno => (errno.neg, id)
    | .ok (some name) => (1, some name)
    | .ok none => (0, id), s) := by
  unfold detectVm vmIn
  rw [Proc.result_bind_ok _ _ (result_sys ..)]
  show Proc.result ω (cpuidVendor (hypervisorBit ω) >>= _) s = _
  rw [Proc.result_bind_ok _ _ (result_cpuidVendor ω s)]
  cases hypervisorName ω with
  | some name => rfl
  | none =>
    rw [Proc.result_bind_ok _ _ (result_dmiVendor ω s dmiVendors)]
    rcases dmiVendors.findSome? (dmiVerdict ω) with _ | verdict | verdict
    · show Proc.result ω
        (if hypervisorBit ω then pure (1, some (ascii "other")) else pure (0, id)) s = _
      cases hypervisorBit ω <;> rfl
    · rfl
    · rfl

theorem result_runningInChroot : ∃ r, runningInChroot.result ω s = .ok (r, s) ∧
    (0 < r ↔ chrooted ω = true) := by
  unfold runningInChroot chrooted
  rw [Proc.result_bind_ok _ _ (result_sys ..)]
  cases ω (.stat "/proc/1/root") with
  | error errno => exact ⟨_, rfl, by simpa using Int.le_of_lt errno.neg_lt⟩
  | ok a =>
    rw [Proc.result_bind_ok _ _ (result_sys ..)]
    cases ω (.stat "/") with
    | error errno => exact ⟨_, rfl, by simpa using Int.le_of_lt errno.neg_lt⟩
    | ok b =>
      refine ⟨_, rfl, ?_⟩
      obtain ⟨d, i⟩ := a
      obtain ⟨d', i'⟩ := b
      by_cases hd : d = d' <;> by_cases hi : i = i' <;> simp [hd, hi]

theorem result_openvz : openvz.result ω s =
    .ok (decide (ω (.access "/proc/vz") ≥ 0 ∧ ω (.access "/proc/bc") < 0), s) := by
  unfold openvz
  rw [Proc.result_bind_ok _ _ (result_sys ..)]
  split
  · rename_i h
    rw [Proc.result_bind_ok _ _ (result_sys ..)]
    simp [h]
  · rename_i h
    simp [h]

theorem result_detectContainer : (detectContainer id).result ω s = .ok
    (if ω .geteuid ≠ 0 then (eperm.neg, id)
      else match containerIn ω with
        | some name => (1, some name)
        | none => (0, id), s) := by
  unfold detectContainer containerIn
  rw [Proc.result_bind_ok _ _ (result_sys ..)]
  split
  · rfl
  · obtain ⟨r, hr, hpos⟩ := result_runningInChroot ω s
    rw [Proc.result_bind_ok _ _ hr]
    by_cases hc : chrooted ω = true
    · simp only [hc, if_true, gt_iff_lt, hpos.mpr hc]
      rfl
    · have hr0 : ¬ 0 < r := fun h => hc (hpos.mp h)
      simp only [hc, gt_iff_lt, hr0, if_false]
      rw [Proc.result_bind_ok _ _ (result_openvz ω s)]
      simp only [decide_eq_true_eq]
      split
      · rfl
      · unfold environNames
        rw [Proc.result_bind_ok _ _ (result_sys ..)]
        cases ω (.fopen "/proc/1/environ") with
        | error errno => rfl
        | ok _ =>
          show Proc.result ω (sys (.read "/proc/1/environ") >>= _) s = _
          rw [Proc.result_bind_ok _ _ (result_sys ..)]
          simp only [scanEnviron_eq _ _ (Nat.lt_succ_self _), checked_ok, pure_bind]
          rw [Proc.result_bind_ok _ _ (result_sys ..)]
          cases (environLines (ω (.read "/proc/1/environ")).bytes).findSome? containerOf <;> rfl

end Found

/-! The virtual machine. -/

theorem dmiVerdict_vendor {ω : ∀ a, SysAns a} {fn : String} {line : Bytes}
    {p : NulStr.Pair (0 : UInt8)} (hline : lineOf ω fn = .ok line) (hp : p ∈ dmiVendorTable)
    (hkey : p.key <+: line) : dmiVerdict ω fn = some (.ok p.val) := by
  unfold dmiVerdict
  rw [hline]
  show (dmiName line).map Except.ok = _
  rw [(dmiName_eq_some_iff line p.val).mpr ⟨p, hp, hkey, rfl⟩]
  rfl

theorem dmiVerdict_error {ω : ∀ a, SysAns a} {fn : String} {errno : Errno}
    (hline : lineOf ω fn = .error errno) (he : errno ≠ enoent) :
    dmiVerdict ω fn = some (.error errno) := by
  unfold dmiVerdict
  rw [hline]
  exact if_pos he

/-- No question comes twice in a call, so the surroundings give one answer for each.
The walks over the tables stay in memory and the call returns. A name the
hypervisor gives itself comes first. Then the first DMI file that decides does:
by any vendor of the table its line starts with, or by an error other than a
missing file. Where none does, an unnamed hypervisor is told from none. -/
theorem vm_of_surroundings (ω : ∀ a, SysAns a) (id : Option Bytes) (s : Statics) :
    ∃ r, (detectVm id).result ω s = .ok (r, s) ∧
      (∀ name, hypervisorName ω = some name → r = (1, some name)) ∧
      (hypervisorName ω = none →
        (∀ earlier fn later, dmiVendors = earlier ++ fn :: later →
          (∀ f ∈ earlier, dmiVerdict ω f = none) →
          (∀ line, lineOf ω fn = .ok line → ∀ p ∈ dmiVendorTable, p.key <+: line →
            r = (1, some p.val)) ∧
          (∀ errno, lineOf ω fn = .error errno → errno ≠ enoent → r = (errno.neg, id))) ∧
        ((∀ fn ∈ dmiVendors, dmiVerdict ω fn = none) →
          r = if hypervisorBit ω then (1, some (ascii "other")) else (0, id))) := by
  refine ⟨_, result_detectVm ω id s, ?_, ?_⟩
  · intro name h
    rw [vmIn, h]
  · intro h
    have hvm : vmIn ω = match dmiVendors.findSome? (dmiVerdict ω) with
        | some verdict => verdict.map some
        | none => .ok (if hypervisorBit ω then some (ascii "other") else none) := by
      rw [vmIn, h]
    rw [hvm]
    refine ⟨?_, ?_⟩
    · intro earlier fn later hsplit hearlier
      have hfirst : dmiVendors.findSome? (dmiVerdict ω) =
          (dmiVerdict ω fn).or (later.findSome? (dmiVerdict ω)) := by
        rw [hsplit, List.findSome?_append, List.findSome?_eq_none_iff.mpr hearlier,
          List.findSome?_cons, Option.none_or]
        cases dmiVerdict ω fn <;> rfl
      rw [hfirst]
      refine ⟨?_, ?_⟩
      · intro line hline p hp hkey
        rw [dmiVerdict_vendor hline hp hkey]
        rfl
      · intro errno hline he
        rw [dmiVerdict_error hline he]
        rfl
    · intro hnone
      rw [List.findSome?_eq_none_iff.mpr hnone]
      cases hypervisorBit ω <;> rfl

/-! The environment, by its entries. -/

theorem containerOf_nil : containerOf [] = none := by decide

theorem containerOf_isSome (e : Bytes) :
    (containerOf e).isSome = startswith e (ascii "container=") := by
  unfold containerOf streq
  split
  · rename_i h
    rw [beq_iff_eq.mp h]
    decide
  · split
    · rename_i h
      rw [beq_iff_eq.mp h]
      decide
    · split
      · rename_i h
        rw [beq_iff_eq.mp h]
        decide
      · split
        · rename_i h
          rw [h]
          rfl
        · rename_i h
          simpa using h

/-- What a caller sees of a container, or of none. -/
def seen (id : Option Bytes) : Option Bytes → Int × Option Bytes
  | some name => (1, some name)
  | none => (0, id)

theorem findSome_containerOf (entries : List Bytes) : entries.findSome? containerOf =
    (entries.find? (fun e => startswith e (ascii "container="))).bind containerOf := by
  induction entries with
  | nil => rfl
  | cons e entries ih =>
    rw [List.findSome?_cons, List.find?_cons, ← containerOf_isSome e]
    cases h : containerOf e with
    | some name => simp [h]
    | none => simpa [h] using ih

/-- For root outside a changed root and OpenVZ, whatever the bytes of the
environment are: the call returns, and answers by the first line that names a
container. An environment whose entries fit a line is read entry by entry. -/
theorem container_of_environ (ω : ∀ a, SysAns a) (id : Option Bytes) (s : Statics) (f : Stream)
    (hroot : ω .geteuid = 0) (hchroot : chrooted ω = false)
    (hvz : ω (.access "/proc/vz") < 0 ∨ 0 ≤ ω (.access "/proc/bc"))
    (hopen : ω (.fopen "/proc/1/environ") = .ok ()) (hf : ω (.read "/proc/1/environ") = f) :
    (detectContainer id).result ω s =
      .ok (seen id ((environLines f.bytes).findSome? containerOf), s) ∧
    ∀ entries : List Bytes, (∀ e ∈ entries, 0 ∉ e ∧ e.length < lineMax) →
      f.bytes = entries.flatMap (· ++ [0]) → (detectContainer id).result ω s = .ok (seen id
        ((entries.find? (fun e => startswith e (ascii "container="))).bind containerOf), s) := by
  have hopenvz : ¬ (ω (.access "/proc/vz") ≥ 0 ∧ ω (.access "/proc/bc") < 0) := by
    intro h
    rcases hvz with hvz | hbc
    · exact absurd h.1 (Int.not_le.mpr hvz)
    · exact absurd h.2 (Int.not_lt.mpr hbc)
  have hin : containerIn ω = (environLines f.bytes).findSome? containerOf := by
    unfold containerIn environNames
    rw [if_neg (by rw [hchroot]; exact Bool.false_ne_true), if_neg hopenvz, hopen, hf]
  have hresult : (detectContainer id).result ω s =
      .ok (seen id ((environLines f.bytes).findSome? containerOf), s) := by
    rw [result_detectContainer, if_neg (by rw [hroot]; simp), hin]
    cases (environLines f.bytes).findSome? containerOf <;> rfl
  refine ⟨hresult, ?_⟩
  intro entries hentries hbytes
  -- cutting at the terminators gives the entries back, and an empty one behind the last
  have hsplit : f.bytes.splitOn 0 = entries ++ [[]] := by
    have hcut : (entries.flatMap (· ++ [0]) ++ []).splitOn 0 = entries ++ [[]] :=
      Stages.splitOn_flatMap (fun e he => (hentries e he).1) (by simp)
    rwa [List.append_nil, ← hbytes] at hcut
  have hshort : ∀ e ∈ f.bytes.splitOn 0, e.length ≤ lineMax - 1 := by
    intro e he
    rw [hsplit, List.mem_append] at he
    rcases he with he | he
    · have := (hentries e he).2
      omega
    · rw [List.mem_singleton.mp he]
      exact Nat.zero_le _
  have hlines : (environLines f.bytes).findSome? containerOf =
      entries.findSome? containerOf := by
    unfold environLines
    rw [NulStr.findSome_records containerOf_nil (by decide) hshort, hsplit, List.findSome?_append,
      List.findSome?_singleton, containerOf_nil, Option.or_none]
  rw [hresult, hlines, findSome_containerOf]

/-- What root sees on a machine without hypervisor or DMI, with this environment
for the first process. -/
def bareHost (environ : Bytes) : (a : SysAct) → SysAns a
  | .shim a => allGood a
  | .geteuid => (0 : Nat)
  | .stat _ => Except.ok ⟨1, 2⟩
  | .access _ => (-1 : Int)
  | .fopen path => if path = "/proc/1/environ" then Except.ok () else Except.error enoent
  | .read _ => ⟨environ, none⟩
  | .fclose _ => ()
  | .strdup _ _ => true
  | .touch _ => ()
  | .free _ => ()
  | .cpuid _ => ⟨0, 0, 0, 0⟩
  | .getpid => (1 : Nat)
  | .connect => false
  | .getApiVersion => none
  | .callSync _ => none

theorem container_of_environ_lxc :
    (detectContainer (some [])).result
      (bareHost (ascii "TERM=linux" ++ [0] ++ ascii "container=lxc" ++ [0])) {} =
      .ok ((1, some (ascii "lxc")), {}) :=
  ((container_of_environ (bareHost (ascii "TERM=linux" ++ [0] ++ ascii "container=lxc" ++ [0]))
    (some []) {} ⟨ascii "TERM=linux" ++ [0] ++ ascii "container=lxc" ++ [0], none⟩ rfl (by decide)
    (.inl (by decide)) rfl rfl).2 [ascii "TERM=linux", ascii "container=lxc"] (by decide)
    (by decide)).trans (by decide)

/-- The names of the containers and of the virtual machines that are told apart. -/
def containerNames : List Bytes :=
  ["chroot", "openvz", "lxc", "lxc-libvirt", "systemd-nspawn", "other"].map ascii

def vmNames : List Bytes :=
  ["xen", "kvm", "vmware", "microsoft", "qemu", "oracle", "bochs", "other"].map ascii

theorem containerOf_name {e name : Bytes} (h : containerOf e = some name) :
    name ∈ containerNames := by
  unfold containerOf at h
  repeat' split at h
  all_goals cases h
  all_goals decide

theorem containerIn_name {ω : ∀ a, SysAns a} {name : Bytes} (h : containerIn ω = some name) :
    name ∈ containerNames := by
  unfold containerIn environNames at h
  repeat' split at h
  · obtain rfl := Option.some.inj h
    decide
  · obtain rfl := Option.some.inj h
    decide
  · obtain ⟨e, -, he⟩ := List.exists_of_findSome?_eq_some h
    exact containerOf_name he
  · cases h

theorem cpuidName_mem {p : NulStr.Pair (0 : UInt8)} (h : p ∈ cpuidVendorTable) :
    p.val ∈ vmNames := by
  have hvals : ∀ p ∈ cpuidVendorTable, p.val ∈ vmNames := by decide
  exact hvals p h

theorem dmiName_mem {s name : Bytes} (h : dmiName s = some name) : name ∈ vmNames := by
  have hvals : ∀ p ∈ dmiVendorTable, p.val ∈ vmNames := by decide
  obtain ⟨p, hp, -, rfl⟩ := (dmiName_eq_some_iff _ _).mp h
  exact hvals p hp

theorem vmIn_name {ω : ∀ a, SysAns a} {name : Bytes} (h : vmIn ω = .ok (some name)) :
    name ∈ vmNames := by
  unfold vmIn at h
  split at h
  · rename_i k hk
    obtain rfl := Option.some.inj (Except.ok.inj h)
    unfold hypervisorName cpuidName at hk
    split at hk
    · obtain ⟨p, hp, rfl⟩ := Option.map_eq_some_iff.mp hk
      exact cpuidName_mem (List.mem_of_find?_eq_some hp)
    · cases hk
  · split at h
    · rename_i verdict hv
      obtain ⟨fn, -, hfn⟩ := List.exists_of_findSome?_eq_some hv
      cases verdict with
      | error errno => cases h
      | ok found =>
        obtain rfl := Option.some.inj (Except.ok.inj h)
        unfold dmiVerdict at hfn
        split at hfn
        · split at hfn <;> cases hfn
        · obtain ⟨v, hname, hok⟩ := Option.map_eq_some_iff.mp hfn
          obtain rfl := Except.ok.inj hok
          exact dmiName_mem hname
    · split at h
      · obtain rfl := Option.some.inj (Except.ok.inj h)
        decide
      · cases h

end Shim
