import SystemdShim.Service
import SystemdShim.Lib.Stages

/- The cgroup hierarchy that names span. The path of a slice spells out the
   stages of its name, every part before a dash made a slice of its own; the
   path of a scope adds the scope to that of its slice. `containment_iff` says
   which paths lie below which: the dash hierarchy, and nothing else. -/
namespace Shim
open Effects

/-- A path as the list of cgroups from the top down. -/
def components (path : Bytes) : List Bytes := path.splitOn (chr '/')

/-- The cgroup at `p` is the one at `q`, or has it below. -/
def Contains (p q : Bytes) : Prop := components p <+: components q

instance (p q : Bytes) : Decidable (Contains p q) := inferInstanceAs (Decidable (_ <+: _))

/-- The cgroups a recursive call works on. -/
def CgCall.Reaches : CgCall → Bytes → Prop
  | .getTasksRecursive _ p, q => Contains p q
  | .remove _ p recursive, q => if recursive = 1 then Contains p q else p = q
  | _, _ => False

/-- A name that ends in `.slice` and has no slash. -/
structure SliceName where
  stem : Bytes
  noSlash : chr '/' ∉ stem

def SliceName.name (s : SliceName) : Bytes := s.stem ++ ascii ".slice"

/-- A name that ends in `.scope` and has no slash. -/
structure ScopeName where
  stem : Bytes
  noSlash : chr '/' ∉ stem

def ScopeName.name (s : ScopeName) : Bytes := s.stem ++ ascii ".scope"

/-- A unit with what its path is built from. -/
inductive CgroupUnit where
  | slice (s : SliceName)
  | scope (s : ScopeName) (of : SliceName)

namespace CgroupUnit

def name : CgroupUnit → Bytes
  | .slice s => s.name
  | .scope s _ => s.name

/-- The slice the unit is, or is in. -/
def sliceOf : CgroupUnit → SliceName
  | .slice s => s
  | .scope _ of => of

def path : CgroupUnit → Bytes
  | .slice s => (cgroupUnitGetPathAndUid s.name none).1
  | .scope s of => (cgroupUnitGetPathAndUid of.name (some s.name)).1

/-- The calls that start the unit. -/
inductive StartedBy : CgroupUnit → Call → Prop where
  | slice (s : SliceName) (sender mode : Bytes) :
      StartedBy (.slice s) (.startUnit sender s.name mode)
  | scope (s : ScopeName) (of : SliceName) (sender mode : Bytes)
      (properties : List (Bytes × Variant)) (aux : List Variant)
      (h : lastStringSlice properties = some of.name) :
      StartedBy (.scope s of) (.startTransientUnit sender s.name mode properties aux)

end CgroupUnit

@[simp] theorem SliceName.hasSuffix (s : SliceName) : ascii ".slice" <:+ s.name :=
  List.suffix_append _ _

@[simp] theorem ScopeName.hasSuffix (s : ScopeName) : ascii ".scope" <:+ s.name :=
  List.suffix_append _ _

/-- A call that starts the unit records it under `path`. -/
theorem CgroupUnit.StartedBy.op {u : CgroupUnit} {c : Call} (h : u.StartedBy c) :
    ∃ uid pids, c.op = some (.start u.name u.path uid pids) := by
  cases h with
  | slice s sender mode =>
    refine ⟨userSliceUid s.name, [], ?_⟩
    simp only [Call.op, gStrHasSuffix_iff, s.hasSuffix, if_true]
    rfl
  | scope s of sender mode properties aux hp =>
    refine ⟨userSliceUid of.name, allPids properties, ?_⟩
    simp only [Call.op, gStrHasSuffix_iff, s.hasSuffix, of.hasSuffix, hp, if_true]
    rfl

/-! The path loop. -/

theorem pathLoop_eq (rest : Bytes) : ∀ pre path : Bytes,
    pathLoop (pre ++ rest) pre.length rest path =
      path ++ (Stages.cuts (chr '-') rest).flatMap (fun c => pre ++ c ++ ascii ".slice/") ++
        (pre ++ rest) := by
  -- `pre` is what the loop has passed, `path` what it has written
  induction rest with
  | nil => intro pre path; simp [pathLoop, Stages.cuts]
  | cons c rest ih =>
    intro pre path
    have ih := ih (pre ++ [c])
    rw [List.append_assoc, List.singleton_append, List.length_append, List.length_singleton] at ih
    rw [pathLoop]
    split
    · rename_i hc
      subst hc
      rw [ih, List.take_left]
      simp [Stages.cuts, List.flatMap_map, List.append_assoc]
    · rename_i hc
      rw [ih]
      simp [Stages.cuts, hc, List.flatMap_map, List.append_assoc]

/-- The names of the slices from the top down to the one with this stem. -/
def chain (stem : Bytes) : List Bytes :=
  (Stages.stages (chr '-') stem).map (· ++ ascii ".slice")

/-- The path of any slice name: each of its cuts made a slice, then itself. -/
theorem path_eq (slice : Bytes) : (cgroupUnitGetPathAndUid slice none).1 =
    (Stages.cuts (chr '-') slice).flatMap (· ++ ascii ".slice/") ++ slice := by
  have h := pathLoop_eq slice [] []
  simp only [List.nil_append] at h
  exact h

theorem cuts_slice (w : Bytes) :
    Stages.cuts (chr '-') (w ++ ascii ".slice") = Stages.cuts (chr '-') w := by
  rw [Stages.cuts_append, Stages.cuts_eq_nil (w := ascii ".slice") (by decide), List.map_nil,
    List.append_nil]

theorem slice_path (s : SliceName) : (cgroupUnitGetPathAndUid s.name none).1 =
    ((Stages.cuts (chr '-') s.stem).map (· ++ ascii ".slice")).flatMap (· ++ [chr '/']) ++
      s.name := by
  rw [path_eq, SliceName.name, cuts_slice, List.flatMap_map]
  simp only [List.append_assoc]
  rfl

/-- A slice without a dash is at the top. -/
theorem path_top {z : Bytes} (hz : chr '-' ∉ z) :
    (cgroupUnitGetPathAndUid (z ++ ascii ".slice") none).1 = z ++ ascii ".slice" := by
  rw [path_eq, cuts_slice, Stages.cuts_eq_nil hz]
  rfl

/-- The part before the last dash is the parent. -/
theorem path_dash {x y : Bytes} (hy : chr '-' ∉ y) :
    (cgroupUnitGetPathAndUid (x ++ [chr '-'] ++ y ++ ascii ".slice") none).1 =
      (cgroupUnitGetPathAndUid (x ++ ascii ".slice") none).1 ++ [chr '/'] ++
        (x ++ [chr '-'] ++ y ++ ascii ".slice") := by
  have hxy : Stages.cuts (chr '-') (x ++ [chr '-'] ++ y) = Stages.cuts (chr '-') x ++ [x] := by
    have hd : Stages.cuts (chr '-') [chr '-'] = [[]] := by simp [Stages.cuts]
    rw [Stages.cuts_append, Stages.cuts_append, hd, Stages.cuts_eq_nil hy]
    simp
  have hslash : ascii ".slice/" = ascii ".slice" ++ [chr '/'] := by decide
  rw [path_eq, path_eq, cuts_slice, cuts_slice, hxy, List.flatMap_append, List.flatMap_singleton,
    hslash]
  simp only [List.append_assoc]

/-- A scope is one step below its slice, and the uid is the slice's. -/
theorem path_scope (slice scope : Bytes) : cgroupUnitGetPathAndUid slice (some scope) =
    ((cgroupUnitGetPathAndUid slice none).1 ++ [chr '/'] ++ scope,
      (cgroupUnitGetPathAndUid slice none).2) := rfl

theorem not_mem_cuts {s : SliceName} :
    ∀ p ∈ (Stages.cuts (chr '-') s.stem).map (· ++ ascii ".slice"),
    chr '/' ∉ p := by
  intro p hp hm
  obtain ⟨c, hc, rfl⟩ := List.mem_map.mp hp
  rcases List.mem_append.mp hm with hm | hm
  · exact s.noSlash (Stages.mem_cuts hc hm)
  · exact absurd hm (by decide)

theorem SliceName.not_mem (s : SliceName) : chr '/' ∉ s.name := by
  intro hm
  rcases List.mem_append.mp hm with hm | hm
  · exact s.noSlash hm
  · exact absurd hm (by decide)

theorem ScopeName.not_mem (s : ScopeName) : chr '/' ∉ s.name := by
  intro hm
  rcases List.mem_append.mp hm with hm | hm
  · exact s.noSlash hm
  · exact absurd hm (by decide)

theorem chain_eq (s : SliceName) : chain s.stem =
    (Stages.cuts (chr '-') s.stem).map (· ++ ascii ".slice") ++ [s.name] := by
  simp [chain, Stages.stages, SliceName.name]

/-- A slice's path is the chain of its name. -/
theorem components_slice (s : SliceName) :
    components (CgroupUnit.slice s).path = chain s.stem := by
  show components (cgroupUnitGetPathAndUid s.name none).1 = _
  rw [components, slice_path, Stages.splitOn_flatMap not_mem_cuts s.not_mem, chain_eq]

/-- A scope's path is the chain of its slice and the scope. -/
theorem components_scope (s : ScopeName) (of : SliceName) :
    components (CgroupUnit.scope s of).path = chain of.stem ++ [s.name] := by
  have h : (CgroupUnit.scope s of).path =
      (chain of.stem).flatMap (· ++ [chr '/']) ++ s.name := by
    show (cgroupUnitGetPathAndUid of.name none).1 ++ [chr '/'] ++ s.name = _
    rw [slice_path, chain_eq, List.flatMap_append, List.flatMap_singleton, List.append_assoc]
    simp only [List.append_assoc]
  unfold components
  rw [h, Stages.splitOn_flatMap _ s.not_mem]
  intro p hp
  rw [chain_eq, List.mem_append, List.mem_singleton] at hp
  rcases hp with hp | rfl
  · exact not_mem_cuts p hp
  · exact of.not_mem

/-! The dash hierarchy. -/

/-- `B` is, or is in, the slice `A` or a slice named after it with a dash. -/
def CgroupUnit.Under (B A : CgroupUnit) : Prop :=
  ∃ a, A = .slice a ∧ (B.sliceOf.name = a.name ∨ a.stem ++ [chr '-'] <+: B.sliceOf.name)

theorem chain_prefix_iff (a b : SliceName) :
    chain a.stem <+: chain b.stem ↔ b.name = a.name ∨ a.stem ++ [chr '-'] <+: b.name := by
  unfold chain
  rw [List.prefix_map_iff_of_injective (fun x y h => List.append_cancel_right h),
    Stages.stages_prefix_iff, SliceName.name, SliceName.name,
    Stages.concat_prefix_append_iff (by decide), List.append_left_inj, eq_comm]

theorem hasSuffix_of_mem_chain {stem p : Bytes} (h : p ∈ chain stem) : ascii ".slice" <:+ p := by
  obtain ⟨c, -, rfl⟩ := List.mem_map.mp h
  exact List.suffix_append _ _

/-- No name ends both ways. -/
theorem ScopeName.not_mem_chain (s : ScopeName) (stem : Bytes) : s.name ∉ chain stem := by
  intro h
  have := List.suffix_of_suffix_length_le (hasSuffix_of_mem_chain h) s.hasSuffix (by decide)
  exact absurd this (by decide)

theorem contains_iff (A B : CgroupUnit) (h : A.name ≠ B.name) :
    Contains A.path B.path ↔ B.Under A := by
  unfold Contains
  cases A with
  | slice a =>
    have hu : B.Under (.slice a) ↔ chain a.stem <+: chain B.sliceOf.stem := by
      rw [chain_prefix_iff]
      exact ⟨fun ⟨_, ha, h⟩ => by cases ha; exact h, fun h => ⟨a, rfl, h⟩⟩
    rw [hu, components_slice]
    cases B with
    | slice b => rw [components_slice]; rfl
    | scope s of =>
      rw [components_scope, List.prefix_concat_iff]
      have hne : chain a.stem ≠ chain of.stem ++ [s.name] := fun he =>
        s.not_mem_chain a.stem (by rw [he]; simp)
      exact or_iff_right hne
  | scope s of =>
    have hu : ¬ B.Under (.scope s of) := fun ⟨_, ha, _⟩ => by cases ha
    refine iff_of_false (fun hp => ?_) hu
    -- the scope would be one of the cgroups above the other unit
    rw [components_scope] at hp
    have hs : s.name ∈ components B.path := hp.subset (by simp)
    cases B with
    | slice b =>
      rw [components_slice] at hs
      exact s.not_mem_chain b.stem hs
    | scope s' of' =>
      rw [components_scope, List.mem_append, List.mem_singleton] at hs
      exact hs.elim (s.not_mem_chain of'.stem) h

theorem contains_refl (p : Bytes) : Contains p p := List.prefix_rfl

/-- Distinct units never share a path. -/
theorem path_injective {A B : CgroupUnit} (hp : A.path = B.path) : A.name = B.name := by
  by_contra h
  have hab := (contains_iff A B h).mp (hp ▸ contains_refl A.path)
  have hba := (contains_iff B A (Ne.symm h)).mp (hp ▸ contains_refl A.path)
  obtain ⟨a, rfl, hab⟩ := hab
  obtain ⟨b, rfl, hba⟩ := hba
  rcases hab with hab | hab
  · exact h hab.symm
  · rcases hba with hba | hba
    · exact h hba
    · -- each stem would be longer than the other
      rw [CgroupUnit.sliceOf, SliceName.name,
        Stages.concat_prefix_append_iff (by decide)] at hab hba
      have h1 := hab.length_le
      have h2 := hba.length_le
      simp only [List.length_append, List.length_singleton] at h1 h2
      omega

/-- What comes before a leading slash is an empty component. -/
theorem nil_mem_components {path : Bytes} (h : path.head? = some (chr '/')) :
    [] ∈ components path := by
  obtain ⟨t, ht⟩ := List.head?_eq_some_iff.mp h
  rw [ht, components, ← List.nil_append (chr '/' :: t),
    List.splitOn_append_cons_self_of_not_mem (by simp)]
  exact List.mem_cons_self ..

theorem skipSlash_of_nil_not_mem {path : Bytes} (h : [] ∉ components path) :
    skipSlash path = path := if_neg (fun hd => h (nil_mem_components hd))

/-- A path names its unit, so it does not start with a slash. -/
theorem skipSlash_path (A : CgroupUnit) : skipSlash A.path = A.path := by
  apply skipSlash_of_nil_not_mem
  intro hmem
  cases A with
  | slice a =>
    rw [components_slice] at hmem
    exact absurd (hasSuffix_of_mem_chain hmem) (by decide)
  | scope s of =>
    rw [components_scope, List.mem_append, List.mem_singleton] at hmem
    rcases hmem with hmem | hmem
    · exact absurd (hasSuffix_of_mem_chain hmem) (by decide)
    · exact absurd (hmem ▸ s.hasSuffix) (by decide)

/-- Stopping a recorded unit reaches its own cgroup and those it contains. -/
theorem stop_reaches {s s' : Process} {A : CgroupUnit} {sender mode : Bytes} {t : ShimTrace}
    (hrec : s.recorded A.name = some A.path)
    (hstep : callStep s (.stopUnit sender A.name mode, t) = some s') (path : Bytes) :
    (∃ c ∈ cgCalls t, c.Reaches path) ↔ Contains A.path path := by
  have hop : (Call.stopUnit sender A.name mode).op = some (.stop A.name) := by
    have : isCgroupName A.name = true := by
      rw [isCgroupName_iff, gStrHasSuffix_iff, gStrHasSuffix_iff]
      cases A with
      | slice a => exact .inl a.hasSuffix
      | scope s of => exact .inr s.hasSuffix
    simp only [Call.op, this, if_true]
  have hs := callStep_stop_calls hstep hop
  rw [hrec] at hs
  obtain ⟨n, -, hc⟩ := hs
  rw [hc]
  constructor
  · intro h
    obtain ⟨c, hm, hr⟩ := h
    rw [List.mem_flatten] at hm
    obtain ⟨l, hl, hm⟩ := hm
    rw [List.eq_of_mem_replicate hl] at hm
    simp only [roundCalls, skipSlash_path, List.mem_cons, List.not_mem_nil, or_false] at hm
    rcases hm with rfl | rfl
    · exact hr
    · exact hr
  · intro h
    refine ⟨.getTasksRecursive (ascii "all") A.path, ?_, h⟩
    rw [List.replicate_succ, List.flatten_cons]
    exact List.mem_append_left _ (List.mem_cons_self ..)

/-- Containment of paths is the dash hierarchy of slices: for units of
distinct names, one path contains the other exactly when the first is a slice
and the second's slice is it or is named after it. So no two units share a
path, no scope contains another unit, and a stop reaches its own unit and the
units below it, and no other. -/
theorem containment_is_dash_hierarchy (A B : CgroupUnit) (h : A.name ≠ B.name) :
    (∀ c, A.StartedBy c → ∃ uid pids, c.op = some (.start A.name A.path uid pids)) ∧
    (Contains A.path B.path ↔ B.Under A) ∧ A.path ≠ B.path ∧
    (∀ s of, A = .scope s of → ¬ Contains A.path B.path) ∧
    ∀ (s s' : Process) (sender mode : Bytes) (t : ShimTrace), s.recorded A.name = some A.path →
      callStep s (.stopUnit sender A.name mode, t) = some s' →
      (∃ c ∈ cgCalls t, c.Reaches A.path) ∧ ((∃ c ∈ cgCalls t, c.Reaches B.path) ↔ B.Under A) := by
  refine ⟨fun _ hc => hc.op, contains_iff A B h, fun hp => h (path_injective hp), ?_, ?_⟩
  · intro s of hs hp
    subst hs
    obtain ⟨_, ha, _⟩ := (contains_iff _ B h).mp hp
    cases ha
  · intro s s' sender mode t hrec hstep
    refine ⟨(stop_reaches hrec hstep _).mpr (contains_refl _), ?_⟩
    rw [stop_reaches hrec hstep, contains_iff A B h]

/-- A slice and a scope two levels below it. -/
theorem containment_is_dash_hierarchy_scope :
    let A := CgroupUnit.slice ⟨ascii "user", by decide⟩
    let B := CgroupUnit.scope ⟨ascii "session-1", by decide⟩ ⟨ascii "user-1000", by decide⟩
    Contains A.path B.path ∧ A.path ≠ B.path := by
  intro A B
  have h := containment_is_dash_hierarchy A B (by decide)
  exact ⟨h.2.1.mpr ⟨⟨ascii "user", by decide⟩, rfl, .inr (by decide)⟩, h.2.2.1⟩

/-! Paths by recursion on the name. -/

/-- The recursion the loop comes to: a slice without a dash is its own path, one
with a dash is below the slice named by what stands before its last dash, and a
scope is below its slice. So the calls for a slice and those for a scope in it
are about nested paths, with the same uid. -/
theorem paths_nest :
    (∀ z, chr '-' ∉ z →
      (cgroupUnitGetPathAndUid (z ++ ascii ".slice") none).1 = z ++ ascii ".slice") ∧
    (∀ x y, chr '-' ∉ y →
      (cgroupUnitGetPathAndUid (x ++ [chr '-'] ++ y ++ ascii ".slice") none).1 =
        (cgroupUnitGetPathAndUid (x ++ ascii ".slice") none).1 ++ [chr '/'] ++
          (x ++ [chr '-'] ++ y ++ ascii ".slice")) ∧
    (∀ slice scope, cgroupUnitGetPathAndUid slice (some scope) =
      ((cgroupUnitGetPathAndUid slice none).1 ++ [chr '/'] ++ scope,
        (cgroupUnitGetPathAndUid slice none).2)) ∧
    ∀ (sender mode slice sender' mode' scope : Bytes) (properties : List (Bytes × Variant))
      (aux : List Variant) (s₁ s₁' s₂ s₂' : Process) (t₁ t₂ : ShimTrace),
      gStrHasSuffix slice (ascii ".slice") = true → gStrHasSuffix scope (ascii ".scope") = true →
      lastStringSlice properties = some slice →
      callStep s₁ (.startUnit sender slice mode, t₁) = some s₁' →
      callStep s₂ (.startTransientUnit sender' scope mode' properties aux, t₂) = some s₂' →
      ∃ path uid, cgCalls t₁ = createCalls path uid [] ∧
        cgCalls t₂ = createCalls (path ++ [chr '/'] ++ scope) uid (allPids properties) := by
  refine ⟨fun z hz => path_top hz, fun x y hy => path_dash hy, path_scope, ?_⟩
  intro sender mode slice sender' mode' scope properties aux s₁ s₁' s₂ s₂' t₁ t₂ hs hn hp h₁ h₂
  have hop₁ : (Call.startUnit sender slice mode).op = some (startOp slice slice none []) := by
    simp only [Call.op, hs, if_true]
  have hop₂ : (Call.startTransientUnit sender' scope mode' properties aux).op =
      some (startOp scope slice (some scope) (allPids properties)) := by
    simp only [Call.op, hn, hp, hs, if_true]
  exact ⟨_, _, callStep_start_calls h₁ hop₁, callStep_start_calls h₂ hop₂⟩

/-- The slice of a user and a session of that user. -/
theorem paths_nest_user :
    (cgroupUnitGetPathAndUid (ascii "user-1000.slice") none).1 =
      ascii "user.slice/user-1000.slice" ∧
    ∃ path uid,
      cgCalls (callExec allGood bootProcess (.startUnit [] (ascii "user-1000.slice") [])) =
        createCalls path uid [] ∧
      cgCalls (callExec allGood bootProcess (.startTransientUnit [] (ascii "s.scope") []
          [(ascii "Slice", .string (ascii "user-1000.slice"))] [])) =
        createCalls (path ++ [chr '/'] ++ ascii "s.scope") uid [] := by
  obtain ⟨htop, hdash, -, hnest⟩ := paths_nest
  have hd := hdash (ascii "user") (ascii "1000") (by decide)
  rw [htop (ascii "user") (by decide)] at hd
  exact ⟨hd, hnest [] [] (ascii "user-1000.slice") [] [] (ascii "s.scope") _ [] _ _ _ _ _ _
    (by decide) (by decide) (by decide) (callStep_exec allGood _ _) (callStep_exec allGood _ _)⟩

end Shim
