import SystemdShim.SlicePaths

/- The calls about one unit. cgmanager_create and cgmanager_remove skip a
   leading slash of the path they are given, cgmanager_kill and cgmanager_prune
   do not: `oneCgroup_iff` says which starts record a path that all four take
   for the same cgroup. `actsAsListed_iff` is about the calls of one start, the
   one that reads a property list. -/
namespace Shim
open Effects

/-- The path argument of a call. -/
def CgCall.path : CgCall → Bytes
  | .create _ path => path
  | .chown _ path _ _ => path
  | .movePid _ path _ => path
  | .setValue _ path _ _ => path
  | .remove _ path _ => path
  | .getTasksRecursive _ path => path
  | .prune _ path => path

/-- Every call the program makes is about the cgroup at `q`. -/
def Addresses {α : Type} (x : ShimM α) (q : Bytes) : Prop :=
  ∀ s, Proc.wp x s (fun t _ => ∀ k ∈ cgCalls t, k.path = q)

/-- The four functions take the path for one and the same cgroup. -/
def OneCgroup (path : Bytes) : Prop :=
  ∃ q, (∀ uid pids, Addresses (cgmanagerCreate path uid pids) q) ∧
    Addresses (cgmanagerRemove path) q ∧ Addresses (cgmanagerKill path) q ∧
    Addresses (cgmanagerPrune path) q

theorem Issues.cgmanagerRemove (path : Bytes) :
    Issues (Shim.cgmanagerRemove path) [.remove (ascii "all") (skipSlash path) 1] :=
  .bind (.call _) (fun _ => .pure _)

theorem addresses_iff {α : Type} {x : ShimM α} {cs : List CgCall} (hx : Issues x cs) (q : Bytes) :
    Addresses x q ↔ ∀ k ∈ cs, k.path = q := by
  constructor
  · intro h
    obtain ⟨ht, -⟩ := Prog.wp_exec allGood (hx bootProcess)
    have hq := Prog.wp_exec allGood (h bootProcess)
    rwa [ht.cgCalls] at hq
  · intro h s
    apply Proc.wp_mono (hx s)
    intro t o ho
    rw [ho.1.cgCalls]
    exact h

theorem createCalls_path (path : Bytes) (uid : Int) (pids : List UInt32) :
    ∀ k ∈ createCalls path uid pids, k.path = skipSlash path := by
  intro k hk
  obtain rfl | ⟨-, rfl⟩ | ⟨_, -, rfl⟩ | rfl := mem_createCalls.mp hk <;> rfl

theorem addresses_cgmanagerKill (path : Bytes) : Addresses (cgmanagerKill path) path := by
  intro s
  apply Proc.wp_mono (wp_cgmanagerKill path s)
  intro t o h k hk
  obtain ⟨_, _, -, -, tasks, rfl⟩ := h
  rw [← List.singleton_append, cgCalls_append, cgCalls_kills, List.append_nil] at hk
  rw [List.mem_singleton.mp hk]
  rfl

theorem oneCgroup_iff_skipSlash (path : Bytes) : OneCgroup path ↔ skipSlash path = path := by
  have hremove := fun q => addresses_iff (Issues.cgmanagerRemove path) q
  have hprune := fun q => addresses_iff (Issues.cgmanagerPrune path) q
  constructor
  · intro h
    obtain ⟨q, -, hr, -, hp⟩ := h
    have hr := (hremove q).mp hr _ (List.mem_singleton_self _)
    have hp := (hprune q).mp hp _ (List.mem_singleton_self _)
    exact hr.trans hp.symm
  · intro h
    refine ⟨path, fun uid pids => ?_, ?_, addresses_cgmanagerKill path, ?_⟩
    · rw [addresses_iff (Issues.cgmanagerCreate path uid pids)]
      intro k hk
      rw [createCalls_path path uid pids k hk, h]
    · rw [hremove, List.forall_mem_singleton]
      exact h
    · rw [hprune, List.forall_mem_singleton]
      rfl

theorem skipSlash_eq_self_iff (path : Bytes) :
    skipSlash path = path ↔ path.head? ≠ some (chr '/') := by
  unfold skipSlash
  constructor
  · intro h hd
    rw [if_pos hd] at h
    obtain ⟨t, rfl⟩ := List.head?_eq_some_iff.mp hd
    have hlen := congrArg List.length h
    simp at hlen
  · intro h
    exact if_neg h

/-- A path opens with a slash when its slice does. -/
theorem path_head {slice : Bytes} (hs : slice ≠ []) (scope : Option Bytes) :
    (cgroupUnitGetPathAndUid slice scope).1.head? = some (chr '/') ↔
      slice.head? = some (chr '/') := by
  have hscope : (cgroupUnitGetPathAndUid slice scope).1.head? =
      (cgroupUnitGetPathAndUid slice none).1.head? := by
    have hne : (cgroupUnitGetPathAndUid slice none).1 ≠ [] := by
      intro he
      rw [path_eq, List.append_eq_nil_iff] at he
      exact hs he.2
    cases scope with
    | none => rfl
    | some scope =>
      rw [path_scope, List.append_assoc]
      exact List.head?_append_of_ne_nil _ hne
  rw [hscope, path_eq]
  cases slice with
  | nil => exact absurd rfl hs
  | cons c slice =>
    rw [Stages.cuts]
    by_cases hc : c = chr '-'
    · -- the first cut is empty, so the path opens with `.slice`
      subst hc
      have hdot : chr '.' ≠ chr '/' := by decide
      have hdash : some (chr '-') ≠ some (chr '/') := by decide
      rw [if_pos rfl]
      exact iff_of_false (fun h => hdot (Option.some.inj h)) hdash
    · rw [if_neg hc, List.nil_append]
      cases Stages.cuts (chr '-') slice with
      | nil => rfl
      | cons u us => rfl

/-- The cgmanager calls about the path of a start are all for one cgroup exactly
when the slice does not begin with a slash. -/
theorem oneCgroup_iff {c : Call} {unit path slice : Bytes} {uid : Int} {pids : List UInt32}
    (hop : c.op = some (.start unit path uid pids)) (hslice : c.slice = some slice) :
    OneCgroup path ↔ slice.head? ≠ some (chr '/') := by
  obtain ⟨slice', scope, hslice', hs, hpath, -⟩ := Call.op_start hop
  obtain rfl := Option.some.inj (hslice.symm.trans hslice')
  have hne : slice ≠ [] := by
    intro he
    rw [he] at hs
    exact absurd hs (by decide)
  have hfst : path = (cgroupUnitGetPathAndUid slice scope).1 := by rw [hpath]
  rw [oneCgroup_iff_skipSlash, skipSlash_eq_self_iff, hfst]
  exact not_congr (path_head hne scope)

theorem oneCgroup_iff_session :
    OneCgroup (ascii "user.slice/user-1000.slice/session-1.scope") := by
  have hop : (Call.startTransientUnit [] (ascii "session-1.scope") []
      [(ascii "Slice", .string (ascii "user-1000.slice"))] []).op =
      some (.start (ascii "session-1.scope")
        (ascii "user.slice/user-1000.slice/session-1.scope") 1000 []) := by decide
  have hslice : (Call.startTransientUnit [] (ascii "session-1.scope") []
      [(ascii "Slice", .string (ascii "user-1000.slice"))] []).slice =
      some (ascii "user-1000.slice") := by decide
  exact (oneCgroup_iff hop hslice).mpr (by decide)

/-- A scope in the slice `/a.slice` is killed and pruned elsewhere than it is
created and removed. -/
theorem not_oneCgroup_with_slash : ¬ ∀ (s s' : Process) (c : Call) (t : ShimTrace)
    (unit path : Bytes), callStep s (c, t) = some s' →
    (∃ uid pids, c.op = some (.start unit path uid pids)) → s'.recorded unit = some path →
    OneCgroup path := by
  intro h
  have hstep := callStep_exec allGood bootProcess (.startTransientUnit [] (ascii "b.scope") []
    [(ascii "Slice", .string (ascii "/a.slice"))] [])
  have hp := h _ _ _ _ (ascii "b.scope") (ascii "/a.slice/b.scope") hstep ⟨-1, [], by decide⟩
    (by decide +kernel)
  rw [oneCgroup_iff_skipSlash] at hp
  exact absurd hp (by decide)

/-! The property list of a transient unit. -/

/-- An entry that is neither a Slice of type string nor PIDs of type `au`. -/
def Irrelevant (property : Bytes × Variant) : Prop :=
  ¬ (property.1 = ascii "Slice" ∧ property.2.type = .s) ∧
  ¬ (property.1 = ascii "PIDs" ∧ property.2.type = .au)

theorem readProperty_irrelevant {property : Bytes × Variant} (h : Irrelevant property)
    (acc : Option Bytes × List UInt32) : readProperty acc property = acc := by
  obtain ⟨key, value⟩ := property
  obtain ⟨hslice, hpids⟩ := h
  cases value with
  | string v => exact if_neg (fun hk => hslice ⟨hk, rfl⟩)
  | uint32Array vs => exact if_neg (fun hk => hpids ⟨hk, rfl⟩)
  | _ => rfl

/-- Such an entry has no effect, wherever it stands. -/
theorem startTransient_irrelevant {property : Bytes × Variant} (h : Irrelevant property)
    (name : Bytes) (before after : List (Bytes × Variant)) :
    cgroupUnitStartTransient name (before ++ property :: after) =
      cgroupUnitStartTransient name (before ++ after) := by
  have hread : readProperties (before ++ property :: after) = readProperties (before ++ after) := by
    unfold readProperties
    rw [List.foldl_append, List.foldl_cons, readProperty_irrelevant h, ← List.foldl_append]
  unfold cgroupUnitStartTransient
  rw [hread]

/-- StartTransientUnit does what its property list says. With a slice for the
last Slice of type string, it creates the path, hands it over if the slice is a
user's, moves every PID and sets notify_on_release, all whatever the answers,
and then records the path; without, it does nothing. No other entry counts. -/
def ActsAsListed (name : Bytes) (properties : List (Bytes × Variant)) : Prop :=
  (∀ (sender mode : Bytes) (aux : List Variant) (s s' : Process) (t : ShimTrace),
    callStep s (.startTransientUnit sender name mode properties aux, t) = some s' →
    (∀ slice, lastStringSlice properties = some slice → ascii ".slice" <:+ slice →
      ∃ path uid tc keyFile saved, cgroupUnitGetPathAndUid slice (some name) = (path, uid) ∧
        CallsTrace (createCalls path uid (allPids properties)) tc ∧
        core t = tc ++ [⟨.saveToFile keyFile, saved⟩] ∧
        s'.recorded = Function.update s.recorded name (some path)) ∧
    ((∀ slice, lastStringSlice properties = some slice → ¬ ascii ".slice" <:+ slice) →
      cgCalls t = [] ∧ s'.recorded = s.recorded)) ∧
  ∀ before property after, properties = before ++ property :: after → Irrelevant property →
    cgroupUnitStartTransient name properties = cgroupUnitStartTransient name (before ++ after)

section Transient
variable {name : Bytes} {properties : List (Bytes × Variant)}

theorem isGroupName_of_actsAsListed (h : ActsAsListed name properties) {slice : Bytes}
    (hp : lastStringSlice properties = some slice) (hs : ascii ".slice" <:+ slice) :
    gKeyFileIsGroupName name = true := by
  have hstep := callStep_exec allGood bootProcess
    (.startTransientUnit [] name [] properties [])
  obtain ⟨path, _, _, _, _, -, -, -, hrec⟩ := (h.1 _ _ _ _ _ _ hstep).1 slice hp hs
  -- nothing is recorded but under an accepted name
  have hname := congrFun hrec name
  rw [Function.update_self] at hname
  exact Process.isGroupName_of_recorded hname

variable (hn : ascii ".scope" <:+ name)
include hn

theorem op_startTransient {slice : Bytes} (hp : lastStringSlice properties = some slice)
    (hs : ascii ".slice" <:+ slice) (sender mode : Bytes) (aux : List Variant) :
    (Call.startTransientUnit sender name mode properties aux).op =
      some (startOp name slice (some name) (allPids properties)) := by
  simp only [Call.op, gStrHasSuffix_iff.mpr hn, hp, gStrHasSuffix_iff.mpr hs, if_true]

theorem op_startTransient_none
    (hp : ∀ slice, lastStringSlice properties = some slice → ¬ ascii ".slice" <:+ slice)
    (sender mode : Bytes) (aux : List Variant) :
    (Call.startTransientUnit sender name mode properties aux).op = none := by
  simp only [Call.op, gStrHasSuffix_iff.mpr hn, if_true]
  cases hl : lastStringSlice properties with
  | none => rfl
  | some slice =>
    have hs : ¬ gStrHasSuffix slice (ascii ".slice") = true :=
      fun h => hp slice hl (gStrHasSuffix_iff.mp h)
    simp only [hs, if_false, Bool.false_eq_true]

theorem actsAsListed_of_isGroupName
    (h : ∀ slice, lastStringSlice properties = some slice → ascii ".slice" <:+ slice →
      gKeyFileIsGroupName name = true) : ActsAsListed name properties := by
  refine ⟨?_, fun before property after he hi => he ▸ startTransient_irrelevant hi name _ _⟩
  intro sender mode aux s s' t hstep
  have hrec := callStep_recorded hstep
  have hspec := callStep_spec hstep
  constructor
  · intro slice hp hs
    rw [op_startTransient hn hp hs sender mode aux] at hrec hspec
    obtain ⟨tc, saved, htc, ht, -⟩ := hspec
    refine ⟨_, _, tc, _, saved, rfl, htc, ht, ?_⟩
    rw [hrec]
    exact if_pos (h slice hp hs)
  · intro hp
    rw [op_startTransient_none hn hp sender mode aux] at hrec hspec
    refine ⟨?_, hrec⟩
    rw [← cgCalls_core, hspec.1]
    rfl

/-- The start goes as listed exactly when the name, if it comes to recording
something under it, is one that the key file accepts. -/
theorem actsAsListed_iff : ActsAsListed name properties ↔
    ∀ slice, lastStringSlice properties = some slice → ascii ".slice" <:+ slice →
      gKeyFileIsGroupName name = true :=
  ⟨fun h _ hp hs => isGroupName_of_actsAsListed h hp hs, actsAsListed_of_isGroupName hn⟩

end Transient

/-- A list with a Slice twice, an ill-typed one last, and PIDs in two parts. -/
def sessionProperties : List (Bytes × Variant) :=
  [(ascii "Slice", .string (ascii "a.slice")), (ascii "PIDs", .uint32Array [7]),
    (ascii "Slice", .string (ascii "user-1000.slice")), (ascii "PIDs", .uint32Array [8, 7]),
    (ascii "Slice", .boolean true)]

theorem actsAsListed_session : ActsAsListed (ascii "session-1.scope") sessionProperties :=
  (actsAsListed_iff (by decide)).mpr (fun _ _ _ => by decide)

/-- The path of `[.scope` is created and not recorded. -/
theorem not_actsAsListed_with_bracket : ¬ ∀ name properties, ascii ".scope" <:+ name →
    ActsAsListed name properties := by
  intro h
  have hlisted := h (ascii "[.scope") [(ascii "Slice", .string (ascii "a.slice"))] (by decide)
  have hp : lastStringSlice [(ascii "Slice", .string (ascii "a.slice"))] =
      some (ascii "a.slice") := by decide
  exact absurd (isGroupName_of_actsAsListed hlisted hp (by decide)) (by decide)

end Shim
