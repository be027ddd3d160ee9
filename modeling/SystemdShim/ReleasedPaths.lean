import SystemdShim.SlicePaths

/- What the release agent sends back for the cgroup of a unit: the base name of
   the path the shim created. Names and Slice values come in with any bytes that
   the suffix checks let through, and go into the path as they are.
   `released_path_iff` says for which of them the path has only proper
   components and its base name is the unit. -/
namespace Shim
open Effects

/-- A component that names a directory below the one before it. -/
def Proper (x : Bytes) : Prop := x ≠ [] ∧ x ≠ ascii "." ∧ x ≠ ascii ".."

instance (x : Bytes) : Decidable (Proper x) := inferInstanceAs (Decidable (_ ∧ _))

/-- A path all of whose components are proper. -/
def Normal (path : Bytes) : Prop := ∀ x ∈ components path, Proper x

instance (path : Bytes) : Decidable (Normal path) := inferInstanceAs (Decidable (∀ x ∈ _, _))

/-! Components. -/

theorem proper_of_length {x : Bytes} (h : 2 < x.length) : Proper x := by
  refine ⟨?_, ?_, ?_⟩
  all_goals
    intro he
    subst he
    exact absurd h (by decide)

theorem normal_append_slash (u v : Bytes) :
    Normal (u ++ chr '/' :: v) ↔ Normal u ∧ Normal v := by
  unfold Normal components
  rw [List.splitOn_append_cons_self]
  exact List.forall_mem_append

theorem normal_of_not_mem {u : Bytes} (h : chr '/' ∉ u) : Normal u ↔ Proper u := by
  unfold Normal components
  rw [List.splitOn_eq_singleton h, List.forall_mem_singleton]

theorem Normal.skipSlash {path : Bytes} (h : Normal path) : Shim.skipSlash path = path :=
  skipSlash_of_nil_not_mem (fun hm => (h [] hm).1 rfl)

theorem skipSlash_append {u : Bytes} (hu : u ≠ []) (v : Bytes) :
    skipSlash (u ++ v) = skipSlash u ++ v := by
  cases u with
  | nil => exact absurd rfl hu
  | cons c u =>
    unfold skipSlash
    by_cases h : (c :: u).head? = some (chr '/')
    · have h' : (c :: u ++ v).head? = some (chr '/') := h
      rw [if_pos h, if_pos h']
      rfl
    · have h' : ¬ (c :: u ++ v).head? = some (chr '/') := h
      rw [if_neg h, if_neg h']

/-- A slash in a word, and nothing but the rest of its last component after. -/
theorem exists_last_slash {u : Bytes} (h : chr '/' ∈ u) :
    ∃ v w, u = v ++ chr '/' :: w ∧ chr '/' ∉ w := by
  obtain ⟨w, v, hu, hw⟩ := List.eq_append_cons_of_mem (List.mem_reverse.mpr h)
  refine ⟨v.reverse, w.reverse, ?_, fun hm => hw (List.mem_reverse.mp hm)⟩
  rw [← List.reverse_reverse u, hu]
  simp

/-- A part of a proper slice makes a proper slice. -/
theorem normal_part {c slice : Bytes} (hc : c <+: slice) (h : Normal slice) :
    Normal (c ++ ascii ".slice") := by
  have hlen : ∀ u : Bytes, Proper (u ++ ascii ".slice") := by
    intro u
    apply proper_of_length
    rw [List.length_append]
    have : (ascii ".slice").length = 6 := by decide
    omega
  by_cases hs : chr '/' ∈ c
  · -- whole components of the slice, and one that ends in `.slice`
    obtain ⟨v, w, rfl, hw⟩ := exists_last_slash hs
    obtain ⟨r, rfl⟩ := hc
    rw [List.append_assoc, List.cons_append] at h ⊢
    have hv := ((normal_append_slash v (w ++ r)).mp h).1
    have hw' : chr '/' ∉ w ++ ascii ".slice" := by
      rw [List.mem_append, not_or]
      exact ⟨hw, by decide⟩
    exact (normal_append_slash v _).mpr ⟨hv, (normal_of_not_mem hw').mpr (hlen w)⟩
  · have hc' : chr '/' ∉ c ++ ascii ".slice" := by
      rw [List.mem_append, not_or]
      exact ⟨hs, by decide⟩
    exact (normal_of_not_mem hc').mpr (hlen c)

theorem normal_flatMap (cs : List Bytes) (slice : Bytes) :
    Normal (cs.flatMap (· ++ ascii ".slice/") ++ slice) ↔
      (∀ c ∈ cs, Normal (c ++ ascii ".slice")) ∧ Normal slice := by
  have hslash : ascii ".slice/" = ascii ".slice" ++ [chr '/'] := by decide
  induction cs with
  | nil => simp
  | cons c cs ih =>
    have hcons : (c :: cs).flatMap (· ++ ascii ".slice/") ++ slice =
        (c ++ ascii ".slice") ++ chr '/' :: (cs.flatMap (· ++ ascii ".slice/") ++ slice) := by
      simp [hslash]
    rw [hcons, normal_append_slash, List.forall_mem_cons, and_assoc]
    exact and_congr_right (fun _ => ih)

theorem normal_path_iff (slice : Bytes) :
    Normal (cgroupUnitGetPathAndUid slice none).1 ↔ Normal slice := by
  rw [path_eq, normal_flatMap]
  constructor
  · intro h
    exact h.2
  · intro h
    exact ⟨fun c hc => normal_part (Stages.prefix_of_mem_cuts hc) h, h⟩

/-- What stands above a slice in its path. -/
theorem path_above {slice : Bytes} (h : chr '-' ∈ slice) :
    ∃ above, above ≠ [] ∧ (cgroupUnitGetPathAndUid slice none).1 = above ++ chr '/' :: slice := by
  have hslash : ascii ".slice/" = ascii ".slice" ++ [chr '/'] := by decide
  obtain hnil | ⟨cs, c, hcs⟩ := List.eq_nil_or_concat (Stages.cuts (chr '-') slice)
  · exact absurd hnil (Stages.cuts_ne_nil h)
  · refine ⟨cs.flatMap (· ++ ascii ".slice/") ++ c ++ ascii ".slice", ?_, ?_⟩
    · intro he
      have := (List.append_eq_nil_iff.mp he).2
      exact absurd this (by decide)
    · rw [path_eq, hcs]
      simp [hslash]

/-- A leading slash is only skipped for a slice whose path is itself. -/
theorem normal_skipSlash_path (slice : Bytes) :
    Normal (skipSlash (cgroupUnitGetPathAndUid slice none).1) ↔
      Normal (if chr '-' ∈ slice then slice else skipSlash slice) := by
  split
  · rename_i h
    constructor
    · intro hn
      obtain ⟨above, hne, hp⟩ := path_above h
      rw [hp, skipSlash_append hne] at hn
      exact ((normal_append_slash _ _).mp hn).2
    · intro hn
      have hp := (normal_path_iff slice).mpr hn
      rwa [hp.skipSlash]
  · rename_i h
    rw [path_eq, Stages.cuts_eq_nil h]
    rfl

/-! The base name. -/

theorem basename_append {above unit : Bytes} (ha : above = [] ∨ ∃ u, above = u ++ [chr '/'])
    (hu : unit ≠ []) (hs : chr '/' ∉ unit) : gPathGetBasename (above ++ unit) = unit := by
  have hne : above ++ unit ≠ [] := by simp [hu]
  have htrim : (above ++ unit).rdropWhile (· == chr '/') = above ++ unit := by
    rw [List.rdropWhile_eq_self_iff]
    intro hl he
    rw [List.getLast_append_of_ne_nil hl hu] at he
    exact hs (beq_iff_eq.mp he ▸ List.getLast_mem hu)
  have htake : (above ++ unit).rtakeWhile (· != chr '/') = unit := by
    have hall : ∀ c ∈ unit.reverse, (c != chr '/') = true := by
      intro c hc
      rw [bne_iff_ne]
      intro he
      exact hs (he ▸ List.mem_reverse.mp hc)
    rw [List.rtakeWhile, List.reverse_append, List.takeWhile_append_of_pos hall]
    obtain rfl | ⟨u, rfl⟩ := ha
    · simp
    · simp [List.takeWhile_cons_of_neg]
  unfold gPathGetBasename
  rw [if_neg hne]
  simp only [htrim, if_neg hne, htake]

/-- A base name has no slash, but for that of the root. -/
theorem slash_not_mem_basename {path : Bytes} (h : gPathGetBasename path ≠ ascii "/") :
    chr '/' ∉ gPathGetBasename path := by
  unfold gPathGetBasename at h ⊢
  split
  · decide
  · rename_i hne
    simp only [hne, if_false] at h
    simp only
    split
    · rename_i ht
      simp only [ht, if_true, ne_eq, not_true_eq_false] at h
    · intro hm
      have := List.mem_rtakeWhile_imp hm
      exact absurd this (by decide)

/-! The path of a start. -/

/-- No unit is called `/`. -/
theorem slash_not_mem_unit {path unit suffix : Bytes} (hb : gPathGetBasename path = unit)
    (hs : suffix <:+ unit) (hlen : 2 ≤ suffix.length) : chr '/' ∉ unit := by
  rw [← hb]
  apply slash_not_mem_basename
  intro he
  rw [← hb, he] at hs
  have hle := hs.length_le
  have : (ascii "/").length = 1 := by decide
  omega

theorem released_slice_iff {slice : Bytes} (hs : ascii ".slice" <:+ slice) :
    (Normal (skipSlash (cgroupUnitGetPathAndUid slice none).1) ∧
        gPathGetBasename (skipSlash (cgroupUnitGetPathAndUid slice none).1) = slice) ↔
      chr '/' ∉ slice ∧ Normal (if chr '-' ∈ slice then slice else skipSlash slice) := by
  rw [normal_skipSlash_path]
  constructor
  · intro h
    exact ⟨slash_not_mem_unit h.2 hs (by decide), h.1⟩
  · intro h
    obtain ⟨hslash, hn⟩ := h
    refine ⟨hn, ?_⟩
    have hp : Normal (cgroupUnitGetPathAndUid slice none).1 := by
      rw [normal_path_iff, normal_of_not_mem hslash]
      apply proper_of_length
      have hle := hs.length_le
      have : (ascii ".slice").length = 6 := by decide
      omega
    have hne : slice ≠ [] := by
      intro he
      rw [he] at hs
      exact absurd hs (by decide)
    rw [hp.skipSlash]
    by_cases hd : chr '-' ∈ slice
    · obtain ⟨above, -, habove⟩ := path_above hd
      rw [habove, ← List.singleton_append, ← List.append_assoc]
      exact basename_append (.inr ⟨above, rfl⟩) hne hslash
    · rw [path_eq, Stages.cuts_eq_nil hd, List.flatMap_nil]
      exact basename_append (.inl rfl) hne hslash

theorem released_scope_iff {slice scope : Bytes} (hs : ascii ".slice" <:+ slice)
    (hn : ascii ".scope" <:+ scope) :
    (Normal (skipSlash (cgroupUnitGetPathAndUid slice (some scope)).1) ∧
        gPathGetBasename (skipSlash (cgroupUnitGetPathAndUid slice (some scope)).1) = scope) ↔
      chr '/' ∉ scope ∧ Normal (if chr '-' ∈ slice then slice else skipSlash slice) := by
  have hne : (cgroupUnitGetPathAndUid slice none).1 ≠ [] := by
    intro he
    rw [path_eq, List.append_eq_nil_iff] at he
    rw [he.2] at hs
    exact absurd hs (by decide)
  have hp : skipSlash (cgroupUnitGetPathAndUid slice (some scope)).1 =
      skipSlash (cgroupUnitGetPathAndUid slice none).1 ++ chr '/' :: scope := by
    rw [path_scope, List.append_assoc]
    exact skipSlash_append hne _
  rw [hp, normal_append_slash, normal_skipSlash_path]
  constructor
  · intro h
    exact ⟨slash_not_mem_unit h.2 hn (by decide), h.1.1⟩
  · intro h
    obtain ⟨hslash, hslice⟩ := h
    have hlen : 2 < scope.length := by
      have hle := hn.length_le
      have : (ascii ".scope").length = 6 := by decide
      omega
    refine ⟨⟨hslice, (normal_of_not_mem hslash).mpr (proper_of_length hlen)⟩, ?_⟩
    rw [← List.singleton_append, ← List.append_assoc]
    apply basename_append (.inr ⟨_, rfl⟩) _ hslash
    intro he
    rw [he] at hlen
    exact absurd hlen (by decide)

/-- The path of a start has only proper components and the unit for its base
name exactly when the unit's name has no slash and the components of the slice
are proper, where one leading slash is let pass for a slice without a dash. -/
theorem released_path_iff {s s' : Process} {c : Call} {t : ShimTrace} {unit path slice : Bytes}
    {uid : Int} {pids : List UInt32} (hstep : callStep s (c, t) = some s')
    (hop : c.op = some (.start unit path uid pids)) (hslice : c.slice = some slice) :
    ∀ controllers p, .create controllers p ∈ cgCalls t →
      ((Normal p ∧ gPathGetBasename p = unit) ↔
        chr '/' ∉ unit ∧ Normal (if chr '-' ∈ slice then slice else skipSlash slice)) := by
  intro controllers p hp
  rw [callStep_start_calls hstep hop] at hp
  obtain rfl := mem_createCalls_create hp
  obtain ⟨slice', scope, hslice', hs, hpath, hunit⟩ := Call.op_start hop
  obtain rfl := Option.some.inj (hslice.symm.trans hslice')
  have hfst : path = (cgroupUnitGetPathAndUid slice scope).1 := by rw [hpath]
  rw [hfst]
  obtain ⟨rfl, rfl⟩ | ⟨rfl, hn⟩ := hunit
  · exact released_slice_iff hs
  · exact released_scope_iff hs hn

/-- A session of a user. -/
theorem released_path_iff_session :
    let c : Call := .startTransientUnit [] (ascii "session-1.scope") []
      [(ascii "Slice", .string (ascii "user-1000.slice"))] []
    ∀ controllers p, .create controllers p ∈ cgCalls (callExec allGood bootProcess c) →
      Normal p ∧ gPathGetBasename p = ascii "session-1.scope" := by
  intro c controllers p hp
  have hop : c.op = some (startOp (ascii "session-1.scope") (ascii "user-1000.slice")
      (some (ascii "session-1.scope")) []) := by decide
  have hslice : c.slice = some (ascii "user-1000.slice") := by decide
  exact (released_path_iff (callStep_exec allGood bootProcess c) hop hslice controllers p
    hp).mpr ⟨by decide, by decide⟩

/-- The base name of the path of `a/b.slice` is another unit's name. -/
theorem not_released_path_with_slash : ¬ ∀ (s s' : Process) (c : Call) (t : ShimTrace)
    (unit path : Bytes) (uid : Int) (pids : List UInt32), callStep s (c, t) = some s' →
    c.op = some (.start unit path uid pids) → ∀ controllers p, .create controllers p ∈ cgCalls t →
      Normal p ∧ gPathGetBasename p = unit := by
  intro h
  have hc : CgCall.create (ascii "all") (ascii "a/b.slice") ∈
      cgCalls (callExec allGood bootProcess (.startUnit [] (ascii "a/b.slice") [])) := by
    decide +kernel
  have hb := (h _ _ _ _ (ascii "a/b.slice") _ _ _
    (callStep_exec allGood bootProcess (.startUnit [] (ascii "a/b.slice") [])) (by rfl) _ _ hc).2
  exact absurd hb (by decide)

end Shim
