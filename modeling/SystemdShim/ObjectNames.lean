import SystemdShim.Codec
import SystemdShim.Service

/- Units as objects on the bus. The subtree lists an escaped name for every
   recorded unit, and a call on such an object looks up the name unescaped
   again, which by `unescape_escape` is the name without its spaces and its
   bytes outside ASCII. So some units cannot be abandoned through the bus, and
   some share a node. -/
namespace Shim
open Effects

/-! The names that get recorded. -/

theorem isCgroupName_of_start {c : Call} {unit path : Bytes} {uid : Int} {pids : List UInt32}
    (h : c.op = some (.start unit path uid pids)) : isCgroupName unit = true := by
  obtain ⟨slice, scope, -, hs, -, ⟨-, rfl⟩ | ⟨-, hn⟩⟩ := Call.op_start h
  · exact isCgroupName_iff.mpr (.inl (gStrHasSuffix_iff.mpr hs))
  · exact isCgroupName_iff.mpr (.inr (gStrHasSuffix_iff.mpr hn))

/-- Only cgroup units get recorded. -/
theorem isCgroupName_of_recorded {ls : List (Call × ShimTrace)} {s : Process} {u path : Bytes}
    (hrun : handled ls s) (hrec : s.recorded u = some path) : isCgroupName u = true := by
  refine Runs.run_invariant (I := fun s => ∀ u path, s.recorded u = some path →
    isCgroupName u = true) (fun u path h => by cases h) ?_ ls s hrun u path hrec
  intro s l s' hI hs u path hrec
  obtain ⟨c, t⟩ := l
  rw [callStep_recorded hs] at hrec
  rcases applyOp_some hrec with h | ⟨uid, pids, hop⟩
  · exact hI u path h
  · exact isCgroupName_of_start hop

/-! Addressing a unit. -/

theorem wp_shimUnitsEnumerate (s : Process) :
    Proc.wp shimUnitsEnumerate s (fun _ o => ∃ s₁,
      o = .ok (s.store.getGroups.map escapeObjectPath, s₁) ∧ s₁.recorded = s.recorded) := by
  apply Proc.wp_seq_ok ((Quiet.housekeeping .hadActivity).wp s)
  intro t _ s' h
  obtain ⟨-, hs'⟩ := h
  rw [Proc.wp_bind, wp_stateListUnits, Proc.andThen_ok]
  refine ⟨s'.setFiles s'.files.loaded, ?_, ?_⟩
  · simp only [Process.store, hs']
  · funext u
    simp only [Process.recorded, Process.files_setFiles, Files.recorded, Files.store_loaded, hs']

/-- The subtree lists a node for the unit recorded at `path`, and abandoning
that node prunes the path and forgets the unit, and only that unit. -/
def Addressable (s : Process) (unit path : Bytes) : Prop :=
  Proc.wp shimUnitsEnumerate s (fun _ o => ∃ nodes s₁, o = .ok (nodes, s₁) ∧
    ∃ node ∈ nodes, ∀ t s₂, callStep s₁ (.abandon node, t) = some s₂ →
      cgCalls t = [.prune (ascii "all") path] ∧
      s₂.recorded = Function.update s.recorded unit none)

theorem addressable_of_isgraph {s : Process} {unit path : Bytes} (hn : isCgroupName unit = true)
    (hrec : s.recorded unit = some path) (hg : ∀ c ∈ unit, gAsciiIsgraph c = true) :
    Addressable s unit path := by
  apply Proc.wp_mono (wp_shimUnitsEnumerate s)
  intro _ o h
  obtain ⟨s₁, rfl, hs₁⟩ := h
  refine ⟨_, s₁, rfl, escapeObjectPath unit,
    List.mem_map_of_mem (KeyFile.mem_getGroups_of_getString s.store hrec), fun t s₂ h => ?_⟩
  have hop : (Call.abandon (escapeObjectPath unit)).op = some (.abandon unit) := by
    simp only [Call.op, unescape_escape, List.filter_eq_self.mpr hg, hn, if_true]
  have hc := callStep_abandon_calls h hop
  rw [hs₁, hrec] at hc
  refine ⟨hc, ?_⟩
  rw [callStep_recorded h, hop, hs₁]
  rfl

/-- Whatever node is abandoned, a name that does not come back whole from the
codec is not forgotten. -/
theorem isgraph_of_addressable {s : Process} {unit path : Bytes}
    (hrec : s.recorded unit = some path) (ha : Addressable s unit path) :
    ∀ c ∈ unit, gAsciiIsgraph c = true := by
  obtain ⟨nodes, s₁, ho, node, hnode, h⟩ := Prog.wp_exec allGood ha
  obtain ⟨s₁', ho', hs₁⟩ := Prog.wp_exec allGood (wp_shimUnitsEnumerate s)
  obtain ⟨rfl, rfl⟩ := Prod.mk.inj (Except.ok.inj (ho.symm.trans ho'))
  obtain ⟨g, -, rfl⟩ := List.mem_map.mp hnode
  -- abandoning the node of `g` forgets what is left of `g` unescaped, at most
  have hstep := callStep_exec allGood s₁ (.abandon (escapeObjectPath g))
  have hr := congrFun ((callStep_recorded hstep).symm.trans (h _ _ hstep).2) unit
  rw [Function.update_self, hs₁] at hr
  simp only [Call.op, unescape_escape] at hr
  split at hr
  · by_cases hu : unit = g.filter gAsciiIsgraph
    · intro c hc
      rw [hu] at hc
      exact List.of_mem_filter hc
    · rw [applyOp, Function.update_of_ne hu, hrec] at hr
      cases hr
  · rw [applyOp, hrec] at hr
    cases hr

/-- The units that can be abandoned through the bus are those whose names are
printable ASCII without spaces. -/
theorem addressable_iff (ls : List (Call × ShimTrace)) (s : Process) (unit path : Bytes)
    (hrun : handled ls s) (hrec : s.recorded unit = some path) :
    Addressable s unit path ↔ ∀ c ∈ unit, gAsciiIsgraph c = true :=
  ⟨isgraph_of_addressable hrec,
    addressable_of_isgraph (isCgroupName_of_recorded hrun hrec) hrec⟩

theorem addressable_plain_name :
    Addressable (execEnd allGood bootProcess [.startUnit [] (ascii "a.slice") []])
      (ascii "a.slice") (ascii "a.slice") :=
  (addressable_iff _ _ _ _ (run_exec allGood bootProcess [.startUnit [] (ascii "a.slice") []])
    (by decide +kernel)).mpr (List.all_eq_true.mp (by decide))

/-- A slice with a space in its name is recorded and cannot be abandoned. -/
theorem not_addressable_with_space :
    ¬ ∀ (ls : List (Call × ShimTrace)) (s : Process) (unit path : Bytes), handled ls s →
      s.recorded unit = some path → Addressable s unit path := by
  intro h
  have hrec : (execEnd allGood bootProcess [.startUnit [] (ascii "a b.slice") []]).recorded
      (ascii "a b.slice") = some (ascii "a b.slice") := by decide +kernel
  have ha := h _ _ _ _ (run_exec allGood bootProcess [.startUnit [] (ascii "a b.slice") []]) hrec
  exact absurd (isgraph_of_addressable hrec ha (chr ' ') (by decide)) (by decide)

/-! Nodes shared. -/

/-- The bytes of a string in UTF-8. -/
def ValidUtf8 (name : Bytes) : Prop := ∃ s : String, s.toUTF8.toList = name

theorem nodup_map_escape (names : List Bytes) :
    (names.map escapeObjectPath).Nodup ↔ names.Pairwise DifferInAscii := by
  rw [List.Nodup, List.pairwise_map]
  simp only [escape_ne_iff]

/-- Two names get different nodes exactly when they differ in length or in an
ASCII byte, and the subtree lists no node twice exactly when the recorded names
differ so. -/
theorem distinct_nodes_iff (a b : Bytes) (s : Process) :
    (escapeObjectPath a ≠ escapeObjectPath b ↔ DifferInAscii a b) ∧
    Proc.wp shimUnitsEnumerate s (fun _ o => ∃ nodes s', o = .ok (nodes, s') ∧
      (nodes.Nodup ↔ s.store.getGroups.Pairwise DifferInAscii)) := by
  refine ⟨escape_ne_iff a b, ?_⟩
  apply Proc.wp_mono (wp_shimUnitsEnumerate s)
  intro t o h
  obtain ⟨s', rfl, -⟩ := h
  exact ⟨_, s', rfl, nodup_map_escape _⟩

/-- An e with an acute and one with a grave are told apart by their second byte
alone, and neither byte is ASCII. -/
theorem same_node_for_accents : ¬ ∀ a b, ValidUtf8 a → ValidUtf8 b → 0 ∉ a → 0 ∉ b → a ≠ b →
    escapeObjectPath a ≠ escapeObjectPath b := by
  intro h
  have ha : ValidUtf8 ([0xc3, 0xa9] ++ ascii ".slice") := ⟨"é.slice", by decide +kernel⟩
  have hb : ValidUtf8 ([0xc3, 0xa8] ++ ascii ".slice") := ⟨"è.slice", by decide +kernel⟩
  exact h _ _ ha hb (by decide) (by decide) (by decide) (by decide)

end Shim
