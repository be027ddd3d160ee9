import SystemdShim.Service

/- Operations on different units do not meet in the recorded map. The entry of
   one unit is a machine of its own, that only the calls on that unit move:
   `recorded_run` reads it off any run, so the order of calls on different units
   cannot matter. A release that finds nothing recorded does nothing. -/
namespace Shim
open Effects

/-- The cgroup unit that a call is on, by its argument or its object. -/
def Call.cgroupUnit : Call → Option Bytes
  | .startUnit _ name _ => if isCgroupName name then some name else none
  | .startTransientUnit _ name _ _ _ => if isCgroupName name then some name else none
  | .stopUnit _ name _ => if isCgroupName name then some name else none
  | .abandon node =>
    if isCgroupName (unescapeObjectPath node) then some (unescapeObjectPath node) else none

/-- A call's operation is on the unit that the call is on. -/
theorem Call.op_unit {c : Call} {o : UnitOp} (h : c.op = some o) : c.cgroupUnit = some o.unit := by
  cases c with
  | startUnit sender name mode =>
    simp only [Call.op] at h
    split at h
    · rename_i hs
      obtain rfl := Option.some.inj h
      exact if_pos (isCgroupName_iff.mpr (.inl hs))
    · cases h
  | startTransientUnit sender name mode properties aux =>
    simp only [Call.op] at h
    split at h
    · rename_i hs
      split at h
      · split at h
        · obtain rfl := Option.some.inj h
          exact if_pos (isCgroupName_iff.mpr (.inr hs))
        · cases h
      · cases h
    · cases h
  | stopUnit sender name mode =>
    simp only [Call.op] at h
    split at h
    · rename_i hs
      obtain rfl := Option.some.inj h
      exact if_pos hs
    · cases h
  | abandon node =>
    simp only [Call.op] at h
    split at h
    · rename_i hs
      obtain rfl := Option.some.inj h
      exact if_pos hs
    · cases h

/-! One unit's entry. -/

/-- What an operation makes of the entry of its unit. -/
def UnitOp.entry : UnitOp → Option Bytes → Option Bytes
  | .start unit path _ _, p => if gKeyFileIsGroupName unit then some path else p
  | .stop _, _ => none
  | .abandon _, _ => none

/-- What a call makes of the entry of the unit it is on. -/
def Call.entry (c : Call) (p : Option Bytes) : Option Bytes := (c.op.map (·.entry p)).getD p

theorem applyOp_self (m : Bytes → Option Bytes) (o : UnitOp) :
    applyOp m (some o) o.unit = o.entry (m o.unit) := by
  cases o with
  | start unit path uid pids =>
    simp only [applyOp, UnitOp.entry, UnitOp.unit]
    split
    · exact Function.update_self _ _ _
    · rfl
  | stop unit => exact Function.update_self _ _ _
  | abandon unit => exact Function.update_self _ _ _

theorem applyOp_other {m : Bytes → Option Bytes} {c : Call} {u : Bytes}
    (h : c.cgroupUnit ≠ some u) : applyOp m c.op u = m u := by
  apply applyOp_of_ne
  rintro o ho rfl
  exact h (Call.op_unit ho)

theorem applyOp_own {m : Bytes → Option Bytes} {c : Call} {u : Bytes}
    (h : c.cgroupUnit = some u) : applyOp m c.op u = c.entry (m u) := by
  unfold Call.entry
  cases ho : c.op with
  | none => rfl
  | some o =>
    have hu : some o.unit = some u := (Call.op_unit ho).symm.trans h
    obtain rfl := Option.some.inj hu
    exact applyOp_self m o

/-- A run moves the entry of a unit by the calls on that unit alone. -/
theorem recorded_run {ls : List (Call × ShimTrace)} {s s' : Process}
    (h : Runs.run callStep s ls = some s') (u : Bytes) :
    s'.recorded u =
      (ls.filter (fun l => l.1.cgroupUnit = some u)).foldl (fun p l => l.1.entry p)
        (s.recorded u) := by
  induction ls generalizing s with
  | nil =>
    obtain rfl := Option.some.inj h
    rfl
  | cons l ls ih =>
    rw [Runs.run] at h
    obtain ⟨s₁, hl, h⟩ := Option.bind_eq_some_iff.mp h
    have hstep : s₁.recorded = applyOp s.recorded l.1.op := callStep_recorded hl
    rw [ih h, hstep]
    by_cases hu : l.1.cgroupUnit = some u
    · rw [List.filter_cons_of_pos (by simpa using hu), List.foldl_cons, applyOp_own hu]
    · rw [List.filter_cons_of_neg (by simpa using hu), applyOp_other hu]

theorem callStep_frame {s s' : Process} {c : Call} {t : ShimTrace} {u w : Bytes}
    (h : callStep s (c, t) = some s') (hc : c.cgroupUnit = some u) (hw : w ≠ u) :
    s'.recorded w = s.recorded w := by
  rw [callStep_recorded h]
  apply applyOp_other
  rw [hc]
  exact fun he => hw (Option.some.inj he).symm

/-- Which of two calls on different units comes first does not show. -/
theorem recorded_either_order {s s₁ s₂ : Process} {c d : Call} {t₁ t₂ t₃ t₄ : ShimTrace}
    {u v : Bytes} (hc : c.cgroupUnit = some u) (hd : d.cgroupUnit = some v) (huv : u ≠ v)
    (h₁ : Runs.run callStep s [(c, t₁), (d, t₂)] = some s₁)
    (h₂ : Runs.run callStep s [(d, t₃), (c, t₄)] = some s₂) : s₁.recorded = s₂.recorded := by
  funext w
  rw [recorded_run h₁ w, recorded_run h₂ w]
  simp only [List.filter_cons, List.filter_nil, hc, hd, Option.some.injEq]
  by_cases hu : u = w
  · subst hu
    simp [huv.symm]
  · simp only [hu, decide_false, Bool.false_eq_true, if_false]
    split
    · rfl
    · rfl

/-! Releases. -/

/-- StopUnit by name, or Abandon on the unit's object. -/
def Call.Releases (unit : Bytes) : Call → Prop
  | .stopUnit _ name _ => name = unit
  | .abandon node => unescapeObjectPath node = unit
  | _ => False

theorem Call.Releases.op {c : Call} {unit : Bytes} (h : c.Releases unit) :
    if isCgroupName unit then c.op = some (.stop unit) ∨ c.op = some (.abandon unit)
    else c.op = none := by
  cases c with
  | startUnit sender name mode => exact h.elim
  | startTransientUnit sender name mode properties aux => exact h.elim
  | stopUnit sender name mode =>
    obtain rfl : name = unit := h
    split
    · rename_i hn
      exact .inl (if_pos hn)
    · rename_i hn
      exact if_neg hn
  | abandon node =>
    obtain rfl : unescapeObjectPath node = unit := h
    split
    · rename_i hn
      exact .inr (if_pos hn)
    · rename_i hn
      exact if_neg hn

/-- A release leaves nothing recorded of its unit, and the key file in memory. -/
theorem OpSpec.released {f f' : Files} {op : Option UnitOp} {t : ShimTrace} {unit : Bytes}
    (h : OpSpec f op t f') (hop : op = some (.stop unit) ∨ op = some (.abandon unit)) :
    f'.recorded unit = none ∧ f'.loaded = f' := by
  obtain ⟨hr, -, rfl⟩ | ⟨path, tc, b, -, -, rfl⟩ := h.release hop
  · exact ⟨hr, rfl⟩
  · refine ⟨?_, rfl⟩
    rw [recorded_removeGroup]
    exact Function.update_self _ _ _

/-- After one release of a unit the next does nothing to cgroups or records. -/
theorem callStep_release_again {s s₁ s₂ : Process} {c d : Call} {t₁ t₂ : ShimTrace} {unit : Bytes}
    (h₁ : callStep s (c, t₁) = some s₁) (h₂ : callStep s₁ (d, t₂) = some s₂)
    (hc : c.Releases unit) (hd : d.Releases unit) : core t₂ = [] ∧ s₂.files = s₁.files := by
  have hs₁ := callStep_spec h₁
  have hs₂ := callStep_spec h₂
  have hc := hc.op
  have hd := hd.op
  split at hc
  · rename_i hn
    rw [if_pos hn] at hd
    obtain ⟨hnone, hloaded⟩ := hs₁.released hc
    obtain ⟨hcore, hfiles⟩ := hs₂.release_idle hd hnone
    exact ⟨hcore, hfiles.trans hloaded⟩
  · rename_i hn
    rw [if_neg hn] at hd
    rw [hd] at hs₂
    exact hs₂

/-- Calls on two different cgroup units, from any recorded map and whatever
cgmanager and the disk answer: either order ends in the same map, each leaves
every other unit's entry alone, and a release of a unit right after a release
of it does nothing: no cgmanager call, no signal, no save, and the files and
what they record stay. -/
theorem operations_independent (s : Process) (c d : Call) (u v : Bytes)
    (hc : c.cgroupUnit = some u) (hd : d.cgroupUnit = some v) (huv : u ≠ v) :
    (∀ t₁ t₂ t₃ t₄ s₁ s₂, Runs.run callStep s [(c, t₁), (d, t₂)] = some s₁ →
      Runs.run callStep s [(d, t₃), (c, t₄)] = some s₂ → s₁.recorded = s₂.recorded) ∧
    (∀ t s', callStep s (c, t) = some s' → ∀ w, w ≠ u → s'.recorded w = s.recorded w) ∧
    (∀ t s', callStep s (d, t) = some s' → ∀ w, w ≠ v → s'.recorded w = s.recorded w) ∧
    ∀ (e e' : Call) (w : Bytes), e.Releases w → e'.Releases w → ∀ t₁ t₂ s₁ s₂,
      callStep s (e, t₁) = some s₁ → callStep s₁ (e', t₂) = some s₂ →
      cgCalls t₂ = [] ∧ core t₂ = [] ∧ s₂.files = s₁.files ∧ s₂.recorded = s₁.recorded := by
  refine ⟨?_, fun t s' h w hw => callStep_frame h hc hw, fun t s' h w hw => callStep_frame h hd hw,
    ?_⟩
  · intro t₁ t₂ t₃ t₄ s₁ s₂ h₁ h₂
    exact recorded_either_order hc hd huv h₁ h₂
  · intro e e' w he he' t₁ t₂ s₁ s₂ h₁ h₂
    obtain ⟨hcore, hfiles⟩ := callStep_release_again h₁ h₂ he he'
    refine ⟨?_, hcore, hfiles, ?_⟩
    · rw [← cgCalls_core, hcore]
      rfl
    · funext u
      unfold Process.recorded
      rw [hfiles]

/-- A start beside the stop of another slice, which is recorded. -/
theorem operations_independent_of_slices :
    let s := callEnd allGood bootProcess (.startUnit [] (ascii "b.slice") [])
    let c := Call.startUnit [] (ascii "a.slice") []
    let d := Call.stopUnit [] (ascii "b.slice") []
    (execEnd allGood s [c, d]).recorded = (execEnd allGood s [d, c]).recorded := by
  intro s c d
  have hc : c.cgroupUnit = some (ascii "a.slice") := by decide
  have hd : d.cgroupUnit = some (ascii "b.slice") := by decide
  exact (operations_independent s c d _ _ hc hd (by decide)).1 _ _ _ _ _ _
    (run_exec allGood s [c, d]) (run_exec allGood s [d, c])

end Shim
