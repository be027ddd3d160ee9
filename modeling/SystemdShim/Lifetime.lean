import SystemdShim.SlicePaths
import SystemdShim.Lib.Since

/- How long the cgroups last that the shim creates, against what it has
   recorded about them. A cgroup is there since a Create that succeeded, until
   a successful Remove of it or of an ancestor; Prune hands it over. The two
   stores are updated in separate steps, and `leaks_only_when_let_go` and
   `recorded_present_iff` say when they part: a live cgroup nobody has
   recorded, and a record of a cgroup that is gone. Paths are compared without
   the leading slash that cgmanager_create and cgmanager_remove skip. -/
namespace Shim
open Effects History

/-- A Create of the cgroup at `p` that succeeded. -/
def Creates (p : Bytes) : Event Ans → Bool
  | ⟨.cgmanagerCall (.create _ q), reply⟩ => decide (q = p) && Option.isSome reply
  | _ => false

/-- A Remove of it, or of an ancestor, that succeeded. -/
def Removes (p : Bytes) : Event Ans → Bool
  | ⟨.cgmanagerCall (.remove _ q recursive), reply⟩ =>
    decide (if recursive = 1 then Contains q p else q = p) && Option.isSome reply
  | _ => false

/-- A Prune of it, whatever the answer. -/
def Prunes (p : Bytes) : Event Ans → Bool
  | ⟨.cgmanagerCall (.prune _ q), _⟩ => decide (skipSlash q = p)
  | _ => false

/-- Everything done in a run. -/
def events (ls : List (Call × ShimTrace)) : ShimTrace := ls.flatMap Prod.snd

/-- The cgroup has been created and not been removed since. -/
def Present (ls : List (Call × ShimTrace)) (p : Bytes) : Prop :=
  Since (fun e => Creates p e = true) (fun e => Removes p e = false) (events ls)

/-- It has not been handed over either. -/
def Live (ls : List (Call × ShimTrace)) (p : Bytes) : Prop :=
  Since (fun e => Creates p e = true) (fun e => Removes p e = false ∧ Prunes p e = false)
    (events ls)

instance (ls : List (Call × ShimTrace)) (p : Bytes) : Decidable (Present ls p) :=
  inferInstanceAs (Decidable (Since _ _ _))

instance (ls : List (Call × ShimTrace)) (p : Bytes) : Decidable (Live ls p) :=
  inferInstanceAs (Decidable (Since _ _ _))

theorem events_snoc (ls : List (Call × ShimTrace)) (c : Call) (t : ShimTrace) :
    events (ls ++ [(c, t)]) = events ls ++ t := by simp [events]

/-! What a handled call creates, removes and prunes. -/

variable {s s' : Process} {c : Call} {t : ShimTrace} {p : Bytes}

theorem creates_elim {e : Event Ans} (h : Creates p e = true) :
    ∃ controllers, e = ⟨.cgmanagerCall (.create controllers p), some ()⟩ := by
  unfold Creates at h
  split at h
  · rename_i controllers q reply
    simp only [Bool.and_eq_true, decide_eq_true_eq] at h
    obtain ⟨rfl, hr⟩ := h
    obtain ⟨u, rfl⟩ := Option.isSome_iff_exists.mp hr
    exact ⟨controllers, rfl⟩
  · cases h

theorem removes_elim {e : Event Ans} (h : Removes p e = true) :
    ∃ controllers q recursive, e = ⟨.cgmanagerCall (.remove controllers q recursive), some ()⟩ ∧
      if recursive = 1 then Contains q p else q = p := by
  unfold Removes at h
  split at h
  · rename_i controllers q recursive reply
    simp only [Bool.and_eq_true, decide_eq_true_eq] at h
    obtain ⟨hq, hr⟩ := h
    obtain ⟨u, rfl⟩ := Option.isSome_iff_exists.mp hr
    exact ⟨controllers, q, recursive, rfl, hq⟩
  · cases h

theorem not_mem_createCalls {path q controllers : Bytes} {uid recursive : Int}
    {pids : List UInt32} :
    CgCall.remove controllers q recursive ∉ createCalls path uid pids := by
  simp [mem_createCalls]

/-- Only a start creates. -/
theorem creates_cases (h : callStep s (c, t) = some s') {e : Event Ans} (he : e ∈ t)
    (hc : Creates p e = true) :
    ∃ unit path uid pids, c.op = some (.start unit path uid pids) ∧ skipSlash path = p := by
  obtain ⟨controllers, rfl⟩ := creates_elim hc
  rcases callStep_calls h (mem_cgCalls.mpr ⟨_, he⟩) with
    ⟨unit, path, uid, pids, hop, hk⟩ | ⟨_, _, _, _, hk⟩ | ⟨_, _, _, _, hk⟩
  · exact ⟨unit, path, uid, pids, hop, mem_createCalls_create hk⟩
  · simp [roundCalls] at hk
  · cases hk

/-- Only a stop removes, and only what it has recorded. -/
theorem removes_cases (h : callStep s (c, t) = some s') {e : Event Ans} (he : e ∈ t)
    (hr : Removes p e = true) :
    ∃ unit path, c.op = some (.stop unit) ∧ s.recorded unit = some path ∧
      Contains (skipSlash path) p := by
  obtain ⟨controllers, q, recursive, rfl, hq⟩ := removes_elim hr
  rcases callStep_calls h (mem_cgCalls.mpr ⟨_, he⟩) with
    ⟨_, _, _, _, _, hk⟩ | ⟨unit, path, hop, hrec, hk⟩ | ⟨_, _, _, _, hk⟩
  · exact absurd hk not_mem_createCalls
  · simp only [roundCalls, List.mem_cons, List.not_mem_nil, or_false] at hk
    rcases hk with hk | hk
    · cases hk
    · obtain ⟨-, rfl, rfl⟩ := CgCall.remove.inj hk
      exact ⟨unit, path, hop, hrec, by simpa using hq⟩
  · cases hk

/-! Leaks. -/

/-- Some unit is recorded at the path. -/
def Recorded (s : Process) (p : Bytes) : Prop :=
  ∃ unit path, s.recorded unit = some path ∧ skipSlash path = p

/-- The call leaves the cgroup at `p` behind: it starts it under a name that
the key file rejects, starts the unit recorded at `p` somewhere else, or stops
that unit without one successful Remove. -/
def LetsGo (p : Bytes) (s : Process) (c : Call) (t : ShimTrace) : Prop :=
  match c.op with
  | some (.start unit path _ _) =>
    (skipSlash path = p ∧ gKeyFileIsGroupName unit = false) ∨
    (skipSlash path ≠ p ∧ ∃ path', s.recorded unit = some path' ∧ skipSlash path' = p)
  | some (.stop unit) =>
    removedEvent p ∉ t ∧ ∃ path, s.recorded unit = some path ∧ skipSlash path = p
  | _ => False

/-- A call that does not create the cgroup. -/
def DoesNotCreate (p : Bytes) (t : ShimTrace) : Prop := ∀ e ∈ t, Creates p e = false

theorem creates_or_not (p : Bytes) (t : ShimTrace) :
    (∃ e ∈ t, Creates p e = true) ∨ DoesNotCreate p t := by
  by_cases h : ∃ e ∈ t, Creates p e = true
  · exact .inl h
  · exact .inr (fun e he => Bool.eq_false_iff.mpr (fun hc => h ⟨e, he, hc⟩))

theorem live_snoc {ls : List (Call × ShimTrace)} (hl : Live (ls ++ [(c, t)]) p) :
    (∃ e ∈ t, Creates p e = true) ∨
      (Live ls p ∧ DoesNotCreate p t ∧ ∀ e ∈ t, Removes p e = false ∧ Prunes p e = false) := by
  rcases creates_or_not p t with hc | hn
  · exact .inl hc
  · unfold Live at hl
    rw [events_snoc, since_append] at hl
    rcases hl with hl | ⟨hl, ht⟩
    · exact absurd hl (not_since (fun e he => by simp [hn e he]))
    · exact .inr ⟨hl, hn, ht⟩

/-- A recorded cgroup that stays alive is still recorded after a call, or the
call lets go of it. -/
theorem recorded_or_letsGo (h : callStep s (c, t) = some s') (hr : Recorded s p)
    (ht : ∀ e ∈ t, Removes p e = false ∧ Prunes p e = false) :
    Recorded s' p ∨ LetsGo p s c t := by
  obtain ⟨u, r, hu, rfl⟩ := hr
  have hm := callStep_recorded h
  by_cases hother : ∀ o, c.op = some o → u ≠ o.unit
  · exact .inl ⟨u, r, by rw [hm, applyOp_of_ne hother]; exact hu, rfl⟩
  · push Not at hother
    obtain ⟨o, hop, rfl⟩ := hother
    cases o with
    | start unit path uid pids =>
      -- the unit itself is started again, at its path or at another
      have hn : gKeyFileIsGroupName unit = true := Process.isGroupName_of_recorded hu
      rw [hop, applyOp, if_pos hn] at hm
      by_cases hp : skipSlash path = skipSlash r
      · exact .inl ⟨unit, path, by rw [hm, Function.update_self], hp⟩
      · right
        simp only [LetsGo, hop]
        exact .inr ⟨hp, r, hu, rfl⟩
    | stop unit =>
      -- it is stopped, in vain
      right
      simp only [LetsGo, hop]
      refine ⟨fun hmem => ?_, r, hu, rfl⟩
      have := (ht _ hmem).1
      simp [removedEvent, Removes, contains_refl] at this
    | abandon unit =>
      -- abandoning it would have pruned the cgroup
      have hu : s.recorded unit = some r := hu
      have hc := callStep_abandon_calls h hop
      rw [hu] at hc
      obtain ⟨reply, he⟩ := mem_cgCalls.mp (hc ▸ List.mem_singleton_self _)
      have := (ht _ he).2
      simp [Prunes] at this

/-- Every live cgroup is recorded, unless a call since its last Create let go
of it. -/
theorem leaks_only_when_let_go (ls : List (Call × ShimTrace)) (s : Process) (p : Bytes)
    (hrun : handled ls s) (hl : Live ls p) :
    Recorded s p ∨ Since (fun x => LetsGo p x.1 x.2.1 x.2.2) (fun x => DoesNotCreate p x.2.2)
      (Runs.trail callStep bootProcess ls) := by
  revert hl
  refine Runs.run_induct (P := fun ls s => Live ls p → Recorded s p ∨
    Since (fun x => LetsGo p x.1 x.2.1 x.2.2) (fun x => DoesNotCreate p x.2.2)
      (Runs.trail callStep bootProcess ls))
    (fun h => by cases h) ?_ ls s hrun
  intro ls s l s' hr ih hs hl
  obtain ⟨c, t⟩ := l
  rw [Runs.trail_snoc hr, since_snoc]
  rcases live_snoc hl with ⟨e, he, hc⟩ | ⟨hl, hn, ht⟩
  · -- the call is the start that created it
    obtain ⟨unit, path, uid, pids, hop, hp⟩ := creates_cases hs he hc
    cases hname : gKeyFileIsGroupName unit with
    | true =>
      refine .inl ⟨unit, path, ?_, hp⟩
      rw [callStep_recorded hs, hop, applyOp, if_pos hname, Function.update_self]
    | false =>
      refine .inr (.inl ?_)
      simp only [LetsGo, hop]
      exact .inl ⟨hp, hname⟩
  · rcases ih hl with hrec | hsince
    · rcases recorded_or_letsGo hs hrec ht with h | h
      · exact .inl h
      · exact .inr (.inl h)
    · exact .inr (.inr ⟨hsince, hn⟩)

def startIn (slice : Bytes) : Call :=
  .startTransientUnit [] (ascii "x.scope") [] [(ascii "Slice", .string slice)] []

/-- Starts of one scope in two slices, one after the other. -/
def scopeMoved : List Call := [startIn (ascii "a.slice"), startIn (ascii "b.slice")]

theorem live_scopeMoved :
    Live (execRun allGood bootProcess scopeMoved) (ascii "a.slice/x.scope") := by decide +kernel

theorem not_recorded_scopeMoved :
    ¬ Recorded (execEnd allGood bootProcess scopeMoved) (ascii "a.slice/x.scope") := by
  intro h
  obtain ⟨u, r, hu, hr⟩ := h
  by_cases hx : u = ascii "x.scope"
  · subst hx
    have : (execEnd allGood bootProcess scopeMoved).recorded (ascii "x.scope") =
        some (ascii "b.slice/x.scope") := by decide +kernel
    obtain rfl := Option.some.inj (this.symm.trans hu)
    exact absurd hr (by decide)
  · have start : ∀ slice path uid pids,
        (startIn slice).op = some (.start (ascii "x.scope") path uid pids) →
        ∀ m : Bytes → Option Bytes, applyOp m (startIn slice).op u = m u := by
      intro slice path uid pids hop m
      apply applyOp_of_ne
      intro o ho
      obtain rfl := Option.some.inj (hop.symm.trans ho)
      exact hx
    simp only [execEnd, scopeMoved, List.foldl_cons, List.foldl_nil] at hu
    rw [callStep_recorded (callStep_exec _ _ _), callStep_recorded (callStep_exec _ _ _),
      start _ (ascii "b.slice/x.scope") (-1) [] (by decide),
      start _ (ascii "a.slice/x.scope") (-1) [] (by decide)] at hu
    cases hu

/-- A scope started again in another slice leaves its first cgroup behind. -/
theorem leak_by_moved_scope : ¬ ∀ (ls : List (Call × ShimTrace)) (s : Process) (p : Bytes),
    handled ls s → Live ls p → Recorded s p :=
  fun h => not_recorded_scopeMoved (h _ _ _ (run_exec _ _ _) live_scopeMoved)

theorem leaks_only_when_let_go_scopeMoved :
    Since (fun x => LetsGo (ascii "a.slice/x.scope") x.1 x.2.1 x.2.2)
      (fun x => DoesNotCreate (ascii "a.slice/x.scope") x.2.2)
      (Runs.trail callStep bootProcess (execRun allGood bootProcess scopeMoved)) :=
  (leaks_only_when_let_go _ _ (ascii "a.slice/x.scope") (run_exec _ _ _)
    live_scopeMoved).resolve_left not_recorded_scopeMoved

/-! Dangling records. -/

/-- Every call to cgmanager succeeds. -/
def AllSucceed (t : ShimTrace) : Prop :=
  ∀ k reply, (⟨.cgmanagerCall k, reply⟩ : Event Ans) ∈ t → Option.isSome reply = true

/-- The call stops another unit than `u`, recorded at `p` or at an ancestor. -/
def StopsOver (u p : Bytes) (s : Process) (c : Call) : Prop :=
  ∃ v path, v ≠ u ∧ c.op = some (.stop v) ∧ s.recorded v = some path ∧ Contains (skipSlash path) p

theorem exists_creates {unit path : Bytes} {uid : Int} {pids : List UInt32}
    (h : callStep s (c, t) = some s') (hop : c.op = some (.start unit path uid pids))
    (hok : AllSucceed t) : ∃ e ∈ t, Creates (skipSlash path) e = true := by
  have hk : CgCall.create (ascii "all") (skipSlash path) ∈ cgCalls t := by
    rw [callStep_start_calls h hop]
    simp [createCalls]
  obtain ⟨reply, he⟩ := mem_cgCalls.mp hk
  exact ⟨_, he, by simpa [Creates] using hok _ _ he⟩

theorem exists_removes {unit path : Bytes} (h : callStep s (c, t) = some s')
    (hop : c.op = some (.stop unit)) (hrec : s.recorded unit = some path) (hok : AllSucceed t)
    (hp : Contains (skipSlash path) p) : ∃ e ∈ t, Removes p e = true := by
  have hc := callStep_stop_calls h hop
  rw [hrec] at hc
  obtain ⟨n, -, hc⟩ := hc
  have hk : CgCall.remove (ascii "all") (skipSlash path) 1 ∈ cgCalls t := by
    rw [hc, List.replicate_succ, List.flatten_cons]
    exact List.mem_append_left _ (by simp [roundCalls])
  obtain ⟨reply, he⟩ := mem_cgCalls.mp hk
  exact ⟨_, he, by simpa [Removes, hp] using hok _ _ he⟩

theorem present_snoc {ls : List (Call × ShimTrace)} (h : callStep s (c, t) = some s') :
    Present (ls ++ [(c, t)]) p ↔
      (∃ e ∈ t, Creates p e = true) ∨ (Present ls p ∧ ∀ e ∈ t, Removes p e = false) := by
  unfold Present
  rw [events_snoc, since_append]
  by_cases hc : ∃ e ∈ t, Creates p e = true
  · -- then the call is a start, and removes nothing
    have hr : ∀ e ∈ t, Removes p e = false := by
      obtain ⟨e, he, hce⟩ := hc
      obtain ⟨_, _, _, _, hop, -⟩ := creates_cases h he hce
      intro e' he'
      cases hr : Removes p e' with
      | false => rfl
      | true =>
        obtain ⟨_, _, hop', -⟩ := removes_cases h he' hr
        rw [hop] at hop'
        cases hop'
    rw [since_of_forall hr]
  · refine or_congr_left (iff_of_false (not_since (fun e he hce => hc ⟨e, he, hce⟩)) hc)

/-- A call that leaves a unit recorded removes the unit's cgroup exactly if it
stops another unit over it. -/
theorem removes_iff_stopsOver {u : Bytes} (h : callStep s (c, t) = some s') (hok : AllSucceed t)
    (hrec : s'.recorded u ≠ none) :
    (∀ e ∈ t, Removes p e = false) ↔ ¬ StopsOver u p s c := by
  constructor
  · intro hkeeps hover
    obtain ⟨v, q, -, hop, hq, hp⟩ := hover
    obtain ⟨e, he, hre⟩ := exists_removes h hop hq hok hp
    rw [hkeeps e he] at hre
    cases hre
  · intro hover e he
    cases hre : Removes p e with
    | false => rfl
    | true =>
      obtain ⟨v, q, hop, hq, hp⟩ := removes_cases h he hre
      refine absurd ⟨v, q, ?_, hop, hq, hp⟩ hover
      -- had it stopped `u` itself, there would be no record left
      intro hv
      subst hv
      refine absurd ?_ hrec
      rw [callStep_recorded h, hop, applyOp, Function.update_self]

/-- When every call succeeds, a recorded unit's cgroup is there exactly if no
other unit has been stopped over it since it was last created. -/
theorem recorded_present_iff (ls : List (Call × ShimTrace)) (s : Process) (u path : Bytes)
    (hrun : handled ls s) (hok : ∀ l ∈ ls, AllSucceed l.2) (hrec : s.recorded u = some path) :
    Present ls (skipSlash path) ↔
      ¬ Since (fun x => StopsOver u (skipSlash path) x.1 x.2.1)
        (fun x => DoesNotCreate (skipSlash path) x.2.2)
        (Runs.trail callStep bootProcess ls) := by
  revert hok u path
  refine Runs.run_induct (P := fun ls s => ∀ u path, (∀ l ∈ ls, AllSucceed l.2) →
    s.recorded u = some path → (Present ls (skipSlash path) ↔
      ¬ Since (fun x => StopsOver u (skipSlash path) x.1 x.2.1)
        (fun x => DoesNotCreate (skipSlash path) x.2.2) (Runs.trail callStep bootProcess ls)))
    (fun u path _ h => by cases h) ?_ ls s hrun
  intro ls s l s' hr ih hs u path hok hrec
  obtain ⟨c, t⟩ := l
  have hokt : AllSucceed t := hok (c, t) (by simp)
  rw [Runs.trail_snoc hr, since_snoc, present_snoc hs]
  rcases creates_or_not (skipSlash path) t with hc | hn
  · -- a start has just created it, and nothing has been stopped over it since
    apply iff_of_true (.inl hc)
    obtain ⟨e, he, hce⟩ := hc
    intro h
    obtain ⟨_, _, _, hop, _⟩ | ⟨_, hn⟩ := h
    · obtain ⟨_, _, _, _, hop', -⟩ := creates_cases hs he hce
      rw [show c.op = _ from hop] at hop'
      cases hop'
    · rw [hn e he] at hce
      cases hce
  · have hc : ¬ ∃ e ∈ t, Creates (skipSlash path) e = true := by
      intro h
      obtain ⟨e, he, hce⟩ := h
      rw [hn e he] at hce
      cases hce
    -- the record is an older one
    have hrec₀ : s.recorded u = some path := by
      have hm := hrec
      rw [callStep_recorded hs] at hm
      rcases applyOp_some hm with h | ⟨uid, pids, hop⟩
      · exact h
      · exact absurd (exists_creates hs hop hokt) hc
    have hrem : (∀ e ∈ t, Removes (skipSlash path) e = false) ↔
        ¬ StopsOver u (skipSlash path) s c :=
      removes_iff_stopsOver hs hokt (by rw [hrec]; nofun)
    have ih := ih u path (fun l hl => hok l (List.mem_append_left _ hl)) hrec₀
    simp only [hc, false_or, ih, hrem, hn, and_true, not_or]
    exact and_comm

theorem allSucceed_exec (s : Process) (cs : List Call) :
    ∀ l ∈ execRun allGood s cs, AllSucceed l.2 := by
  induction cs generalizing s with
  | nil => simp [execRun]
  | cons c cs ih =>
    refine List.forall_mem_cons.mpr ⟨fun k reply h => ?_, ih _⟩
    have hr : reply = allGood (.cgmanagerCall k) := Prog.mem_exec h
    rw [hr]
    cases k <;> rfl

/-- A slice stopped over another one. -/
def stoppedOver : List Call :=
  [.startUnit [] (ascii "a.slice") [], .startUnit [] (ascii "a-b.slice") [],
    .stopUnit [] (ascii "a.slice") []]

theorem recorded_stoppedOver : (execEnd allGood bootProcess stoppedOver).recorded
    (ascii "a-b.slice") = some (ascii "a.slice/a-b.slice") := by decide +kernel

theorem not_present_stoppedOver :
    ¬ Present (execRun allGood bootProcess stoppedOver) (ascii "a.slice/a-b.slice") := by
  decide +kernel

/-- Stopping a slice removes the cgroup of a slice below it that is still recorded. -/
theorem dangling_after_stop_of_parent : ¬ ∀ (ls : List (Call × ShimTrace)) (s : Process)
    (u path : Bytes), handled ls s → (∀ l ∈ ls, AllSucceed l.2) → s.recorded u = some path →
      Present ls (skipSlash path) :=
  fun h => not_present_stoppedOver
    (h _ _ _ _ (run_exec _ _ _) (allSucceed_exec _ _) recorded_stoppedOver)

theorem recorded_present_iff_stoppedOver :
    Since (fun x => StopsOver (ascii "a-b.slice") (ascii "a.slice/a-b.slice") x.1 x.2.1)
      (fun x => DoesNotCreate (ascii "a.slice/a-b.slice") x.2.2)
      (Runs.trail callStep bootProcess (execRun allGood bootProcess stoppedOver)) :=
  by_contra fun h => not_present_stoppedOver
    ((recorded_present_iff _ _ _ _ (run_exec _ _ _) (allSucceed_exec _ _)
      recorded_stoppedOver).mpr h)

end Shim
