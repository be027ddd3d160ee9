import SystemdShim.ReleaseAgent

/- What the shim does to cgroups and tasks, amid the kernel and the other parties: each
   call to cgmanager is one that the operation it handles comes to, and it sends
   SIGKILL to a task only for a stop of a unit in whose recorded cgroup, or below it,
   the task has been since the stop was taken up (`acts_asked`). -/
namespace Shim
open Effects History

/-- The calls of an operation are those of the start it is, or concern the path that
was recorded. -/
theorem OpSpec.calls {f f' : Files} {op : Option UnitOp} {t : ShimTrace} {call : CgCall}
    (h : OpSpec f op t f') (hcall : call ∈ cgCalls t) :
    (∃ unit path uid pids, op = some (.start unit path uid pids) ∧
      call ∈ createCalls path uid pids) ∨
    (∃ unit path, op = some (.stop unit) ∧ f.recorded unit = some path ∧
      call ∈ roundCalls path) ∨
    ∃ unit path, op = some (.abandon unit) ∧ f.recorded unit = some path ∧
      call = .prune (ascii "all") path := by
  have saved : ∀ tc keyFile b, t = tc ++ [⟨.saveToFile keyFile, b⟩] → call ∈ cgCalls tc := by
    intro tc keyFile b ht
    rw [ht, cgCalls_append] at hcall
    exact (List.mem_append.mp hcall).resolve_right nofun
  have release : ∀ unit, op = some (.stop unit) ∨ op = some (.abandon unit) →
      ∃ path, f.recorded unit = some path := by
    intro unit hop
    cases hr : f.recorded unit with
    | some path => exact ⟨path, rfl⟩
    | none =>
      obtain ⟨rfl, -⟩ := h.release_idle hop hr
      cases hcall
  rcases op with _ | ⟨unit, path, uid, pids⟩ | unit | unit
  · rw [h.1] at hcall
    cases hcall
  · obtain ⟨tc, b, htc, ht, -⟩ := h
    exact .inl ⟨unit, path, uid, pids, rfl, htc.cgCalls ▸ saved tc _ b ht⟩
  · obtain ⟨path, hr⟩ := release unit (.inl rfl)
    simp only [OpSpec, hr] at h
    obtain ⟨tc, b, htc, ht, -⟩ := h
    obtain ⟨n, -, hc, -⟩ := htc.rounds
    obtain ⟨cs, hcs, hmem⟩ := List.mem_flatten.mp (hc ▸ saved tc _ b ht)
    exact .inr (.inl ⟨unit, path, rfl, hr, List.eq_of_mem_replicate hcs ▸ hmem⟩)
  · obtain ⟨path, hr⟩ := release unit (.inr rfl)
    simp only [OpSpec, hr] at h
    obtain ⟨tc, b, htc, ht, -⟩ := h
    exact .inr (.inr ⟨unit, path, rfl, hr, List.mem_singleton.mp (htc.cgCalls ▸ saved tc _ b ht)⟩)

/-- At time `k` of the log the shim handles the call that it took up at time `j`, in
the state `s`. -/
structure Handles (log : List Happening) (j k : Nat) (c : Call) (s : Process) : Prop where
  began : ∃ origin, log[j]? = some (.began origin c s)
  after : j < k
  same : ∀ m origin c' s', j < m → m < k → log[m]? ≠ some (.began origin c' s')

variable {log : List Happening} {k : Nat} {c : Call} {s : Process} {t : ShimTrace}

theorem Handles.next {j : Nat} (h : Handles log j k c s)
    (hk : ∀ origin c' s', log[k]? ≠ some (.began origin c' s')) : Handles log j (k + 1) c s := by
  refine ⟨h.began, h.after.trans (Nat.lt_succ_self k), fun m origin c' s' hjm hmk => ?_⟩
  rcases Nat.lt_or_eq_of_le (Nat.le_of_lt_succ hmk) with hlt | rfl
  · exact h.same m origin c' s' hjm hlt
  · exact hk origin c' s'

/-- What is under way is what was taken up last, and what it has done. -/
theorem handles_underWay (h : underWay (log.take k) = some (c, s, t)) :
    ∃ j, Handles log j k c s ∧ ∀ e ∈ t, ∃ r, j < r ∧ r < k ∧ log[r]? = some (.did e) := by
  induction k generalizing t with
  | zero => cases h
  | succ k ih =>
    -- whatever comes at time `k`, if it begins and does nothing
    have stays : (∀ origin c' s', log[k]? ≠ some (.began origin c' s')) →
        underWay (log.take k) = some (c, s, t) → ∃ j, Handles log j (k + 1) c s ∧
          ∀ e ∈ t, ∃ r, j < r ∧ r < k + 1 ∧ log[r]? = some (.did e) := by
      intro hno hk
      obtain ⟨j, hj, hdid⟩ := ih hk
      refine ⟨j, hj.next hno, fun e he => ?_⟩
      obtain ⟨r, hjr, hrk, hr⟩ := hdid e he
      exact ⟨r, hjr, hrk.trans (Nat.lt_succ_self k), hr⟩
    rw [List.take_add_one] at h
    cases hx : log[k]? with
    | none =>
      rw [hx, Option.toList_none, List.append_nil] at h
      exact stays (fun _ _ _ he => by rw [hx] at he; cases he) h
    | some x =>
      rw [hx, Option.toList_some, underWay_snoc] at h
      have kernel : x.byKernel = true → ∃ j, Handles log j (k + 1) c s ∧
          ∀ e ∈ t, ∃ r, j < r ∧ r < k + 1 ∧ log[r]? = some (.did e) := by
        intro hb
        rw [follow_byKernel hb] at h
        refine stays (fun origin c' s' he => ?_) h
        obtain rfl := Option.some.inj (hx.symm.trans he)
        cases hb
      cases x with
      | began origin c' s' =>
        obtain ⟨rfl, rfl, rfl⟩ : c' = c ∧ s' = s ∧ [] = t := by simpa [follow] using h
        refine ⟨k, ⟨⟨origin, hx⟩, Nat.lt_succ_self k, fun m _ _ _ hkm hmk => by omega⟩, nofun⟩
      | did e =>
        cases hu : underWay (log.take k) with
        | none =>
          rw [hu] at h
          cases h
        | some u =>
          obtain ⟨c', s', t'⟩ := u
          rw [hu] at h
          obtain ⟨rfl, rfl, rfl⟩ : c' = c ∧ s' = s ∧ t' ++ [e] = t := by simpa [follow] using h
          obtain ⟨j, hj, hdid⟩ := ih hu
          refine ⟨j, hj.next (fun _ _ _ he => by rw [hx] at he; cases he), fun e' he' => ?_⟩
          rcases List.mem_append.mp he' with he' | he'
          · obtain ⟨r, hjr, hrk, hr⟩ := hdid e' he'
            exact ⟨r, hjr, hrk.trans (Nat.lt_succ_self k), hr⟩
          · rw [List.mem_singleton.mp he']
            exact ⟨k, hj.after, Nat.lt_succ_self k, hx⟩
      | entered pid cg => exact kernel rfl
      | exited pid => exact kernel rfl
      | released id cg => exact kernel rfl
      | lost ms =>
        rw [follow_lost] at h
        exact stays (fun _ _ _ he => by rw [hx] at he; cases he) h

/-- Why the shim may do this, at time `k` and in a handling that began at time `j`. -/
def Asked (log : List Happening) (j k : Nat) (c : Call) (s : Process) : Event Ans → Prop
  | ⟨.kill pid, _⟩ => ∃ unit path, c.op = some (.stop unit) ∧ s.recorded unit = some path ∧
    ∃ r q, j < r ∧ r < k ∧ place path <+: q ∧ Located (log.take r) pid q
  | ⟨.cgmanagerCall call, _⟩ =>
    match c.op with
    | some (.start _ path uid pids) => call ∈ createCalls path uid pids
    | some (.stop unit) => ∃ path, s.recorded unit = some path ∧ call ∈ roundCalls path
    | some (.abandon unit) => ∃ path, s.recorded unit = some path ∧ call = .prune (ascii "all") path
    | none => False
  | _ => True

/-- In every run of the parties, whatever the shim does to cgroups and tasks is asked
for by the call that it handles: a start works on its own path and moves its PIDs, a
stop or an abandon works on the recorded path, and a task is killed only to stop a
unit in whose recorded cgroup, or below it, it has been during the handling. A task is
known by its pid alone, so one that has been given the pid of another meanwhile is not
told apart from it. -/
theorem acts_asked (ms : List Move) (w : World) (k : Nat) (e : Event Ans)
    (hrun : Runs.run worldStep bootWorld ms = some w)
    (hk : w.kernel.log[k]? = some (.did e)) :
    ∃ j c s, Handles w.kernel.log j k c s ∧ Asked w.kernel.log j k c s e := by
  have hi := inv_worldRun ms w hrun
  obtain ⟨⟨c, s, t, t', f', hu, hop⟩, -⟩ := hi.law k _ hk
  obtain ⟨j, hj, hdid⟩ := handles_underWay hu
  refine ⟨j, c, s, hj, ?_⟩
  rw [core_append] at hop
  obtain ⟨a, reply⟩ := e
  cases a with
  | kill pid =>
    obtain ⟨unit, path, hstop, hrec, hkills⟩ :=
      hop.killsReported (List.mem_append_right _ (List.mem_cons_self ..))
    obtain ⟨pids, hreport, hp⟩ := hkills (core t) pid (core t') rfl
    obtain ⟨r, hjr, hrk, hr⟩ := hdid _ (List.mem_of_mem_filter hreport)
    obtain ⟨q, hq, hloc⟩ := ((hi.law r _ hr).2 _ _ _ rfl pid).mp hp
    exact ⟨unit, path, hstop, hrec, r, q, hjr, hrk, hq, hloc⟩
  | cgmanagerCall call =>
    have hcall : call ∈ cgCalls (core t ++ ⟨.cgmanagerCall call, reply⟩ :: core t') :=
      mem_cgCalls.mpr ⟨reply, List.mem_append_right _ (List.mem_cons_self ..)⟩
    obtain ⟨unit, path, uid, pids, hc, hmem⟩ | ⟨unit, path, hc, hr, hmem⟩ |
      ⟨unit, path, hc, hr, hmem⟩ := hop.calls hcall
    · simp only [Asked, hc]
      exact hmem
    · simp only [Asked, hc]
      exact ⟨path, hr, hmem⟩
    · simp only [Asked, hc]
      exact ⟨path, hr, hmem⟩
  | _ => trivial

theorem acts_asked_restartedScope : ∃ w, Runs.run worldStep bootWorld restartedScope = some w ∧
    ∃ j c s, Handles w.kernel.log j 23 c s ∧ Asked w.kernel.log j 23 c s ⟨.kill 200, ()⟩ := by
  obtain ⟨w, _, hrun, hkills, -⟩ := restartedScope_kills
  exact ⟨w, hrun, acts_asked restartedScope w 23 ⟨.kill 200, ()⟩ hrun hkills.kill⟩

end Shim
