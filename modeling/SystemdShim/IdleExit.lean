import SystemdShim.MainLoop

/- What the inactivity exit leaves behind. The flush before it covers the
   replies of every request that has been dispatched. A request that the bus
   has delivered but the main loop has not dispatched is in neither, so the
   exit loses what is queued, and nothing else. -/
namespace Shim
open Effects

variable {systemdVersion : Nat}

/-- The callback that exits is the timer's. -/
theorem exits_callback {s : Loop} (hi : s.Inv systemdVersion) (h : Exits s) :
    ∃ c id status, s.running = some c ∧ c.callback = .timeout id ∧
      c.thread.rest = .halt (.exit status) := by
  obtain ⟨⟨cb, th⟩, status, hrun, hrest⟩ := h
  have hspec : RunSpec cb th.sofar (.error (.exit status)) :=
    Thread.wp_halt (hi.good _ hrun).spec hrest
  cases cb with
  | call serial r => exact absurd rfl (hspec.1 status)
  | timeout id => exact ⟨_, id, status, hrun, rfl, hrest⟩

/-- It has flushed. -/
theorem exits_timeout {s : Loop} (hi : s.Inv systemdVersion) (h : Exits s) :
    s.inHand = [] ∧ s.outbox = [] := by
  obtain ⟨⟨cb, th⟩, id, status, hrun, rfl, hrest⟩ := exits_callback hi h
  have hg := hi.good _ hrun
  have hspec : RunSpec (.timeout id) th.sofar (.error (.exit status)) :=
    Thread.wp_halt hg.spec hrest
  refine ⟨by simp [Loop.inHand, hrun], hg.flushed id rfl ?_⟩
  obtain ⟨-, _, h⟩ | ⟨h, -⟩ := hspec
  · cases h
  · rw [h]
    exact List.cons_ne_nil _ _

theorem handled_iff_queue {s : Loop} (hi : s.Inv systemdVersion)
    (hwhole : s.delivered.Perm (s.handled ++ s.queue.map Prod.fst)) :
    (∀ serial ∈ s.delivered, serial ∈ s.handled) ↔ s.queue = [] := by
  have hnodup := hwhole.nodup_iff.mp hi.fresh.1
  constructor
  · intro h
    cases hq : s.queue with
    | nil => rfl
    | cons x queue =>
      rw [hq] at hnodup hwhole
      -- the serials are distinct, so what is queued has not been handled
      have hx : x.1 ∈ s.handled := h x.1 (hwhole.mem_iff.mpr (by simp))
      exact absurd rfl ((List.nodup_append.mp hnodup).2.2 x.1 hx x.1 (by simp))
  · intro h serial hm
    simpa [h] using hwhole.mem_iff.mp hm

/-- At an exit, what the bus delivered is what has been handled, each with its
reply sent, and what is still queued; so the exit loses no request just when
nothing is queued. -/
theorem exit_loses_only_queued {ls : List (Label systemdVersion)} {s : Loop}
    (hrun : Runs.run loopStep bootLoop ls = some s) (hexit : Exits s) :
    s.delivered.Perm (s.handled ++ s.queue.map Prod.fst) ∧
    (∀ serial ∈ s.handled, .reply serial ∈ s.wire) ∧ s.outbox = [] ∧
    ((∀ serial ∈ s.delivered, serial ∈ s.handled ∧ .reply serial ∈ s.wire) ↔ s.queue = []) := by
  have hi := inv_run ls s hrun
  obtain ⟨hhand, hout⟩ := exits_timeout hi hexit
  have hwhole : s.delivered.Perm (s.handled ++ s.queue.map Prod.fst) := by
    have hwhole := hi.whole
    rwa [hhand, List.append_nil] at hwhole
  have hwire : ∀ serial ∈ s.handled, .reply serial ∈ s.wire := by
    intro serial h
    have := hi.replied serial h
    rwa [Loop.posted, hout, List.append_nil] at this
  refine ⟨hwhole, hwire, hout, ?_⟩
  rw [← handled_iff_queue hi hwhole]
  exact ⟨fun h serial hm => (h serial hm).1,
    fun h serial hm => ⟨h serial hm, hwire serial (h serial hm)⟩⟩

/-- Subscribe, from a client. -/
def subscribe : { r : Request // Deliverable 208 r } :=
  ⟨.manager [] "Subscribe" [], .call _ (.manager [] ⟨"Subscribe", []⟩ [] (by decide) rfl)⟩

/-- The release agent's call for a user's slice. -/
def releaseUserSlice : { r : Request // Deliverable 208 r } :=
  ⟨.manager [] "StopUnit" [.string (ascii "user-1000.slice"), .string (ascii "/")],
    .call _ (.manager [] ⟨"StopUnit", [⟨"name", .s⟩, ⟨"mode", .s⟩]⟩ _ (by decide) rfl)⟩

/-- One request, and ten idle seconds. -/
def idleSeconds : List (Label 208) :=
  [.arrive subscribe, .dispatch 0, .act ⟨.returnValue [], ()⟩, .act ⟨.timeoutAdd 10000, (1 : Nat)⟩,
    .finish, .tick 10000000]

/-- The timer fires. -/
def idleRun : List (Label 208) := idleSeconds ++ [.fire 1, .act ⟨.flushSync, ()⟩]

/-- The agent's call arrives just before it does. -/
def lossyRun : List (Label 208) :=
  idleSeconds ++ [.arrive releaseUserSlice, .fire 1, .act ⟨.flushSync, ()⟩]

theorem exit_loses_only_queued_idleRun : ∃ s, Runs.run loopStep bootLoop idleRun = some s ∧
    s.delivered.Perm (s.handled ++ s.queue.map Prod.fst) ∧
    (∀ serial ∈ s.handled, .reply serial ∈ s.wire) ∧ s.outbox = [] ∧
    ((∀ serial ∈ s.delivered, serial ∈ s.handled ∧ .reply serial ∈ s.wire) ↔ s.queue = []) :=
  ⟨_, rfl, exit_loses_only_queued (rfl : Runs.run loopStep bootLoop idleRun = some _)
    ⟨_, 0, rfl, rfl⟩⟩

/-- The agent's call is queued when the process exits, and lost. -/
theorem exit_loses_request : ¬ ∀ (systemdVersion : Nat) (ls : List (Label systemdVersion))
    (s : Loop),
    Runs.run loopStep bootLoop ls = some s → Exits s →
    (∀ serial ∈ s.delivered, serial ∈ s.handled ∧ .reply serial ∈ s.wire) ∧ s.queue = [] := by
  intro h
  obtain ⟨-, hq⟩ := h 208 lossyRun _ rfl ⟨_, 0, rfl, rfl⟩
  cases hq

end Shim
