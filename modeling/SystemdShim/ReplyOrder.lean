import SystemdShim.IdleExit

/- One answer for each request. The main loop hands the requests out one at a time,
   in an order of its own, and a handler answers once; so whatever that order is, the
   replies are those to the requests handled, in the order their handlers ran, and
   perhaps one to the request in hand. The invariant counts the replies that the
   request in hand has posted. -/
namespace Shim
open Effects

variable {systemdVersion : Nat} {s s' : Loop}

/-- The requests that have been answered, in the order of their replies. -/
def serials (ms : List Message) : List Nat :=
  ms.filterMap (fun m => match m with
    | .reply serial => some serial
    | .signal _ => none)

@[simp] theorem serials_append (ms ms' : List Message) :
    serials (ms ++ ms') = serials ms ++ serials ms' := List.filterMap_append ..

/-- The serial that the replies of a callback carry, `n` times. -/
def Callback.serials : Callback → Nat → List Nat
  | .call serial _, n => List.replicate n serial
  | .timeout _, _ => []

theorem Callback.serials_add (cb : Callback) (n k : Nat) :
    cb.serials (n + k) = cb.serials n ++ cb.serials k := by
  cases cb with
  | call serial r => exact List.replicate_add ..
  | timeout id => rfl

theorem Callback.serials_zero (cb : Callback) : cb.serials 0 = [] := by
  cases cb <;> rfl

/-- The serial of the request in hand, as often as it has been answered. -/
def Loop.answeredInHand (s : Loop) : List Nat :=
  match s.running with
  | some c => c.callback.serials (replies c.thread.sofar)
  | none => []

/-- A handler answers once before it returns, and never again; the timeout callback
answers nobody. -/
def OnceSpec : Callback → ShimTrace → Except Halt (Unit × Process) → Prop
  | .call _ _, t, o => replies t ≤ 1 ∧ ∀ q, o = .ok q → replies t = 1
  | .timeout _, t, _ => replies t = 0

structure AsHandled (s : Loop) : Prop where
  posted : serials s.posted = s.handled ++ s.answeredInHand
  once : ∀ c, s.running = some c → c.thread.wp (OnceSpec c.callback)

theorem replies_append (t t' : ShimTrace) : replies (t ++ t') = replies t + replies t' :=
  List.countP_append ..

/-- The request that crashes is not answered. -/
theorem keeps_abandon_root : Proc.Keeps (fun _ : Process => True) (fun e => isReply e.1 = false)
    (fun _ => True) ((Request.unit none "Abandon").handle systemdVersion) := by
  have hactivity : Proc.Keeps (fun _ : Process => True) (fun e => isReply e.1 = false)
      (fun _ => True) hadActivity := by
    apply Housekeeping.hadActivity.keeps (fun _ _ _ _ => trivial)
    intro e he
    obtain ⟨a, r⟩ := e
    cases a <;> first | rfl | cases he
  rw [handle_unit]
  exact .bind hactivity (fun _ => .bind hactivity (fun _ => .bind hactivity (fun _ =>
    .halt trivial)))

theorem wp_onceSpec {serial : Nat} {r : Request} (h : Deliverable systemdVersion r) (p : Process) :
    Proc.wp (r.handle systemdVersion) p (OnceSpec (.call serial r)) := by
  by_cases hr : r = .unit none "Abandon"
  · subst hr
    apply Prog.wp_mono (Prog.wp_and (wp_abandon_root systemdVersion p)
      (keeps_abandon_root p trivial))
    intro t o ho
    obtain ⟨rfl, ht, -⟩ := ho
    have hzero : replies t = 0 := List.countP_eq_zero.mpr (fun e he => by simp [ht e he])
    exact ⟨by omega, nofun⟩
  · apply Proc.wp_mono (sent_deliverable h hr p)
    intro t o ho
    obtain ⟨_, _, rfl, ht⟩ := ho
    have hone : replies t = 1 := (Nat.zero_add _).symm.trans ht
    exact ⟨Nat.le_of_eq hone, fun _ _ => hone⟩

theorem wp_onceSpec_timeout {id : Nat} (p : Process) :
    Proc.wp exitOnInactivity p (OnceSpec (.timeout id)) := by
  apply Proc.wp_mono (wp_exitOnInactivity p)
  intro t o ho
  obtain ⟨-, rfl, -⟩ | ⟨-, rfl, -⟩ := ho
  · rfl
  · rfl

theorem serials_postReply (s : Loop) (cb : Callback) :
    serials (s.postReply cb).posted = serials s.posted ++ cb.serials 1 := by
  cases cb with
  | call serial r =>
    unfold Loop.postReply Loop.post Loop.posted
    simp only [serials_append, List.append_assoc]
    rfl
  | timeout id => exact (List.append_nil _).symm

/-- What an act posts is a reply to the request in hand, or no reply. -/
theorem serials_perform {cb : Callback} {e : Event Ans} (h : s.perform cb e = some s') :
    serials s'.posted = serials s.posted ++ cb.serials (replies [e]) := by
  obtain ⟨a, r⟩ := e
  have silent : isReply a = false → serials s'.posted = serials s.posted →
      serials s'.posted = serials s.posted ++ cb.serials (replies [⟨a, r⟩]) := by
    intro ha hs
    have hzero : replies [⟨a, r⟩] = 0 := by simp [replies, ha]
    rw [hs, hzero, cb.serials_zero, List.append_nil]
  cases a with
  | returnValue value =>
    obtain rfl := Option.some.inj h
    exact serials_postReply s cb
  | returnGError error =>
    obtain rfl := Option.some.inj h
    exact serials_postReply s cb
  | emitSignal destination name value =>
    obtain rfl := Option.some.inj h
    apply silent rfl
    simp [Loop.posted, Loop.post, serials]
  | timeoutAdd interval =>
    obtain ⟨-, he⟩ := Option.ite_none_right_eq_some.mp h
    obtain rfl := Option.some.inj he
    exact silent rfl rfl
  | getMonotonicTime =>
    obtain ⟨-, he⟩ := Option.ite_none_right_eq_some.mp h
    obtain rfl := Option.some.inj he
    exact silent rfl rfl
  | flushSync =>
    obtain rfl := Option.some.inj h
    apply silent rfl
    simp [Loop.posted]
  | _ =>
    obtain rfl := Option.some.inj h
    exact silent rfl rfl

theorem asHandled_act {c : Running} {e : Event Ans} {th : Thread Act Ans Halt (Unit × Process)}
    {s₁ : Loop} (hi : AsHandled s) (hrun : s.running = some c) (hth : c.thread.step e = some th)
    (hp : s.perform c.callback e = some s₁) :
    AsHandled { s₁ with running := some ⟨c.callback, th⟩ } := by
  have honce := Thread.wp_step (hi.once c hrun) hth
  have hposted := serials_perform hp
  have hhandled : s₁.handled = s.handled := by rw [(performed hp).frame]
  obtain ⟨k, -, rfl⟩ := Thread.step_cases hth
  refine ⟨?_, ?_⟩
  · show serials s₁.posted = s₁.handled ++ _
    rw [hposted, hhandled, hi.posted, List.append_assoc]
    simp only [Loop.answeredInHand, hrun, replies_append, Callback.serials_add]
  · intro c' hc
    obtain rfl := Option.some.inj hc
    exact honce

theorem asHandled_step {l : Label systemdVersion} (hi : AsHandled s) (hinv : s.Inv systemdVersion)
    (hs : loopStep s l = some s') : AsHandled s' := by
  cases l with
  | arrive r =>
    obtain rfl := Option.some.inj hs
    exact ⟨hi.posted, hi.once⟩
  | tick d =>
    obtain rfl := Option.some.inj hs
    exact ⟨hi.posted, hi.once⟩
  | dispatch i =>
    obtain ⟨serial, r, queue, hrun, hq, rfl⟩ := loopStep_dispatch hs
    refine ⟨?_, ?_⟩
    · show serials s.posted = s.handled ++ []
      rw [hi.posted, Loop.answeredInHand, hrun]
    · intro c hc
      obtain rfl := Option.some.inj hc
      have hmem : (serial, r) ∈ s.queue := hq.mem_iff.mpr List.mem_cons_self
      exact wp_onceSpec (hinv.queued (serial, r) hmem) s.process
  | fire id =>
    obtain ⟨hrun, rfl⟩ := loopStep_fire hs
    refine ⟨?_, ?_⟩
    · show serials s.posted = s.handled ++ []
      rw [hi.posted, Loop.answeredInHand, hrun]
    · intro c hc
      obtain rfl := Option.some.inj hc
      exact wp_onceSpec_timeout s.process
  | act e =>
    obtain ⟨c, th, s₁, hrun, hth, hp, rfl⟩ := loopStep_act hs
    exact asHandled_act hi hrun hth hp
  | finish =>
    obtain ⟨⟨cb, th⟩, hrun, ⟨q, hret, rfl⟩ | ⟨x, -, rfl⟩⟩ := loopStep_finish hs
    · have honce : OnceSpec cb th.sofar (.ok q) := Thread.wp_ret (hi.once _ hrun) hret
      have hposted : serials s.posted = s.handled ++ cb.serials (replies th.sofar) := by
        rw [hi.posted, Loop.answeredInHand, hrun]
      cases cb with
      | call serial r =>
        rw [show replies th.sofar = 1 from honce.2 q rfl] at hposted
        exact ⟨hposted.trans (List.append_nil _).symm, nofun⟩
      | timeout id => exact ⟨hposted, nofun⟩
    · exact ⟨rfl, nofun⟩
  | send =>
    obtain ⟨m, outbox, ho, rfl⟩ := loopStep_send hs
    refine ⟨?_, hi.once⟩
    have hposted :
        ({ s with outbox := outbox, wire := s.wire ++ [m] } : Loop).posted = s.posted := by
      simp [Loop.posted, ho]
    rw [hposted]
    exact hi.posted

theorem asHandled_run (ls : List (Label systemdVersion)) (s : Loop)
    (hrun : Runs.run loopStep bootLoop ls = some s) : s.Inv systemdVersion ∧ AsHandled s := by
  refine Runs.run_invariant (I := fun s => s.Inv systemdVersion ∧ AsHandled s)
    ⟨inv_boot, rfl, nofun⟩ ?_ ls s hrun
  intro s l s' hi hs
  exact ⟨inv_step hi.1 hs, asHandled_step hi.2 hi.1 hs⟩

/-- The request in hand has been answered once at most. -/
theorem answeredInHand_inHand (hi : AsHandled s) : s.answeredInHand <+: s.inHand := by
  unfold Loop.answeredInHand Loop.inHand
  cases hrun : s.running with
  | none => exact List.nil_prefix
  | some c =>
    obtain ⟨cb, th⟩ := c
    have honce := hi.once _ hrun
    cases cb with
    | timeout id => exact List.nil_prefix
    | call serial r =>
      obtain ⟨t, o, ho, -⟩ := Prog.wp_exists honce
      have hle : replies th.sofar + replies t ≤ 1 := (replies_append ..).symm.trans_le ho
      obtain hn | hn : replies th.sofar = 0 ∨ replies th.sofar = 1 := by omega
      · show List.replicate (replies th.sofar) serial <+: [serial]
        rw [hn]
        exact List.nil_prefix
      · show List.replicate (replies th.sofar) serial <+: [serial]
        rw [hn]
        exact List.prefix_refl _

/-- In every state, the requests delivered are those handled, the one in hand and
those queued, each once; the replies are to those handled, in the order their handlers
ran, and then at most one to the request in hand; and they go out in that order. -/
theorem replies_as_handled (ls : List (Label systemdVersion)) (s : Loop)
    (hrun : Runs.run loopStep bootLoop ls = some s) :
    s.delivered.Nodup ∧ s.delivered.Perm (s.handled ++ s.inHand ++ s.queue.map Prod.fst) ∧
      s.handled <+: serials s.posted ∧ serials s.posted <+: s.handled ++ s.inHand ∧
      serials s.wire <+: serials s.posted := by
  obtain ⟨hinv, hi⟩ := asHandled_run ls s hrun
  refine ⟨hinv.fresh.1, hinv.whole, ?_, ?_, ?_⟩
  · rw [hi.posted]
    exact List.prefix_append _ _
  · rw [hi.posted]
    exact (List.prefix_append_right_inj _).mpr (answeredInHand_inHand hi)
  · rw [Loop.posted, serials_append]
    exact List.prefix_append _ _

/-- Two requests, the later one handled first, the other one in hand and answered. -/
def twoRequests : List (Label 208) :=
  [.arrive subscribe, .arrive subscribe, .dispatch 1, .act ⟨.returnValue [], ()⟩,
    .act ⟨.timeoutAdd 10000, (1 : Nat)⟩, .finish, .dispatch 0, .act ⟨.returnValue [], ()⟩, .send]

theorem replies_as_handled_two : ∃ s, Runs.run loopStep bootLoop twoRequests = some s ∧
    s.delivered.Nodup ∧ s.delivered.Perm (s.handled ++ s.inHand ++ s.queue.map Prod.fst) ∧
      s.handled <+: serials s.posted ∧ serials s.posted <+: s.handled ++ s.inHand ∧
      serials s.wire <+: serials s.posted :=
  ⟨_, rfl, replies_as_handled twoRequests _ rfl⟩

end Shim
