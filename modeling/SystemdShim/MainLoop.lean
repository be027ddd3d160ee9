import Mathlib.Data.List.Perm.Basic
import SystemdShim.Replies

/- The process around the handlers: the main loop, the inactivity timer, the
   queue of requests the bus has delivered, and the messages on their way out.
   A callback runs act by act, so requests arrive and time passes in between;
   which of a queued request and an expired timer comes first is open, and so is
   the order of the queued requests: GDBus passes a call of a unit object on
   through an idle source of its own. When a process exits, the bus starts a
   fresh one. -/
namespace Shim
open Effects

/-- What GDBus calls a handler for: an exported method, or a read of a property
or of the subtree. -/
inductive Deliverable (systemdVersion : Nat) : Request → Prop where
  | call (r : Request) (h : Exported systemdVersion r) : Deliverable systemdVersion r
  | managerProperty (propertyName : String) :
      Deliverable systemdVersion (.managerProperty propertyName)
  | unitProperty (node : Option Bytes) (propertyName : String) :
      Deliverable systemdVersion (.unitProperty node propertyName)
  | enumerate : Deliverable systemdVersion .enumerate
  | introspect (node : Option Bytes) : Deliverable systemdVersion (.introspect node)

inductive Callback where
  /-- the handler of the request with this serial -/
  | call (serial : Nat) (r : Request)
  /-- exit_on_inactivity, from the source with this id -/
  | timeout (id : Nat)

structure Running where
  callback : Callback
  thread : Thread Act Ans Halt (Unit × Process)

inductive Message where
  | reply (serial : Nat)
  | signal (name : String)
  deriving DecidableEq

/-- `delivered` and `handled` keep the serials of this process's requests. -/
structure Loop where
  process : Process := {}
  /-- the monotonic time, in microseconds -/
  clock : Int := 0
  /-- the attached timeout sources, with the time each expires -/
  sources : List (Nat × Int) := []
  lastId : Nat := 0
  queue : List (Nat × Request) := []
  running : Option Running := none
  outbox : List Message := []
  wire : List Message := []
  nextSerial : Nat := 0
  delivered : List Nat := []
  handled : List Nat := []

namespace Loop

/-- A message goes to the outgoing queue of the connection. -/
def post (s : Loop) (m : Message) : Loop := { s with outbox := s.outbox ++ [m] }

def postReply (s : Loop) : Callback → Loop
  | .call serial _ => s.post (.reply serial)
  | .timeout _ => s

/-- What an act does to the process's surroundings, if its answer is one they
can give. -/
def perform (s : Loop) (cb : Callback) : Event Ans → Option Loop
  | ⟨.timeoutAdd interval, id⟩ =>
    -- GLib gives no id out twice
    if s.lastId < id then
      some { s with sources := s.sources ++ [(id, s.clock + 1000 * interval)], lastId := id }
    else none
  | ⟨.sourceRemove id, _⟩ => some { s with sources := s.sources.filter (fun p => p.1 ≠ id) }
  | ⟨.getMonotonicTime, now⟩ => if now = s.clock then some s else none
  | ⟨.returnValue _, _⟩ => some (s.postReply cb)
  | ⟨.returnGError _, _⟩ => some (s.postReply cb)
  | ⟨.emitSignal _ name _, _⟩ => some (s.post (.signal name))
  | ⟨.flushSync, _⟩ => some { s with wire := s.wire ++ s.outbox, outbox := [] }
  | _ => some s

/-- The callback has returned; a timeout source is gone then. -/
def returned (s : Loop) (cb : Callback) (p : Process) : Loop :=
  match cb with
  | .call serial _ => { s with process := p, running := none, handled := s.handled ++ [serial] }
  | .timeout id =>
    { s with process := p, running := none, sources := s.sources.filter (fun p => p.1 ≠ id) }

/-- A fresh process. What was queued for the old one is lost with it. -/
def restarted (s : Loop) : Loop :=
  { process := s.process.restart, clock := s.clock, nextSerial := s.nextSerial }

end Loop

inductive Label (systemdVersion : Nat) where
  | arrive (r : { r : Request // Deliverable systemdVersion r })
  | tick (microseconds : Nat)
  /-- of the queued request at this place -/
  | dispatch (i : Nat)
  | fire (id : Nat)
  | act (e : Event Ans)
  | finish
  | send

variable {systemdVersion : Nat}

def loopStep (s : Loop) : Label systemdVersion → Option Loop
  | .arrive r => some { s with
      queue := s.queue ++ [(s.nextSerial, r.1)]
      delivered := s.delivered ++ [s.nextSerial]
      nextSerial := s.nextSerial + 1 }
  | .tick d => some { s with clock := s.clock + d }
  | .dispatch i =>
    match s.running, s.queue[i]? with
    | none, some (serial, r) => some { s with
        queue := s.queue.eraseIdx i
        running := some ⟨.call serial r, .start ((r.handle systemdVersion).run s.process)⟩ }
    | _, _ => none
  | .fire id =>
    match s.running with
    | none =>
      if s.sources.any (fun p => p.1 = id ∧ p.2 ≤ s.clock) then
        some { s with running := some ⟨.timeout id, .start (exitOnInactivity.run s.process)⟩ }
      else none
    | some _ => none
  | .act e => do
    let c ← s.running
    let th ← c.thread.step e
    let s' ← s.perform c.callback e
    some { s' with running := some ⟨c.callback, th⟩ }
  | .finish =>
    match s.running with
    | some c => match c.thread.rest with
      | .ret (_, p) => some (s.returned c.callback p)
      | .halt _ => some s.restarted
      | .act _ _ => none
    | none => none
  | .send =>
    match s.outbox with
    | m :: outbox => some { s with outbox := outbox, wire := s.wire ++ [m] }
    | [] => none

/-- The loop of the first process. -/
def bootLoop : Loop := {}

/-! What each step takes and does. -/

section Steps
variable {s s' : Loop}

theorem loopStep_dispatch {i : Nat}
    (h : loopStep s (.dispatch i : Label systemdVersion) = some s') :
    ∃ serial r queue, s.running = none ∧ s.queue.Perm ((serial, r) :: queue) ∧ s' = { s with
      queue := queue
      running := some ⟨.call serial r, .start ((r.handle systemdVersion).run s.process)⟩ } := by
  simp only [loopStep] at h
  split at h
  · rename_i serial r hrun hget
    obtain ⟨hi, hget⟩ := List.getElem?_eq_some_iff.mp hget
    refine ⟨serial, r, s.queue.eraseIdx i, hrun, ?_, (Option.some.inj h).symm⟩
    rw [← hget]
    exact (List.getElem_cons_eraseIdx_perm hi).symm
  · cases h

theorem loopStep_fire {id : Nat} (h : loopStep s (.fire id : Label systemdVersion) = some s') :
    s.running = none ∧
      s' = { s with running := some ⟨.timeout id, .start (exitOnInactivity.run s.process)⟩ } := by
  simp only [loopStep] at h
  split at h
  · rename_i hrun
    exact ⟨hrun, (Option.some.inj (Option.ite_none_right_eq_some.mp h).2).symm⟩
  · cases h

/-- A source fires once its time has come. -/
theorem loopStep_expired {id : Nat} (h : loopStep s (.fire id : Label systemdVersion) = some s') :
    ∃ x ∈ s.sources, x.1 = id ∧ x.2 ≤ s.clock := by
  simp only [loopStep] at h
  split at h
  · have hany := (Option.ite_none_right_eq_some.mp h).1
    simpa only [List.any_eq_true, decide_eq_true_eq] using hany
  · cases h

theorem loopStep_act {e : Event Ans} (h : loopStep s (.act e : Label systemdVersion) = some s') :
    ∃ c th s₁, s.running = some c ∧ c.thread.step e = some th ∧
      s.perform c.callback e = some s₁ ∧ s' = { s₁ with running := some ⟨c.callback, th⟩ } := by
  simp only [loopStep, Option.bind_eq_bind, Option.bind_eq_some_iff] at h
  obtain ⟨c, hrun, th, hth, s₁, hs₁, h⟩ := h
  exact ⟨c, th, s₁, hrun, hth, hs₁, (Option.some.inj h).symm⟩

theorem loopStep_finish (h : loopStep s (.finish : Label systemdVersion) = some s') :
    ∃ c, s.running = some c ∧
      ((∃ q, c.thread.rest = .ret q ∧ s' = s.returned c.callback q.2) ∨
        ∃ x, c.thread.rest = .halt x ∧ s' = s.restarted) := by
  simp only [loopStep] at h
  split at h
  · rename_i c hrun
    refine ⟨c, hrun, ?_⟩
    split at h
    · rename_i p hret
      exact .inl ⟨_, hret, (Option.some.inj h).symm⟩
    · rename_i x hhalt
      exact .inr ⟨x, hhalt, (Option.some.inj h).symm⟩
    · cases h
  · cases h

theorem running_returned (s : Loop) (cb : Callback) (p : Process) :
    (s.returned cb p).running = none := by
  cases cb with
  | call serial r => rfl
  | timeout id => rfl

theorem loopStep_send (h : loopStep s (.send : Label systemdVersion) = some s') :
    ∃ m outbox, s.outbox = m :: outbox ∧
      s' = { s with outbox := outbox, wire := s.wire ++ [m] } := by
  simp only [loopStep] at h
  split at h
  · rename_i m outbox hout
    exact ⟨m, outbox, hout, (Option.some.inj h).symm⟩
  · cases h

end Steps

/-! What a run shows. -/

/-- The callback is about to exit, as exit_on_inactivity does. -/
def Exits (s : Loop) : Prop := ∃ c status, s.running = some c ∧ c.thread.rest = .halt (.exit status)

/-- The callback is about to end the process in another way. -/
def Crashes (s : Loop) : Prop :=
  ∃ c h, s.running = some c ∧ c.thread.rest = .halt h ∧ ∀ status, h ≠ .exit status

/-- The suspend or the hibernate command, or a write to /sys/power/state, the
only file written to. -/
def isSleepAct : Act → Bool
  | .system command => command = powerCmds .suspend || command = powerCmds .hibernate
  | .write _ _ => true
  | _ => false

/-- StartUnit of a power-off or reboot unit. -/
def StartsShutdown (r : Request) : Prop :=
  ∃ sender name rest action, r = .manager sender "StartUnit" (.string name :: rest) ∧
    unitOfName name false = some (.power action) ∧ (action = .off ∨ action = .reboot)

/-- The handler of such a call is about to return. -/
def HandlesShutdown (s : Loop) : Prop :=
  ∃ c serial r p, s.running = some c ∧ c.callback = .call serial r ∧ StartsShutdown r ∧
    c.thread.rest = .ret p

/-! What a callback does, from start to end. -/

theorem wp_exitOnInactivity (p : Process) : Proc.wp exitOnInactivity p (fun t o =>
    (p.inShutdown = true ∧ t = [] ∧ o = .ok ((), p)) ∨
    (p.inShutdown = false ∧ t = [⟨.flushSync, ()⟩] ∧ o = .error (.exit 0))) := by
  unfold exitOnInactivity
  rw [Proc.wp_bind, Proc.wp_get, Proc.andThen_ok]
  cases h : p.inShutdown with
  | true => exact .inl ⟨rfl, rfl, rfl⟩
  | false => exact fun _ => .inr ⟨rfl, rfl, rfl⟩

theorem sent_deliverable {r : Request} (h : Deliverable systemdVersion r)
    (hr : r ≠ .unit none "Abandon") : Sent 0 (r.handle systemdVersion) (fun _ => 1) := by
  have property : ∀ value, Sent 0 (returnProperty value) (fun _ => 1) := by
    intro value
    cases value with
    | some v => exact .reply rfl
    | none => exact .reply rfl
  cases h with
  | call _ h => exact sent_exported h hr
  | managerProperty propertyName =>
    exact .bind (.housekeeping (.shimGetProperty _ _)) (fun value => property value)
  | unitProperty node propertyName =>
    exact .bind (.housekeeping (.shimUnitsIntrospect _)) (fun _ =>
      .bind (.housekeeping (.shimUnitsDispatch _)) (fun _ =>
        .bind (.housekeeping (.shimUnitGetProperty _)) (fun value => property value)))
  | enumerate =>
    have h : Sent 0 shimUnitsEnumerate (fun _ => 0) := .bind (.housekeeping .hadActivity)
      (fun _ => .bind (.cgroupWork .stateListUnits) (fun _ => .pure _ rfl))
    exact .bind h (fun _ => .reply rfl)
  | introspect node => exact .bind (.housekeeping (.shimUnitsIntrospect _)) (fun _ => .reply rfl)

/-- A request that returns has been answered. -/
theorem wp_answered {r : Request} (h : Deliverable systemdVersion r) (p : Process) :
    Proc.wp (r.handle systemdVersion) p
      (fun t o => ∀ q, o = .ok q → ∃ e ∈ t, isReply e.1 = true) := by
  by_cases hr : r = .unit none "Abandon"
  · -- the request that crashes never returns
    subst hr
    apply Proc.wp_mono (wp_abandon_root systemdVersion p)
    intro t o ho q hq
    subst ho
    cases hq
  · apply Proc.wp_mono (sent_deliverable h hr p)
    intro t o h q _
    obtain ⟨_, _, rfl, ht⟩ := h
    have hone : 0 + replies t = 1 := ht
    have hpos : 0 < replies t := by omega
    exact List.countP_pos_iff.mp hpos

/-- Only the timer exits. -/
theorem wp_neverExits (r : Request) (p : Process) : Proc.wp (r.handle systemdVersion) p
    (fun _ o => ∀ status, o ≠ .error (.exit status)) := by
  have hk : Proc.Keeps (fun _ : Process => True) (fun _ => True)
      (fun h => ∀ status, h ≠ .exit status) (r.handle systemdVersion) :=
    keeps_handle (fun _ _ _ _ => trivial) (fun _ _ _ _ => trivial)
      (fun action => Proc.Footprint.keeps (PowerWork.powerUnitStart action)
        (fun _ _ _ _ => trivial) (fun _ _ => trivial))
      (fun _ _ _ => trivial) (fun _ h => h) systemdVersion r
  apply Proc.wp_mono (hk p trivial)
  intro t o h status h'
  obtain ⟨-, hend⟩ := h
  obtain rfl := h'
  exact hend status rfl

/-- Nothing but power_unit_start for another action sleeps, and that heeds the
flag; nothing clears the flag. -/
theorem keeps_shutdown (r : Request) : Proc.Keeps (fun p : Process => p.inShutdown = true)
    (fun e => isSleepAct e.1 = false) (fun h => ∀ status, h ≠ .exit status)
    (r.handle systemdVersion) := by
  refine keeps_handle (fun _ _ h hp => by rw [h]; exact hp) (fun _ _ h hp => by rw [h]; exact hp)
    (fun action => ?_) (fun e he _ => ?_) (fun _ h => h) systemdVersion r
  · refine .ite (fun h => ?_) (fun _ => .get_bind (fun p hp => ?_))
    · -- power off or reboot: another command runs
      have hcmd : isSleepAct (.system (powerCmds action)) = false := by
        rcases h with rfl | rfl <;> decide
      exact .bind (.modify (fun _ _ => rfl)) (fun _ => .bind (.act (fun _ => rfl))
        (fun _ => .bind (.act (fun _ => rfl)) (fun _ => .bind (.act (fun _ => hcmd))
          (fun _ => .pure _))))
    · -- suspend or hibernate: the flag stops it
      rw [if_pos hp]
      exact ⟨by simp, hp⟩
  · revert he
    cases e.1 <;> simp [isPowerAct, isSleepAct]

theorem wp_powerUnitStart_shutdown {action : PowerAction} (h : action = .off ∨ action = .reboot)
    (p : Process) : Proc.wp (powerUnitStart action) p
      (fun _ o => ∃ a p', o = .ok (a, p') ∧ p'.inShutdown = true) := by
  unfold powerUnitStart
  rw [if_pos h]
  exact fun _ _ _ => ⟨(), _, rfl, rfl⟩

theorem unitOfName_power {name : Bytes} {action : PowerAction}
    (h : unitOfName name false = some (.power action)) (ntp : Bool) :
    unitOfName name ntp = some (.power action) := by
  unfold unitOfName at h ⊢
  repeat' split at h
  all_goals simp_all

theorem wp_lookupUnit_power {name : Bytes} {action : PowerAction}
    (h : unitOfName name false = some (.power action)) (p : Process) :
    Proc.wp (lookupUnit name) p (fun _ o => ∃ r p', o = .ok (r, p') ∧ r = .ok (.power action)) := by
  refine Proc.wp_seq_ok (Proc.Footprint.wp (Inquiry.lookupNtp name)
    (trivial : (fun _ => True) p) (fun _ _ _ _ => trivial)) ?_
  intro t ntp p' _
  rw [unitOfName_power h ntp]
  exact ⟨_, p', rfl, rfl⟩

/-- Nothing that the program does clears the flag. -/
def KeepsFlag {α : Type} (x : ShimM α) : Prop :=
  Proc.Keeps (fun p : Process => p.inShutdown = true) (fun _ => True) (fun _ => True) x

theorem keepsFlag_act (a : Act) : KeepsFlag (act a) := .act (fun _ => trivial)

theorem keepsFlag_hadActivity : KeepsFlag hadActivity :=
  Proc.Footprint.keeps Housekeeping.hadActivity (fun _ _ h hp => by rw [h]; exact hp)
    (fun _ _ => trivial)

/-- The branch of StartUnit sets the flag before it answers. -/
theorem wp_startUnit_shutdown {sender name : Bytes} {rest : List Variant} {action : PowerAction}
    (hname : unitOfName name false = some (.power action)) (ha : action = .off ∨ action = .reboot)
    (p : Process) : Proc.wp (startUnit sender (.string name :: rest)) p
      (fun _ o => ∀ q, o = .ok q → q.2.inShutdown = true) := by
  unfold startUnit
  rw [withUnit_string]
  apply Proc.wp_seq_ok (wp_lookupUnit_power hname p)
  intro t r p' h
  subst h
  simp only [bind_assoc]
  apply Proc.wp_seq_ok (wp_powerUnitStart_shutdown ha p')
  intro t' _ p'' hp
  exact Proc.Keeps.wp_ok (.bind (keepsFlag_act _) (fun _ => .bind (keepsFlag_act _)
    (fun _ => .pure _))) hp

/-- A handled start of a power-off or reboot unit leaves the flag set. -/
theorem wp_startsShutdown {r : Request} (h : StartsShutdown r) (p : Process) :
    Proc.wp (r.handle systemdVersion) p
      (fun _ o => ∀ q, o = .ok q → q.2.inShutdown = true) := by
  obtain ⟨sender, name, rest, action, rfl, hname, ha⟩ := h
  refine Proc.wp_seq (wp_startUnit_shutdown hname ha p) ?_ (fun _ _ _ _ h => by cases h)
  intro t err p' hp
  refine Proc.Keeps.wp_ok (.bind ?_ (fun _ => keepsFlag_hadActivity)) (hp _ rfl)
  cases err with
  | none => exact .pure ()
  | some err => exact keepsFlag_act _

/-! Invariants of the loop. -/

/-- The messages of this process, sent or still to be sent. -/
def Loop.posted (s : Loop) : List Message := s.wire ++ s.outbox

/-- The serial of the request whose handler runs. -/
def Loop.inHand (s : Loop) : List Nat :=
  match s.running with
  | some ⟨.call serial _, _⟩ => [serial]
  | _ => []

/-- All that an act changes are the timers and the messages. -/
structure Performed (s : Loop) (cb : Callback) (e : Event Ans) (s' : Loop) : Prop where
  frame : s' = { s with
    sources := s'.sources, lastId := s'.lastId, outbox := s'.outbox, wire := s'.wire }
  grows : ∃ ms, s'.posted = s.posted ++ ms
  replies : ∀ serial r, cb = .call serial r → isReply e.1 = true → .reply serial ∈ s'.posted
  flushes : e.1 = .flushSync → s'.outbox = []

theorem performed_postReply (s : Loop) (cb : Callback) (a : Act) (ha : a ≠ .flushSync) (r : Ans a) :
    Performed s cb ⟨a, r⟩ (s.postReply cb) := by
  cases cb with
  | call serial req =>
    refine ⟨rfl, ⟨[.reply serial], ?_⟩, ?_, fun h => absurd h ha⟩
    · simp [Loop.posted, Loop.postReply, Loop.post]
    · intro _ _ hc _
      cases hc
      simp [Loop.posted, Loop.postReply, Loop.post]
  | timeout id =>
    exact ⟨rfl, ⟨[], by simp [Loop.posted, Loop.postReply]⟩, nofun, fun h => absurd h ha⟩

theorem performed {s s' : Loop} {cb : Callback} {e : Event Ans} (h : s.perform cb e = some s') :
    Performed s cb e s' := by
  obtain ⟨a, r⟩ := e
  cases a with
  | timeoutAdd interval =>
    simp only [Loop.perform] at h
    split at h
    · obtain rfl := Option.some.inj h
      exact ⟨rfl, ⟨[], by simp [Loop.posted]⟩, nofun, nofun⟩
    · cases h
  | getMonotonicTime =>
    simp only [Loop.perform] at h
    split at h
    · obtain rfl := Option.some.inj h
      exact ⟨rfl, ⟨[], by simp [Loop.posted]⟩, nofun, nofun⟩
    · cases h
  | returnValue value =>
    obtain rfl := Option.some.inj h
    exact performed_postReply s cb (.returnValue value) nofun r
  | returnGError error =>
    obtain rfl := Option.some.inj h
    exact performed_postReply s cb (.returnGError error) nofun r
  | emitSignal destination name value =>
    obtain rfl := Option.some.inj h
    exact ⟨rfl, ⟨[.signal name], by simp [Loop.posted, Loop.post]⟩, nofun, nofun⟩
  | flushSync =>
    obtain rfl := Option.some.inj h
    exact ⟨rfl, ⟨[], by simp [Loop.posted]⟩, nofun, fun _ => rfl⟩
  | sourceRemove id =>
    obtain rfl := Option.some.inj h
    exact ⟨rfl, ⟨[], by simp [Loop.posted]⟩, nofun, nofun⟩
  | _ =>
    obtain rfl := Option.some.inj h
    exact ⟨rfl, ⟨[], by simp [Loop.posted]⟩, nofun, nofun⟩

/-- What the run of a callback comes to. -/
def RunSpec : Callback → ShimTrace → Except Halt (Unit × Process) → Prop
  | .call _ r, t, o => (∀ status, o ≠ .error (.exit status)) ∧
      ∀ q, o = .ok q → (∃ e ∈ t, isReply e.1 = true) ∧ (StartsShutdown r → q.2.inShutdown = true)
  | .timeout _, t, o =>
      (t = [] ∧ ∃ q, o = .ok q) ∨ (t = [⟨.flushSync, ()⟩] ∧ ∃ status, o = .error (.exit status))

/-- A callback under way. -/
structure Loop.Good (s : Loop) (c : Running) : Prop where
  spec : c.thread.wp (RunSpec c.callback)
  told : ∀ serial r, c.callback = .call serial r → (∃ e ∈ c.thread.sofar, isReply e.1 = true) →
    .reply serial ∈ s.posted
  flushed : ∀ id, c.callback = .timeout id → c.thread.sofar ≠ [] → s.outbox = []

structure Loop.Inv (systemdVersion : Nat) (s : Loop) : Prop where
  /-- in some order -/
  whole : s.delivered.Perm (s.handled ++ s.inHand ++ s.queue.map Prod.fst)
  fresh : s.delivered.Nodup ∧ ∀ serial ∈ s.delivered, serial < s.nextSerial
  replied : ∀ serial ∈ s.handled, .reply serial ∈ s.posted
  queued : ∀ x ∈ s.queue, Deliverable systemdVersion x.2
  good : ∀ c, s.running = some c → s.Good c

theorem inv_boot : bootLoop.Inv systemdVersion :=
  ⟨.refl _, by simp [bootLoop], by simp [bootLoop], by simp [bootLoop], nofun⟩

theorem good_dispatch {s : Loop} {serial : Nat} {r : Request} (hr : Deliverable systemdVersion r) :
    s.Good ⟨.call serial r, .start ((r.handle systemdVersion).run s.process)⟩ := by
  refine ⟨?_, fun _ _ _ h => by simp [Thread.start] at h, nofun⟩
  by_cases hs : StartsShutdown r
  · refine Prog.wp_mono (Prog.wp_and (wp_neverExits r s.process) (Prog.wp_and
      (wp_answered hr s.process) (wp_startsShutdown hs s.process))) ?_
    intro t o h
    obtain ⟨hx, ha, hd⟩ := h
    exact ⟨hx, fun q hq => ⟨ha q hq, fun _ => hd q hq⟩⟩
  · apply Prog.wp_mono (Prog.wp_and (wp_neverExits r s.process) (wp_answered hr s.process))
    intro t o h
    obtain ⟨hx, ha⟩ := h
    exact ⟨hx, fun q hq => ⟨ha q hq, fun h => absurd h hs⟩⟩

theorem good_fire {s : Loop} {id : Nat} :
    s.Good ⟨.timeout id, .start (exitOnInactivity.run s.process)⟩ := by
  refine ⟨?_, nofun, fun _ _ h => absurd rfl h⟩
  apply Prog.wp_mono (wp_exitOnInactivity s.process)
  intro t o h
  obtain ⟨-, rfl, rfl⟩ | ⟨-, rfl, rfl⟩ := h
  · exact .inl ⟨rfl, _, rfl⟩
  · exact .inr ⟨rfl, _, rfl⟩

/-- The one act of the timeout callback is its flush. -/
theorem flush_of_spec {id : Nat} {t : ShimTrace} {e : Event Ans}
    {rest : Prog Act Ans Halt (Unit × Process)}
    (h : Thread.wp ⟨t ++ [e], rest⟩ (RunSpec (.timeout id))) : e.1 = .flushSync := by
  obtain ⟨t', o, ho⟩ := Prog.wp_exists h
  rcases ho with ⟨ht, -⟩ | ⟨ht, -⟩
  · simp at ht
  · have he : e ∈ ([⟨.flushSync, ()⟩] : ShimTrace) := ht ▸ (by simp)
    rw [List.mem_singleton.mp he]

theorem good_act {s s₁ : Loop} {c : Running} {e : Event Ans}
    {th : Thread Act Ans Halt (Unit × Process)} (hg : s.Good c) (hth : c.thread.step e = some th)
    (hp : Performed s c.callback e s₁) : s₁.Good ⟨c.callback, th⟩ := by
  have hspec := Thread.wp_step hg.spec hth
  obtain ⟨k, -, rfl⟩ := Thread.step_cases hth
  obtain ⟨ms, hms⟩ := hp.grows
  refine ⟨hspec, ?_, ?_⟩
  · intro serial r hc h
    obtain ⟨e', he', hreply⟩ := h
    rcases List.mem_append.mp he' with he' | he'
    · rw [hms]
      exact List.mem_append_left _ (hg.told serial r hc ⟨e', he', hreply⟩)
    · rw [List.mem_singleton.mp he'] at hreply
      exact hp.replies serial r hc hreply
  · intro id hc _
    have hc : c.callback = .timeout id := hc
    rw [hc] at hspec
    exact hp.flushes (flush_of_spec hspec)

/-- A handler that returns has posted its reply. -/
theorem inv_returned {s : Loop} {c : Running} {q : Unit × Process} (hi : s.Inv systemdVersion)
    (hrun : s.running = some c) (hg : s.Good c) (hret : c.thread.rest = .ret q) :
    (s.returned c.callback q.2).Inv systemdVersion := by
  obtain ⟨cb, th⟩ := c
  have hspec : RunSpec cb th.sofar (.ok q) := Thread.wp_ret hg.spec hret
  cases cb with
  | call serial r =>
    refine ⟨?_, hi.fresh, ?_, hi.queued, nofun⟩
    · have hinHand : s.inHand = [serial] := by simp [Loop.inHand, hrun]
      have hwhole := hi.whole
      rw [hinHand] at hwhole
      simpa [Loop.inHand, Loop.returned] using hwhole
    · intro n hn
      rcases List.mem_append.mp hn with hn | hn
      · exact hi.replied n hn
      · rw [List.mem_singleton.mp hn]
        exact hg.told serial r rfl (hspec.2 q rfl).1
  | timeout id =>
    refine ⟨?_, hi.fresh, hi.replied, hi.queued, nofun⟩
    have hwhole := hi.whole
    rwa [show s.inHand = [] by simp [Loop.inHand, hrun]] at hwhole

theorem inv_arrive {s : Loop} (hi : s.Inv systemdVersion)
    (r : { r : Request // Deliverable systemdVersion r }) :
    ({ s with
      queue := s.queue ++ [(s.nextSerial, r.1)]
      delivered := s.delivered ++ [s.nextSerial]
      nextSerial := s.nextSerial + 1 } : Loop).Inv systemdVersion := by
  refine ⟨?_, ⟨?_, ?_⟩, hi.replied, ?_,
    fun c hc => ⟨(hi.good c hc).spec, (hi.good c hc).told, (hi.good c hc).flushed⟩⟩
  · show (s.delivered ++ [s.nextSerial]).Perm
      (s.handled ++ s.inHand ++ (s.queue ++ [(s.nextSerial, r.1)]).map Prod.fst)
    rw [List.map_append, ← List.append_assoc]
    exact hi.whole.append_right _
  · refine List.nodup_append.mpr ⟨hi.fresh.1, by simp, ?_⟩
    intro n hn m hm
    rw [List.mem_singleton.mp hm]
    exact (hi.fresh.2 n hn).ne
  · intro n hn
    obtain hn | hn := List.mem_append.mp hn
    · exact (hi.fresh.2 n hn).trans (Nat.lt_succ_self _)
    · rw [List.mem_singleton.mp hn]
      exact Nat.lt_succ_self _
  · intro x hx
    obtain hx | hx := List.mem_append.mp hx
    · exact hi.queued x hx
    · rw [List.mem_singleton.mp hx]
      exact r.2

/-- An act leaves the queue and what has been handled alone. -/
theorem inv_performed {s s₁ : Loop} {c : Running} {e : Event Ans}
    {th : Thread Act Ans Halt (Unit × Process)} (hi : s.Inv systemdVersion)
    (hrun : s.running = some c) (hth : c.thread.step e = some th)
    (hp : Performed s c.callback e s₁) :
    ({ s₁ with running := some ⟨c.callback, th⟩ } : Loop).Inv systemdVersion := by
  have hg := good_act (hi.good c hrun) hth hp
  obtain ⟨ms, hms⟩ := hp.grows
  obtain ⟨hdelivered, hhandled, hqueue⟩ :
      s₁.delivered = s.delivered ∧ s₁.handled = s.handled ∧ s₁.queue = s.queue := by
    rw [hp.frame]; exact ⟨rfl, rfl, rfl⟩
  refine ⟨?_, ?_, ?_, fun x hx => hi.queued x (hqueue ▸ hx), ?_⟩
  · have hinHand : s.inHand = ({ s₁ with running := some ⟨c.callback, th⟩ } : Loop).inHand := by
      obtain ⟨cb, _⟩ := c
      cases cb <;> simp [Loop.inHand, hrun]
    rw [← hinHand]
    show s₁.delivered.Perm (s₁.handled ++ s.inHand ++ s₁.queue.map Prod.fst)
    rw [hdelivered, hhandled, hqueue]
    exact hi.whole
  · rw [hp.frame]
    exact hi.fresh
  · intro serial hm
    show .reply serial ∈ s₁.posted
    rw [hms]
    exact List.mem_append_left _ (hi.replied serial (hhandled ▸ hm))
  · intro c' hc
    obtain rfl := Option.some.inj hc
    exact ⟨hg.spec, hg.told, hg.flushed⟩

theorem inv_sent {s : Loop} {m : Message} {outbox : List Message} (hi : s.Inv systemdVersion)
    (ho : s.outbox = m :: outbox) :
    ({ s with outbox := outbox, wire := s.wire ++ [m] } : Loop).Inv systemdVersion := by
  have hposted : ({ s with outbox := outbox, wire := s.wire ++ [m] } : Loop).posted = s.posted := by
    simp [Loop.posted, ho]
  refine ⟨hi.whole, hi.fresh, ?_, hi.queued, fun c hc => ⟨(hi.good c hc).spec, ?_, ?_⟩⟩
  · rw [hposted]; exact hi.replied
  · rw [hposted]; exact (hi.good c hc).told
  · intro id hid hne
    have := (hi.good c hc).flushed id hid hne
    rw [ho] at this
    cases this

theorem inv_step {s s' : Loop} {l : Label systemdVersion} (hi : s.Inv systemdVersion)
    (hs : loopStep s l = some s') : s'.Inv systemdVersion := by
  cases l with
  | arrive r =>
    obtain rfl := Option.some.inj hs
    exact inv_arrive hi r
  | tick d =>
    obtain rfl := Option.some.inj hs
    exact ⟨hi.whole, hi.fresh, hi.replied, hi.queued,
      fun c hc => ⟨(hi.good c hc).spec, (hi.good c hc).told, (hi.good c hc).flushed⟩⟩
  | dispatch i =>
    obtain ⟨serial, r, queue, hrun, hq, rfl⟩ := loopStep_dispatch hs
    refine ⟨?_, hi.fresh, hi.replied,
      fun x hx => hi.queued x (hq.mem_iff.mpr (List.mem_cons_of_mem _ hx)), ?_⟩
    · show s.delivered.Perm (s.handled ++ [serial] ++ queue.map Prod.fst)
      have hwhole := hi.whole
      rw [show s.inHand = [] by simp [Loop.inHand, hrun], List.append_nil] at hwhole
      rw [List.append_assoc]
      exact hwhole.trans ((hq.map Prod.fst).append_left s.handled)
    · intro c hc
      obtain rfl := Option.some.inj hc
      have hr := hi.queued (serial, r) (hq.mem_iff.mpr List.mem_cons_self)
      exact ⟨(good_dispatch hr).spec, fun _ _ _ h => by simp [Thread.start] at h, nofun⟩
  | fire id =>
    obtain ⟨hrun, rfl⟩ := loopStep_fire hs
    refine ⟨?_, hi.fresh, hi.replied, hi.queued, ?_⟩
    · have hwhole := hi.whole
      rwa [show s.inHand = [] by simp [Loop.inHand, hrun]] at hwhole
    · intro c hc
      obtain rfl := Option.some.inj hc
      exact ⟨good_fire.spec, nofun, fun _ _ h => absurd rfl h⟩
  | act e =>
    obtain ⟨c, th, s₁, hrun, hth, hp, rfl⟩ := loopStep_act hs
    exact inv_performed hi hrun hth (performed hp)
  | finish =>
    obtain ⟨c, hrun, ⟨q, hret, rfl⟩ | ⟨x, -, rfl⟩⟩ := loopStep_finish hs
    · exact inv_returned hi hrun (hi.good c hrun) hret
    · -- a fresh process has no request yet
      exact ⟨.refl _, by simp [Loop.restarted], by simp [Loop.restarted], by simp [Loop.restarted],
        nofun⟩
  | send =>
    obtain ⟨m, outbox, ho, rfl⟩ := loopStep_send hs
    exact inv_sent hi ho

theorem inv_run (ls : List (Label systemdVersion)) (s : Loop)
    (hrun : Runs.run loopStep bootLoop ls = some s) : s.Inv systemdVersion :=
  Runs.run_invariant inv_boot (fun _ _ _ => inv_step) ls s hrun

end Shim
