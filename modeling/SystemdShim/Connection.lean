import SystemdShim.CachedVirt
import SystemdShim.Lib.Implement
import SystemdShim.Lib.Machine

/- cgmanager.c under its functions: the private connection to cgmanager, the call
   that goes over it, and what main does with it before any request. Over a
   process's life the socket sees one of three things: nothing; a handshake that
   fails, and nothing more; or one that succeeds, and the calls (`SocketLog`). -/
namespace Shim
open Effects

namespace Sys

def cgmRequiredVersion : Int32 := 8

/-- Whether there is a connection. -/
def cgmanagerConnect : SysM Bool := do
  if ← sys .connect then
    match ← sys .getApiVersion with
    | none => pure false
    | some .otherType => pure false
    | some (.int32 n) => pure (!(n < cgmRequiredVersion))
  else pure false

/-- The first call connects, and no call after it does. -/
def initialise : SysM Unit := do
  if (← get).initialised then pure ()
  else do
    let connection ← cgmanagerConnect
    modify (fun s => { s with connection := connection, initialised := true })

def cgmanagerCall (m : CgMethod) : SysM (Option m.Reply) := do
  initialise
  if (← get).connection then sys (.callSync m) else pure none

/-- LIBEXECDIR "/systemd-shim-cgroup-release-agent" -/
def releaseAgentPath (libexecdir : Bytes) : Bytes :=
  libexecdir ++ ascii "/systemd-shim-cgroup-release-agent"

def releaseAgentKey : Bytes := ascii "release_agent"

/-- `need_agent`, from the reply to GetValue. -/
def needAgent : Option Bytes → Bool
  | some str => str.length < 1
  | none => true

theorem needAgent_iff (value : Option Bytes) :
    needAgent value = true ↔ value = none ∨ value = some [] := by
  cases value with
  | none => simp [needAgent]
  | some str => cases str <;> simp [needAgent]

def cgmanagerMoveSelf (libexecdir : Bytes) : SysM Unit := do
  let pid ← sys .getpid
  let _ ← cgmanagerCall (.movePidAbs (ascii "all") (ascii "/") pid)
  let str ← cgmanagerCall (.getValue (ascii "systemd") (ascii "/") releaseAgentKey)
  if !needAgent str then pure ()
  else do
    let _ ← cgmanagerCall (.ofCall (.setValue (ascii "systemd") (ascii "/") releaseAgentKey
      (releaseAgentPath libexecdir)))

/-- The act of the property read: `id` starts as "". -/
def virtualizationId : SysM Bytes := do
  let (_, id) ← detectVirtualization (some [])
  match id with
  | some id => pure id
  | none => Proc.halt (.shim .nullString)

/-- The shim's acts, the two of them that are programs taken apart. -/
def impl : (a : Act) → SysM (Ans a)
  | .cgmanagerCall c => cgmanagerCall (.ofCall c)
  | .detectVirtualization => virtualizationId
  | a => sys (.shim a)

end Sys

/-! What goes over the socket. -/

def isSocketAct : SysAct → Bool
  | .connect => true
  | .getApiVersion => true
  | .callSync _ => true
  | _ => false

def socket (T : SysTrace) : SysTrace := T.filter (fun e => isSocketAct e.1)

@[simp] theorem socket_append (T T' : SysTrace) : socket (T ++ T') = socket T ++ socket T' :=
  List.filter_append ..

/-- The answer to the version request that the shim accepts. -/
def accepted : Option Version → Bool
  | some (.int32 n) => !(n < Sys.cgmRequiredVersion)
  | _ => false

def isCallSync : SysAct → Bool
  | .callSync _ => true
  | _ => false

/-- All that the socket has seen, and what the statics hold after it. -/
inductive SocketLog : Statics → SysTrace → Prop
  | silent {s : Statics} (h : s.initialised = false) (hc : s.connection = false) : SocketLog s []
  | refused {s : Statics} (h : s.initialised = true) (hc : s.connection = false) :
      SocketLog s [⟨.connect, false⟩]
  | outdated {s : Statics} (h : s.initialised = true) (hc : s.connection = false)
      {version : Option Version} (hv : accepted version = false) :
      SocketLog s [⟨.connect, true⟩, ⟨.getApiVersion, version⟩]
  | connected {s : Statics} (h : s.initialised = true) (hc : s.connection = true)
      {version : Option Version} (hv : accepted version = true) {calls : SysTrace}
      (hcalls : ∀ e ∈ calls, isCallSync e.1 = true) :
      SocketLog s (⟨.connect, true⟩ :: ⟨.getApiVersion, version⟩ :: calls)

/-- The statics of cgmanager_call alone matter. -/
theorem SocketLog.congr {s s' : Statics} {L : SysTrace} (h : SocketLog s L)
    (hi : s'.initialised = s.initialised) (hc : s'.connection = s.connection) :
    SocketLog s' L := by
  cases h with
  | silent h h' => exact .silent (hi.trans h) (hc.trans h')
  | refused h h' => exact .refused (hi.trans h) (hc.trans h')
  | outdated h h' hv => exact .outdated (hi.trans h) (hc.trans h') hv
  | connected h h' hv hcalls => exact .connected (hi.trans h) (hc.trans h') hv hcalls

/-- One more call over the connection. -/
theorem SocketLog.call {s : Statics} {L : SysTrace} (h : SocketLog s L)
    (hc : s.connection = true) (m : CgMethod) (r : Option m.Reply) :
    SocketLog s (L ++ [⟨.callSync m, r⟩]) := by
  cases h with
  | silent _ h => exact absurd (h.symm.trans hc) Bool.false_ne_true
  | refused _ h => exact absurd (h.symm.trans hc) Bool.false_ne_true
  | outdated _ h => exact absurd (h.symm.trans hc) Bool.false_ne_true
  | connected h h' hv hcalls =>
    refine .connected h h' hv (List.forall_mem_append.mpr ⟨hcalls, ?_⟩)
    rw [List.forall_mem_singleton]
    rfl

/-- A call that was made, and what came back. -/
abbrev Exchange := (m : CgMethod) × Option m.Reply

/-- The calls that went over the socket. -/
def sent (T : SysTrace) : List Exchange :=
  T.filterMap (fun e => match e with
    | ⟨.callSync m, r⟩ => some ⟨m, r⟩
    | _ => none)

@[simp] theorem sent_append (T T' : SysTrace) : sent (T ++ T') = sent T ++ sent T' :=
  List.filterMap_append ..

namespace Sys
variable {s : Statics} {L : SysTrace}

/-- What cgmanager_connect says over a fresh socket. -/
theorem wp_cgmanagerConnect (s : Statics) : cgmanagerConnect.wp s (fun T o => ∃ b s',
    o = .ok (b, s') ∧ s' = s ∧ sent T = [] ∧ (∀ e ∈ T, isSocketAct e.1 = true) ∧
      ∀ s'' : Statics, s''.initialised = true → s''.connection = b →
        SocketLog s'' (socket T)) := by
  unfold cgmanagerConnect
  rw [Proc.wp_bind, wp_sys]
  intro b
  rw [Proc.andThen_ok]
  cases b with
  | false => exact ⟨false, s, rfl, rfl, rfl, by simp [isSocketAct], fun _ h hc => .refused h hc⟩
  | true =>
    simp only [if_true]
    rw [Proc.wp_bind, wp_sys]
    intro version
    rw [Proc.andThen_ok]
    rcases version with _ | n | _
    · exact ⟨false, s, rfl, rfl, rfl, by simp [isSocketAct], fun _ h hc => .outdated h hc rfl⟩
    · refine ⟨_, s, rfl, rfl, rfl, by simp [isSocketAct], ?_⟩
      intro s'' h hc
      cases hn : accepted (some (.int32 n)) with
      | true => exact .connected h (hc.trans hn) hn (by simp)
      | false => exact .outdated h (hc.trans hn) hn
    · exact ⟨false, s, rfl, rfl, rfl, by simp [isSocketAct], fun _ h hc => .outdated h hc rfl⟩

/-- Only the statics of cgmanager_call are others. -/
def SameVirt (s s' : Statics) : Prop :=
  s'.cachedVirt = s.cachedVirt ∧ s'.cachedId = s.cachedId

/-- After `initialise`: the connection has been tried for, now or before. -/
theorem wp_initialise (hL : SocketLog s L) : initialise.wp s (fun T o => ∃ u s',
    o = .ok (u, s') ∧ SocketLog s' (L ++ socket T) ∧ s'.initialised = true ∧ sent T = [] ∧
      (∀ e ∈ T, isSocketAct e.1 = true) ∧ SameVirt s s' ∧ (s.initialised = true → s' = s)) := by
  unfold initialise
  rw [Proc.wp_bind, Proc.wp_get, Proc.andThen_ok]
  dsimp only
  split
  · rename_i h
    exact ⟨(), s, rfl, by simpa [socket] using hL, h, rfl, by simp, ⟨rfl, rfl⟩, fun _ => rfl⟩
  · rename_i h
    apply Proc.wp_seq_ok (wp_cgmanagerConnect s)
    intro T b s' hb
    obtain ⟨rfl, hsent, honly, hlog⟩ := hb
    have hnil : L = [] := by
      cases hL with
      | silent => rfl
      | refused h' => exact absurd h' h
      | outdated h' => exact absurd h' h
      | connected h' => exact absurd h' h
    subst hnil
    refine ⟨(), _, rfl, ?_, rfl, by simpa using hsent, by simpa using honly, ⟨rfl, rfl⟩,
      fun h' => absurd h' h⟩
    simpa using hlog _ rfl rfl

/-- A call: it is made exactly where there is a connection. -/
structure CallSpec (s : Statics) (L : SysTrace) (m : CgMethod) (T : SysTrace)
    (r : Option m.Reply) (s' : Statics) : Prop where
  log : SocketLog s' (L ++ socket T)
  initialised : s'.initialised = true
  only : ∀ e ∈ T, isSocketAct e.1 = true
  virt : SameVirt s s'
  settled : s.initialised = true → s' = s
  made : s'.connection = true → sent T = [⟨m, r⟩]
  dropped : s'.connection = false → sent T = [] ∧ r = none

theorem wp_cgmanagerCall (hL : SocketLog s L) (m : CgMethod) : (cgmanagerCall m).wp s
    (fun T o => ∃ r s', o = .ok (r, s') ∧ CallSpec s L m T r s') := by
  unfold cgmanagerCall
  apply Proc.wp_seq_ok (wp_initialise hL)
  intro T _ s' h
  obtain ⟨hlog, hinit, hsent, honly, hvirt, hsettled⟩ := h
  rw [Proc.wp_bind, Proc.wp_get, Proc.andThen_ok]
  dsimp only
  cases hc : s'.connection with
  | false =>
    refine ⟨none, s', rfl, ?_, hinit, by simpa using honly, hvirt, hsettled, ?_, ?_⟩
    · simpa using hlog
    · intro h
      rw [hc] at h
      cases h
    · intro _
      exact ⟨by simpa using hsent, rfl⟩
  | true =>
    simp only [if_true]
    intro r
    have honly' : ∀ e ∈ T ++ [⟨.callSync m, r⟩], isSocketAct e.1 = true :=
      List.forall_mem_append.mpr ⟨honly, by simp [isSocketAct]⟩
    refine ⟨r, s', rfl, ?_, hinit, honly', hvirt, hsettled, ?_, ?_⟩
    · simp only [List.nil_append, socket_append, ← List.append_assoc]
      exact hlog.call hc m r
    · intro _
      simp only [List.nil_append, sent_append, hsent]
      rfl
    · intro h
      rw [hc] at h
      cases h

/-! cgmanager_move_self. -/

def getAgent : CgMethod := .getValue (ascii "systemd") (ascii "/") releaseAgentKey

def setAgent (libexecdir : Bytes) : CgMethod :=
  .ofCall (.setValue (ascii "systemd") (ascii "/") releaseAgentKey (releaseAgentPath libexecdir))

/-- What goes over the connection before any request: the agent is set where it
could not be read, or was read to be empty. -/
def MovesSelf (libexecdir : Bytes) (calls : List Exchange) : Prop :=
  ∃ pid moved value, (value ≠ none ∧ value ≠ some [] ∧
      calls = [⟨.movePidAbs (ascii "all") (ascii "/") pid, moved⟩, ⟨getAgent, value⟩]) ∨
    ((value = none ∨ value = some []) ∧ ∃ set,
      calls = [⟨.movePidAbs (ascii "all") (ascii "/") pid, moved⟩, ⟨getAgent, value⟩,
        ⟨setAgent libexecdir, set⟩])

structure MoveSelfSpec (libexecdir : Bytes) (T : SysTrace) (s : Statics) : Prop where
  log : SocketLog s (socket T)
  initialised : s.initialised = true
  virt : SameVirt {} s
  connected : s.connection = true → MovesSelf libexecdir (sent T)
  dropped : s.connection = false → sent T = []

theorem wp_cgmanagerMoveSelf (libexecdir : Bytes) : (cgmanagerMoveSelf libexecdir).wp {}
    (fun T o => ∃ u s', o = .ok (u, s') ∧ MoveSelfSpec libexecdir T s') := by
  unfold cgmanagerMoveSelf
  rw [Proc.wp_bind, wp_sys]
  intro pid
  rw [Proc.andThen_ok]
  apply Proc.wp_seq_ok (wp_cgmanagerCall (.silent rfl rfl) _)
  intro T₁ moved s₁ h₁
  apply Proc.wp_seq_ok (wp_cgmanagerCall h₁.log _)
  intro T₂ value s₂ h₂
  obtain rfl := h₂.settled h₁.initialised
  have hlog : SocketLog s₂ (socket (⟨.getpid, pid⟩ :: (T₁ ++ T₂))) := by
    have := h₂.log
    rwa [List.nil_append, ← socket_append] at this
  cases hvalue : needAgent value with
  | true =>
    -- the agent is set
    rw [if_neg (by simp)]
    apply Proc.wp_seq_ok (wp_cgmanagerCall hlog _)
    intro T₃ set s₃ h₃
    obtain rfl := h₃.settled h₁.initialised
    refine ⟨(), s₃, rfl, ?_, h₁.initialised, h₁.virt, ?_, ?_⟩
    · have := h₃.log
      rw [← socket_append, List.cons_append, List.append_assoc] at this
      simpa only [List.cons_append, List.nil_append, List.append_nil] using this
    · intro hc
      refine ⟨pid, moved, value, .inr ⟨(needAgent_iff value).mp hvalue, set, ?_⟩⟩
      simp only [sent_append, h₁.made hc, h₂.made hc, h₃.made hc]
      rfl
    · intro hc
      simp only [sent_append, (h₁.dropped hc).1, (h₂.dropped hc).1, (h₃.dropped hc).1]
      rfl
  | false =>
    have hkept : ¬ (value = none ∨ value = some []) :=
      fun h => Bool.false_ne_true (hvalue.symm.trans ((needAgent_iff value).mpr h))
    rw [not_or] at hkept
    rw [if_pos (by simp)]
    refine ⟨(), s₂, rfl, ?_, h₁.initialised, h₁.virt, ?_, ?_⟩
    · simpa using hlog
    · intro hc
      refine ⟨pid, moved, value, .inl ⟨hkept.1, hkept.2, ?_⟩⟩
      simp only [sent_append, h₁.made hc, h₂.made hc]
      rfl
    · intro hc
      simp only [sent_append, (h₁.dropped hc).1, (h₂.dropped hc).1]
      rfl

end Sys

/-- cgmanager_move_self, the first thing a process does, has run. -/
def MovedSelf (libexecdir : Bytes) (T : SysTrace) (s : Statics) : Prop :=
  ((Sys.cgmanagerMoveSelf libexecdir).run {}).replay T = some (.ok ((), s))

theorem MovedSelf.spec {libexecdir : Bytes} {T : SysTrace} {s : Statics}
    (h : MovedSelf libexecdir T s) : Sys.MoveSelfSpec libexecdir T s := by
  obtain ⟨_, _, he, hspec⟩ :=
    (Prog.wp_iff_replay _ _).mp (Sys.wp_cgmanagerMoveSelf libexecdir) _ _ h
  obtain ⟨rfl, rfl⟩ := Prod.mk.inj (Except.ok.inj he)
  exact hspec

/-! The release agent of the systemd hierarchy, as process after process starts. -/

/-- The start of a process, of a build with its own LIBEXECDIR, and what cgmanager
does in it: whether it takes the connection, the version it gives, and whether it
carries out MovePidAbs, GetValue and SetValue. -/
structure Boot where
  libexecdir : Bytes
  pid : Nat
  connects : Bool
  version : Option Version
  moves : Bool
  readable : Bool
  accepts : Bool

def isAgentFile (controller path key : Bytes) : Bool :=
  controller == ascii "systemd" && path == ascii "/" && key == Sys.releaseAgentKey

/-- A read that succeeds gives the agent that is set. -/
def Boot.answers (b : Boot) (agent : Bytes) : (a : SysAct) → SysAns a
  | .getpid => b.pid
  | .connect => b.connects
  | .getApiVersion => b.version
  | .callSync (.movePidAbs _ _ _) => if b.moves then some () else none
  | .callSync (.getValue controller path key) =>
    if b.readable && isAgentFile controller path key then some agent else none
  | .callSync (.ofCall (.setValue _ _ _ _)) => if b.accepts then some () else none
  | a => bareHost [] a

/-- cgmanager_move_self, on a machine with this agent. -/
def Boot.trace (b : Boot) (agent : Bytes) : SysTrace :=
  (((Sys.cgmanagerMoveSelf b.libexecdir).run {}).exec (b.answers agent)).1

/-- The agent after a call. -/
def agentAfter (agent : Bytes) : Exchange → Bytes
  | ⟨.ofCall (.setValue controller path key value), some _⟩ =>
    if isAgentFile controller path key then value else agent
  | _ => agent

def agentOf (agent : Bytes) (b : Boot) : Bytes := (sent (b.trace agent)).foldl agentAfter agent

/-- The SetValue calls of a start. -/
def attempts (T : SysTrace) : List CgMethod :=
  ((sent T).map Sigma.fst).filter (fun m => match m with
    | .ofCall (.setValue _ _ _ _) => true
    | _ => false)

/-- It has a connection, as cgmanager_connect sees it. -/
def Boot.connected (b : Boot) : Bool := b.connects && accepted b.version

/-- It can set the agent. -/
def Boot.canSet (b : Boot) : Bool := b.connected && b.accepts

theorem isAgentFile_self :
    isAgentFile (ascii "systemd") (ascii "/") Sys.releaseAgentKey = true := by
  decide

theorem answers_getAgent (b : Boot) (agent : Bytes) :
    b.answers agent (.callSync Sys.getAgent) = if b.readable then some agent else none := by
  simp only [Sys.getAgent, Boot.answers, isAgentFile_self, Bool.and_true]

theorem agentAfter_set (agent libexecdir : Bytes) (r : Option Unit) :
    agentAfter agent ⟨Sys.setAgent libexecdir, r⟩ =
      if r.isSome then Sys.releaseAgentPath libexecdir else agent := by
  cases r with
  | none => rfl
  | some u => simp only [Sys.setAgent, agentAfter, isAgentFile_self, if_true, Option.isSome_some]

theorem releaseAgentPath_ne (libexecdir : Bytes) : Sys.releaseAgentPath libexecdir ≠ [] := by
  unfold Sys.releaseAgentPath
  rw [Ne, List.append_eq_nil_iff]
  intro h
  cases h.2

/-- The statics that cgmanager_move_self leaves. -/
theorem movedSelf_trace (b : Boot) (agent : Bytes) :
    ∃ s, MovedSelf b.libexecdir (b.trace agent) s := by
  have hreplay := Prog.replay_exec (b.answers agent) ((Sys.cgmanagerMoveSelf b.libexecdir).run {})
  obtain ⟨_, s, ho, -⟩ :=
    (Prog.wp_iff_replay _ _).mp (Sys.wp_cgmanagerMoveSelf b.libexecdir) _ _ hreplay
  rw [ho] at hreplay
  exact ⟨s, hreplay⟩

/-- The handshake says whether there is a connection. -/
theorem connection_iff {b : Boot} {agent : Bytes} {s : Statics}
    (h : SocketLog s (socket (b.trace agent))) (hi : s.initialised = true) :
    s.connection = b.connected := by
  have answered : ∀ {a : SysAct} {r : SysAns a}, ⟨a, r⟩ ∈ socket (b.trace agent) →
      r = b.answers agent a := fun hm => Prog.mem_exec (List.mem_of_mem_filter hm)
  generalize socket (b.trace agent) = L at h answered
  cases h with
  | silent h => cases hi.symm.trans h
  | refused _ hc =>
    have hconnect : false = b.connects := answered (a := .connect) (List.mem_singleton_self _)
    rw [hc, Boot.connected, ← hconnect]
    rfl
  | @outdated _ hc version hv =>
    have hversion : version = b.version := answered (a := .getApiVersion) (by simp)
    rw [hc, Boot.connected, ← hversion, hv, Bool.and_false]
  | @connected _ hc version hv calls _ =>
    have hconnect : true = b.connects := answered (a := .connect) (by simp)
    have hversion : version = b.version := answered (a := .getApiVersion) (by simp)
    rw [hc, Boot.connected, ← hconnect, ← hversion, hv]
    rfl

/-- The replies are cgmanager's. -/
theorem answered_of_sent {b : Boot} {agent : Bytes} {m : CgMethod} {r : Option m.Reply}
    (h : ⟨m, r⟩ ∈ sent (b.trace agent)) : r = b.answers agent (.callSync m) := by
  obtain ⟨⟨a, r'⟩, he, hcall⟩ := List.mem_filterMap.mp h
  cases a with
  | callSync m' =>
    obtain ⟨rfl, hr⟩ := Sigma.mk.inj (Option.some.inj hcall)
    exact (eq_of_heq hr).symm.trans (Prog.mem_exec he)
  | _ => cases hcall

/-- What a start reads as the agent. -/
theorem getAgent_of_sent {b : Boot} {agent : Bytes} {value : Option Bytes}
    (h : ⟨Sys.getAgent, value⟩ ∈ sent (b.trace agent)) :
    value = if b.readable then some agent else none :=
  (answered_of_sent (m := Sys.getAgent) h).trans (answers_getAgent b agent)

/-- Whether cgmanager accepts the start's own. -/
theorem setAgent_of_sent {b : Boot} (agent : Bytes) {set : Option Unit}
    (h : ⟨Sys.setAgent b.libexecdir, set⟩ ∈ sent (b.trace agent)) :
    set = if b.accepts then some () else none :=
  answered_of_sent (m := Sys.setAgent b.libexecdir) h

/-- A start tries to set its own agent exactly where it has a connection over which
it reads none; then that is the agent, if cgmanager accepts. -/
theorem boot_spec (b : Boot) (agent : Bytes) :
    attempts (b.trace agent) =
      (if b.connected = true ∧ (b.readable = false ∨ agent = []) then [Sys.setAgent b.libexecdir]
        else []) ∧
    agentOf agent b =
      (if b.canSet = true ∧ (b.readable = false ∨ agent = []) then
        Sys.releaseAgentPath b.libexecdir
      else agent) := by
  obtain ⟨s, hmoved⟩ := movedSelf_trace b agent
  have hspec := hmoved.spec
  have hconnected := connection_iff hspec.log hspec.initialised
  unfold agentOf attempts Boot.canSet
  cases hc : s.connection with
  | false =>
    rw [hspec.dropped hc, ← hconnected, hc]
    simp
  | true =>
    rw [← hconnected, hc]
    obtain ⟨pid, moved, value, ⟨hnone, hnil, hcalls⟩ | ⟨hvalue, set, hcalls⟩⟩ := hspec.connected hc
    · -- there is an agent, and it is read
      have hread : value = if b.readable then some agent else none :=
        getAgent_of_sent (by simp [hcalls])
      have hkept : ¬ (b.readable = false ∨ agent = []) := by
        rw [hread] at hnone hnil
        cases hreadable : b.readable <;> simp_all
      rw [hcalls, if_neg (fun h => hkept h.2), if_neg (fun h => hkept h.2)]
      exact ⟨rfl, by cases moved <;> rfl⟩
    · -- none is read
      have hread : value = if b.readable then some agent else none :=
        getAgent_of_sent (by simp [hcalls])
      have hset : set = if b.accepts then some () else none :=
        setAgent_of_sent agent (by simp [hcalls])
      have hwanted : b.readable = false ∨ agent = [] := by
        rw [hread] at hvalue
        cases hreadable : b.readable <;> simp_all
      rw [hcalls, if_pos ⟨rfl, hwanted⟩]
      refine ⟨rfl, ?_⟩
      have hmove : agentAfter agent ⟨.movePidAbs (ascii "all") (ascii "/") pid, moved⟩ = agent := by
        cases moved <;> rfl
      have hget : agentAfter agent ⟨Sys.getAgent, value⟩ = agent := by cases value <;> rfl
      simp only [List.foldl_cons, List.foldl_nil, hmove, hget, agentAfter_set, hset, hwanted]
      cases b.accepts <;> rfl

/-- However many processes of however many builds start one after the other: a start
tries to set its own agent where it has a connection and reads none, and sets no
other; and if no read fails, an agent that is there stays, and where there is none
the first start that can sets its own. A read that fails counts as none. -/
theorem agent_first_set (agent : Bytes) (boots : List Boot) :
    (∀ before b after, boots = before ++ b :: after →
      attempts (b.trace (before.foldl agentOf agent)) =
        if b.connected = true ∧ (b.readable = false ∨ before.foldl agentOf agent = []) then
          [Sys.setAgent b.libexecdir]
        else []) ∧
    ((∀ b ∈ boots, b.connected = true → b.readable = true) → boots.foldl agentOf agent =
      if agent = [] then
        ((boots.find? Boot.canSet).map (fun b => Sys.releaseAgentPath b.libexecdir)).getD []
      else agent) := by
  refine ⟨fun before b _ _ => (boot_spec b _).1, fun hread => ?_⟩
  induction boots generalizing agent with
  | nil =>
    by_cases h : agent = []
    · rw [if_pos h]
      exact h
    · exact (if_neg h).symm
  | cons b boots ih =>
    rw [List.forall_mem_cons] at hread
    rw [List.foldl_cons, ih _ hread.2, (boot_spec b agent).2, List.find?_cons]
    by_cases h : agent = []
    · subst h
      cases b.canSet with
      | true => simp [releaseAgentPath_ne]
      | false => simp
    · have hkept : ¬ (b.canSet = true ∧ (b.readable = false ∨ agent = [])) := by
        intro hall
        obtain ⟨hset, hunread | hnone⟩ := hall
        · have hreadable := hread.1 (Bool.and_eq_true_iff.mp hset).1
          exact Bool.false_ne_true (hunread.symm.trans hreadable)
        · exact h hnone
      rw [if_neg hkept, if_neg h, if_neg h]

/-- Three builds start on a machine with no agent: the first finds no cgmanager. -/
def threeBoots : List Boot :=
  [⟨ascii "/opt/lib", 6, false, none, true, true, true⟩,
    ⟨ascii "/usr/lib", 7, true, some (.int32 9), true, true, true⟩,
    ⟨ascii "/usr/local/lib", 8, true, some (.int32 9), false, true, true⟩]

theorem agent_first_set_three :
    threeBoots.foldl agentOf [] = Sys.releaseAgentPath (ascii "/usr/lib") :=
  ((agent_first_set [] threeBoots).2 (by decide)).trans rfl

end Shim
