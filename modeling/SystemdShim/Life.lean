import SystemdShim.Connection
import SystemdShim.Dispatch
import SystemdShim.TimerHandle

/- The life of a process, with every act of the shim's programs taken apart as far
   as the source goes: main's call of cgmanager_move_self, and then requests. What
   the lower level does is what the shim's own model does, request by request, with
   the answers of a cgmanager that is there or is not (`life_refines`). -/
namespace Shim
open Effects

/-- The calls to cgmanager that a run of the shim's programs makes. -/
def asked (t : ShimTrace) : List Exchange :=
  t.filterMap (fun e => match e with
    | ⟨.cgmanagerCall c, r⟩ => some ⟨.ofCall c, r⟩
    | _ => none)

/-- What detect_virtualization comes to, each time it is asked. -/
def virtualizations (t : ShimTrace) : List Bytes :=
  t.filterMap (fun e => match e with
    | ⟨.detectVirtualization, id⟩ => some id
    | _ => none)

@[simp] theorem asked_append (t t' : ShimTrace) : asked (t ++ t') = asked t ++ asked t' :=
  List.filterMap_append ..

@[simp] theorem virtualizations_append (t t' : ShimTrace) :
    virtualizations (t ++ t') = virtualizations t ++ virtualizations t' :=
  List.filterMap_append ..

/-- The acts that are not taken apart, at the upper level. -/
def others (t : ShimTrace) : ShimTrace :=
  t.filter (fun e => match e.1 with
    | .cgmanagerCall _ => false
    | .detectVirtualization => false
    | _ => true)

/-- The same at the lower level. -/
def passed (T : SysTrace) : ShimTrace :=
  T.filterMap (fun e => match e with
    | ⟨.shim a, r⟩ => some ⟨a, r⟩
    | _ => none)

@[simp] theorem others_append (t t' : ShimTrace) : others (t ++ t') = others t ++ others t' :=
  List.filter_append ..

@[simp] theorem passed_append (T T' : SysTrace) : passed (T ++ T') = passed T ++ passed T' :=
  List.filterMap_append ..

/-- How an act may answer for the virtualization, and what is remembered then. -/
inductive VirtStep (s : Statics) : List Bytes → Statics → Prop
  | same {s' : Statics} (h : Sys.SameVirt s s') : VirtStep s [] s'
  | again {n : Bytes} (h : 0 < s.cachedVirt) (hn : s.cachedId = some n) : VirtStep s [n] s
  | nothing {s' : Statics} (h : s.cachedVirt ≤ 0) (h' : s'.cachedVirt ≤ 0) : VirtStep s [[]] s'
  | found {n : Bytes} {s' : Statics} (h : s.cachedVirt ≤ 0) (h' : 0 < s'.cachedVirt)
      (hn : s'.cachedId = some n) : VirtStep s [n] s'

/-- What does an act of the shim's, after the socket log `L`. -/
structure ImplSpec (s : Statics) (L : SysTrace) (a : Act) (T : SysTrace) (r : Ans a)
    (s' : Statics) : Prop where
  log : SocketLog s' (L ++ socket T)
  valid : s'.Valid
  settled : s.initialised = true → s'.initialised = true ∧ s'.connection = s.connection
  made : s'.connection = true → sent T = asked [⟨a, r⟩]
  dropped : s'.connection = false → sent T = [] ∧ ∀ x ∈ asked [⟨a, r⟩], x.2 = none
  rest : passed T = others [⟨a, r⟩]
  virt : VirtStep s (virtualizations [⟨a, r⟩]) s'

namespace Sys
variable {s : Statics} {L : SysTrace}

/-- A run of detect_virtualization is none of the socket's business. -/
theorem socket_of_permitted {T : SysTrace} (h : ∀ e ∈ T, ∃ held, holdings.permits held e.1) :
    socket T = [] ∧ sent T = [] ∧ passed T = [] := by
  refine ⟨List.filter_eq_nil_iff.mpr ?_, List.filterMap_eq_nil_iff.mpr ?_,
    List.filterMap_eq_nil_iff.mpr ?_⟩
  all_goals
    intro e he
    obtain ⟨held, hp⟩ := h e he
    obtain ⟨a, r⟩ := e
    cases a <;> first | rfl | exact Bool.false_ne_true | exact hp.elim

theorem passed_of_socket {T : SysTrace} (h : ∀ e ∈ T, isSocketAct e.1 = true) : passed T = [] := by
  apply List.filterMap_eq_nil_iff.mpr
  intro e he
  have := h e he
  obtain ⟨a, r⟩ := e
  cases a <;> first | rfl | cases this

/-- An act that leaves the connection alone. -/
theorem implSpec_apart {a : Act} {T : SysTrace} {r : Ans a} {s' : Statics} (hL : SocketLog s L)
    (hsocket : socket T = []) (hsent : sent T = []) (hasked : asked [⟨a, r⟩] = [])
    (hrest : passed T = others [⟨a, r⟩])
    (hi : s'.initialised = s.initialised) (hc : s'.connection = s.connection) (hv : s'.Valid)
    (hvirt : VirtStep s (virtualizations [⟨a, r⟩]) s') : ImplSpec s L a T r s' where
  log := by
    rw [hsocket, List.append_nil]
    exact hL.congr hi hc
  valid := hv
  settled h := ⟨hi.trans h, hc⟩
  made _ := hsent.trans hasked.symm
  dropped _ := ⟨hsent, by simp [hasked]⟩
  rest := hrest
  virt := hvirt

theorem wp_virtualizationId (hL : SocketLog s L) (hv : s.Valid) : virtualizationId.wp s
    (fun T o => ∃ r s', o = .ok (r, s') ∧ ImplSpec s L .detectVirtualization T r s') := by
  unfold virtualizationId
  apply Proc.wp_seq (wp_detectVirtualization (some []) s)
  · intro T r s' h
    obtain ⟨hperm, _, _, he, hd⟩ := h
    obtain ⟨rfl, rfl⟩ := Prod.mk.inj (Except.ok.inj he)
    obtain ⟨hsocket, hsent, hpassed⟩ := socket_of_permitted hperm
    have hend : ∀ id : Bytes, s'.initialised = s.initialised → s'.connection = s.connection →
        s'.Valid → VirtStep s [id] s' → (pure id : SysM Bytes).wp s' (fun T' o =>
          ∃ r s', o = .ok (r, s') ∧ ImplSpec s L .detectVirtualization (T ++ T') r s') := by
      intro id hi hc hv' hvirt
      refine ⟨id, s', rfl, ?_⟩
      rw [List.append_nil]
      exact implSpec_apart hL hsocket hsent rfl hpassed hi hc hv' hvirt
    cases hd with
    | remembered h =>
      by_cases hpos : s.cachedVirt > 0
      · obtain ⟨n, -, hn⟩ := hv hpos
        simp only [hpos, if_true, hn]
        exact hend n rfl rfl hv (.again hpos hn)
      · simp only [hpos, if_false]
        exact hend [] rfl rfl hv (.nothing (Int.not_lt.mp hpos) (Int.not_lt.mp hpos))
    | error h _ =>
      exact hend [] rfl rfl hv (.nothing (Int.le_of_lt h) (Int.le_of_lt h))
    | @found h v name hnonneg hname =>
      by_cases hpos : v > 0
      · obtain ⟨n, hn, rfl⟩ := hname hpos
        have hid : (s.remember v (some n)).cachedId = some n := by simp [Statics.remember, hpos]
        simp only [hpos, if_true]
        exact hend n rfl rfl (fun _ => ⟨n, hn, hid⟩) (.found (Int.le_of_lt h) hpos hid)
      · simp only [hpos, if_false]
        exact hend [] rfl rfl (fun h' => absurd h' hpos)
          (.nothing (Int.le_of_lt h) (Int.not_lt.mp hpos))
  · intro T h ht
    obtain ⟨-, _, _, he, -⟩ := ht
    cases he

theorem wp_impl (hL : SocketLog s L) (hv : s.Valid) (a : Act) : (impl a).wp s
    (fun T o => ∃ r s', o = .ok (r, s') ∧ ImplSpec s L a T r s') := by
  cases a with
  | cgmanagerCall c =>
    apply Proc.wp_mono (wp_cgmanagerCall hL (.ofCall c))
    intro T o h
    obtain ⟨r, s', rfl, hspec⟩ := h
    obtain ⟨hvirt, hid⟩ := hspec.virt
    refine ⟨r, s', rfl, hspec.log, ?_, ?_, hspec.made, ?_, passed_of_socket hspec.only,
      .same ⟨hvirt, hid⟩⟩
    · intro h
      rw [hvirt] at h
      rw [hid]
      exact hv h
    · intro h
      rw [hspec.settled h]
      exact ⟨h, rfl⟩
    · intro h
      obtain ⟨hsent, hr⟩ := hspec.dropped h
      exact ⟨hsent, by simp [asked, hr]⟩
  | detectVirtualization => exact wp_virtualizationId hL hv
  | _ =>
    exact fun r => ⟨r, s, rfl, implSpec_apart hL rfl rfl rfl rfl rfl rfl hv (.same ⟨rfl, rfl⟩)⟩

end Sys

/-! The two levels, over a life. -/

/-- The answers so far: "" until something is found, and its name from then on. -/
inductive VirtLog (s : Statics) : List Bytes → Prop
  | nothing (h : s.cachedVirt ≤ 0) (n : Nat) : VirtLog s (List.replicate n [])
  | named (h : 0 < s.cachedVirt) {name : Bytes} (hname : s.cachedId = some name) (n k : Nat) :
      VirtLog s (List.replicate n [] ++ List.replicate k name)

theorem VirtLog.step {s s' : Statics} {answers more : List Bytes} (h : VirtLog s answers)
    (hs : VirtStep s more s') : VirtLog s' (answers ++ more) := by
  cases h with
  | nothing h n =>
    cases hs with
    | same hsame =>
      rw [List.append_nil]
      exact .nothing (by rw [hsame.1]; exact h) n
    | again h' => omega
    | nothing _ h' =>
      rw [← List.replicate_succ']
      exact .nothing h' (n + 1)
    | found _ h' hn => exact .named h' hn n 1
  | named h hname n k =>
    cases hs with
    | same hsame =>
      rw [List.append_nil]
      exact .named (by rw [hsame.1]; exact h) (hsame.2.trans hname) n k
    | again h' hn =>
      obtain rfl := Option.some.inj (hname.symm.trans hn)
      rw [List.append_assoc, ← List.replicate_succ']
      exact .named h hname n (k + 1)
    | nothing h' => omega
    | found h' => omega

/-- The traces `t` and `T` of the two levels, behind the socket log `L`. -/
structure Linked (L : SysTrace) (s : Statics) (t : ShimTrace) (T : SysTrace) : Prop where
  log : SocketLog s (L ++ socket T)
  valid : s.Valid
  initialised : s.initialised = true
  made : s.connection = true → sent T = asked t
  dropped : s.connection = false → sent T = [] ∧ ∀ x ∈ asked t, x.2 = none
  rest : passed T = others t
  virt : VirtLog s (virtualizations t)

theorem linked_act {L : SysTrace} (a : Act) (s : Statics) (t : ShimTrace) (T : SysTrace)
    (h : Linked L s t T) : (Sys.impl a).wp s (fun T' o => ∀ r s', o = .ok (r, s') →
      Linked L s' (t ++ [⟨a, r⟩]) (T ++ T')) := by
  apply Proc.wp_mono (Sys.wp_impl h.log h.valid a)
  intro T' o ho r s' hr
  obtain ⟨_, _, rfl, hspec⟩ := ho
  obtain ⟨rfl, rfl⟩ := Prod.mk.inj (Except.ok.inj hr)
  obtain ⟨hinit, hconn⟩ := hspec.settled h.initialised
  refine ⟨?_, hspec.valid, hinit, ?_, ?_, ?_, ?_⟩
  · rw [socket_append, ← List.append_assoc]
    exact hspec.log
  · intro hc
    rw [sent_append, asked_append, h.made (hconn.symm.trans hc), hspec.made hc]
  · intro hc
    obtain ⟨hsent, hnone⟩ := h.dropped (hconn.symm.trans hc)
    obtain ⟨hsent', hnone'⟩ := hspec.dropped hc
    rw [sent_append, asked_append, hsent, hsent']
    exact ⟨rfl, List.forall_mem_append.mpr ⟨hnone, hnone'⟩⟩
  · rw [passed_append, others_append, h.rest, hspec.rest]
  · rw [virtualizations_append]
    exact h.virt.step hspec.virt

/-- The variables of a process, at both levels. -/
structure Life where
  process : Process
  statics : Statics

variable {systemdVersion : Nat}

/-- A request that is handled and returns, at the upper level. -/
def requestStep (systemdVersion : Nat) (p : Process) (l : Request × ShimTrace) : Option Process :=
  match ((l.1.handle systemdVersion).run p).replay l.2 with
  | some (.ok (_, p')) => some p'
  | _ => none

/-- The same, at the lower level. -/
def lifeStep (systemdVersion : Nat) (s : Life) (l : Request × SysTrace) : Option Life :=
  match ((((l.1.handle systemdVersion).run s.process).implement Sys.impl .shim).run
      s.statics).replay l.2 with
  | some (.ok ((_, p'), statics)) => some ⟨p', statics⟩
  | _ => none

theorem lifeStep_some {s s' : Life} {l : Request × SysTrace}
    (h : lifeStep systemdVersion s l = some s') :
    ((((l.1.handle systemdVersion).run s.process).implement Sys.impl .shim).run
      s.statics).replay l.2 = some (.ok (((), s'.process), s'.statics)) := by
  unfold lifeStep at h
  split at h
  · rename_i hr
    obtain rfl := Option.some.inj h
    exact hr
  · cases h

theorem linked_movedSelf {libexecdir : Bytes} {T : SysTrace} {s : Statics}
    (h : MovedSelf libexecdir T s) : Linked (socket T) s [] [] := by
  have hspec := h.spec
  have hvirt : s.cachedVirt = -1 := hspec.virt.1
  refine ⟨by simpa [socket] using hspec.log, ?_, hspec.initialised, fun _ => rfl, ?_, rfl, ?_⟩
  · intro h
    omega
  · exact fun _ => ⟨rfl, by simp [asked]⟩
  · exact .nothing (by omega) 0

/-- A request at the lower level is the request at the upper level, and stays
linked to it. -/
theorem lifeStep_linked {s s' : Life} {l : Request × SysTrace} {L : SysTrace} {t : ShimTrace}
    {T : SysTrace} (hlink : Linked L s.statics t T)
    (h : lifeStep systemdVersion s l = some s') : ∃ t',
      requestStep systemdVersion s.process (l.1, t') = some s'.process ∧
      Linked L s'.statics (t ++ t') (T ++ l.2) := by
  have hJ : ∀ a st, (∃ L, SocketLog st L ∧ st.Valid) → (Sys.impl a).wp st
      (fun _ o => ∃ r s', o = .ok (r, s') ∧ ∃ L, SocketLog s' L ∧ s'.Valid) := by
    intro a st hst
    obtain ⟨L, hlog, hvalid⟩ := hst
    apply Proc.wp_mono (Sys.wp_impl hlog hvalid a)
    intro T o ho
    obtain ⟨r, s', rfl, hspec⟩ := ho
    exact ⟨r, s', rfl, _, hspec.log, hspec.valid⟩
  obtain ⟨t', st', hreal, -, hend⟩ :=
    replay_implement hJ _ ⟨_, hlink.log, hlink.valid⟩ (lifeStep_some h)
  obtain ⟨a, ho, hr⟩ | ⟨x, ho, -⟩ := hend
  · obtain ⟨rfl, rfl⟩ := Prod.mk.inj (Except.ok.inj ho)
    refine ⟨t', ?_, hreal.keeps linked_act hlink⟩
    unfold requestStep
    rw [hr]
  · cases ho

/-- The requests, each with what it did. -/
def linkedRuns (ls : List (Request × SysTrace)) (ts : List ShimTrace) :
    List (Request × ShimTrace) :=
  (ls.map (·.1)).zip ts

theorem life_linked {libexecdir : Bytes} {p : Process} {T₀ : SysTrace} {st : Statics}
    (hstart : MovedSelf libexecdir T₀ st) (ls : List (Request × SysTrace)) (s : Life)
    (hrun : Runs.run (lifeStep systemdVersion) ⟨p, st⟩ ls = some s) : ∃ ts : List ShimTrace,
      List.Forall₂ (fun l t => passed l.2 = others t) ls ts ∧
      Runs.run (requestStep systemdVersion) p (linkedRuns ls ts) = some s.process ∧
      Linked (socket T₀) s.statics ts.flatten (ls.map (·.2)).flatten := by
  refine Runs.run_induct (P := fun ls s => ∃ ts : List ShimTrace,
    List.Forall₂ (fun l t => passed l.2 = others t) ls ts ∧
    Runs.run (requestStep systemdVersion) p (linkedRuns ls ts) = some s.process ∧
    Linked (socket T₀) s.statics ts.flatten (ls.map (·.2)).flatten) ?_ ?_ ls s hrun
  · exact ⟨[], .nil, rfl, linked_movedSelf hstart⟩
  · intro ls s l s' _ ih hl
    obtain ⟨ts, hall, hts, hlink⟩ := ih
    obtain ⟨t, ht, hlink'⟩ := lifeStep_linked hlink hl
    refine ⟨ts ++ [t], ?_, ?_, by simpa using hlink'⟩
    · refine List.rel_append hall (.cons ?_ .nil)
      have := hlink'.rest
      rw [passed_append, others_append, hlink.rest] at this
      exact List.append_cancel_left this
    · have hlen : (ls.map (·.1)).length = ts.length := by
        rw [List.length_map]
        exact hall.length_eq
      unfold linkedRuns
      rw [List.map_append, List.zip_append hlen, Runs.run_append]
      unfold linkedRuns at hts
      rw [hts]
      simpa [Runs.run] using ht

/-! A process that cannot reach cgmanager. -/

/-- The first acts of such a process. -/
def refusedStart : SysTrace := [⟨.getpid, (7 : Nat)⟩, ⟨.connect, false⟩]

/-- StopUnit of a slice that it has on record: six rounds of calls that are not
made, and the unit is let go. -/
def refusedStop : SysTrace :=
  [⟨.shim (.saveToFile KeyFile.empty), true⟩, ⟨.shim (.returnValue [.o (ascii "/")]), ()⟩,
    ⟨.shim (.emitSignal none "UnitRemoved" [.s (ascii "a.slice"), .o (ascii "/")]), ()⟩,
    ⟨.shim (.timeoutAdd 10000), (1 : Nat)⟩]

def onRecord : Process :=
  { keyFile := some (KeyFile.empty.setString (ascii "a.slice") (ascii "path") (ascii "a.slice")) }

def stopOnRecord : Request :=
  .manager [] "StopUnit" [.string (ascii "a.slice"), .string (ascii "fail")]

theorem movedSelf_refused : MovedSelf (ascii "/usr/lib") refusedStart { initialised := true } := by
  rfl

theorem run_refusedStop : Runs.run (lifeStep 204) ⟨onRecord, { initialised := true }⟩
    [(stopOnRecord, refusedStop)] = some ⟨{ onRecord with
      keyFile := some KeyFile.empty
      stateFile := some KeyFile.empty
      inactivityTimeout := 1 }, { initialised := true }⟩ := by
  rfl

/-- All that goes over the socket in the life of a process: no attempt to connect
but the first, and no call unless that one and the version were good. -/
theorem socket_of_life (libexecdir : Bytes) (p : Process) (T₀ : SysTrace) (st : Statics)
    (ls : List (Request × SysTrace)) (s : Life) (hstart : MovedSelf libexecdir T₀ st)
    (hrun : Runs.run (lifeStep systemdVersion) ⟨p, st⟩ ls = some s) :
    s.statics.initialised = true ∧
      SocketLog s.statics (socket (T₀ ++ (ls.map (·.2)).flatten)) := by
  obtain ⟨ts, -, -, hlink⟩ := life_linked hstart ls s hrun
  refine ⟨hlink.initialised, ?_⟩
  rw [socket_append]
  exact hlink.log

theorem socket_of_life_refused : SocketLog { initialised := true } [⟨.connect, false⟩] :=
  (socket_of_life (ascii "/usr/lib") onRecord refusedStart _ _ _ movedSelf_refused
    run_refusedStop).2

/-- The lower level does what the model of the shim does: request by request the
same process comes of it and the same other acts are done, in order. Where there
is a connection, the calls to cgmanager are those that went over it, with their
replies; where there is none, each of them fails and nothing is sent. -/
theorem life_refines (libexecdir : Bytes) (p : Process) (T₀ : SysTrace) (st : Statics)
    (ls : List (Request × SysTrace)) (s : Life) (hstart : MovedSelf libexecdir T₀ st)
    (hrun : Runs.run (lifeStep systemdVersion) ⟨p, st⟩ ls = some s) :
    ∃ ts : List ShimTrace, List.Forall₂ (fun l t => passed l.2 = others t) ls ts ∧
      Runs.run (requestStep systemdVersion) p (linkedRuns ls ts) = some s.process ∧
      (s.statics.connection = true → sent (ls.map (·.2)).flatten = asked ts.flatten) ∧
      (s.statics.connection = false →
        sent (ls.map (·.2)).flatten = [] ∧ ∀ x ∈ asked ts.flatten, x.2 = none) := by
  obtain ⟨ts, hall, hts, hlink⟩ := life_linked hstart ls s hrun
  exact ⟨ts, hall, hts, hlink.made, hlink.dropped⟩

theorem life_refines_refused : ∃ ts : List ShimTrace,
    Runs.run (requestStep 204) onRecord (linkedRuns [(stopOnRecord, refusedStop)] ts) =
      some { onRecord with
        keyFile := some KeyFile.empty
        stateFile := some KeyFile.empty
        inactivityTimeout := 1 } ∧
    ∀ x ∈ asked ts.flatten, x.2 = none := by
  obtain ⟨ts, -, hts, -, hdropped⟩ := life_refines (ascii "/usr/lib") onRecord refusedStart _ _ _
    movedSelf_refused run_refusedStop
  exact ⟨ts, hts, (hdropped rfl).2⟩

/-! Reads of the property Virtualization. -/

def readsVirtualization : Request → Bool
  | .managerProperty propertyName => propertyName == "Virtualization"
  | _ => false

/-- The string that a value is returned with. -/
def returnedText (t : ShimTrace) : Option Bytes :=
  t.findSome? (fun e => match e.1 with
    | .returnValue [.s id] => some id
    | _ => none)

theorem handle_virtualization : (Request.managerProperty "Virtualization").handle systemdVersion =
    (do
      hadActivity
      let id ← act .detectVirtualization
      act (.returnValue [.s id])) := by
  simp [Request.handle, shimGetProperty, returnProperty]

/-- A read is answered with what detect_virtualization came to. -/
theorem wp_readsVirtualization {r : Request} (h : readsVirtualization r = true) (p : Process) :
    Proc.wp (r.handle systemdVersion) p (fun t _ => ∃ id, virtualizations t = [id] ∧
      returnedText (others t) = some id) := by
  cases r with
  | managerProperty propertyName =>
    obtain rfl : propertyName = "Virtualization" := by simpa [readsVirtualization] using h
    rw [handle_virtualization]
    apply Proc.wp_seq (wp_hadActivity p)
    · intro t _ s ht
      obtain ⟨timer, rfl, -⟩ := ht
      intro id _
      refine ⟨id, ?_, ?_⟩
      · unfold removal
        split <;> rfl
      · unfold removal
        split <;> rfl
    · intro t x ht
      obtain ⟨_, -, he⟩ := ht
      cases he
  | _ => cases h

/-- The answers to the reads of a run. -/
def readAnswers (ls : List (Request × SysTrace)) : List (Option Bytes) :=
  (ls.filter (fun l => readsVirtualization l.1)).map (fun l => returnedText (passed l.2))

theorem readAnswers_sublist {ls : List (Request × SysTrace)} {ts : List ShimTrace}
    (h : List.Forall₂ (fun l t => passed l.2 = others t) ls ts) (p : Process) {p' : Process}
    (hrun : Runs.run (requestStep systemdVersion) p (linkedRuns ls ts) = some p') :
    List.Sublist (readAnswers ls) ((virtualizations ts.flatten).map some) := by
  induction h generalizing p with
  | nil => exact List.Sublist.refl _
  | @cons l t ls ts hrest _ ih =>
    simp only [linkedRuns, List.map_cons, List.zip_cons_cons, Runs.run,
      Option.bind_eq_some_iff] at hrun
    obtain ⟨p₁, hstep, hrun⟩ := hrun
    have htail := ih p₁ hrun
    rw [List.flatten_cons, virtualizations_append, List.map_append]
    unfold readAnswers
    cases hread : readsVirtualization l.1 with
    | false =>
      rw [List.filter_cons_of_neg (by simp [hread])]
      exact htail.trans (List.sublist_append_right _ _)
    | true =>
      rw [List.filter_cons_of_pos (by simp [hread]), List.map_cons]
      unfold requestStep at hstep
      split at hstep
      · rename_i hr
        obtain ⟨id, hid, hanswer⟩ :=
          (Prog.wp_iff_replay _ _).mp (wp_readsVirtualization hread p) _ _ hr
        rw [hid, hrest, hanswer]
        exact htail.cons_cons _
      · cases hstep

/-- The property is "" until something is found, and is never another after that. -/
theorem virtualization_reads (libexecdir : Bytes) (p : Process) (T₀ : SysTrace) (st : Statics)
    (ls : List (Request × SysTrace)) (s : Life) (hstart : MovedSelf libexecdir T₀ st)
    (hrun : Runs.run (lifeStep systemdVersion) ⟨p, st⟩ ls = some s) :
    ∃ name ∈ knownNames, ∃ n k,
      readAnswers ls = List.replicate n (some []) ++ List.replicate k (some name) := by
  obtain ⟨ts, hall, hts, hlink⟩ := life_linked hstart ls s hrun
  have hsub := readAnswers_sublist hall p hts
  have hlog := hlink.virt
  generalize virtualizations ts.flatten = answers at hsub hlog
  cases hlog with
  | nothing _ n =>
    rw [List.map_replicate, List.sublist_replicate_iff] at hsub
    obtain ⟨m, -, hm⟩ := hsub
    exact ⟨_, List.mem_append_left _ (List.mem_cons_self ..), m, 0, by simpa using hm⟩
  | @named h name hname n k =>
    obtain ⟨name', hmem, hname'⟩ := hlink.valid h
    obtain rfl := Option.some.inj (hname.symm.trans hname')
    rw [List.map_append, List.map_replicate, List.map_replicate, List.sublist_append_iff] at hsub
    obtain ⟨xs, ys, he, hx, hy⟩ := hsub
    obtain ⟨m, -, rfl⟩ := List.sublist_replicate_iff.mp hx
    obtain ⟨m', -, rfl⟩ := List.sublist_replicate_iff.mp hy
    exact ⟨name, hmem, m, m', he⟩

/-- Two reads in a chroot: the second one asks nothing. -/
def chrootReads : List (Request × SysTrace) :=
  [(.managerProperty "Virtualization",
    [⟨.shim (.timeoutAdd 10000), (1 : Nat)⟩, ⟨.geteuid, (0 : Nat)⟩,
      ⟨.stat "/proc/1/root", .ok ⟨1, 2⟩⟩, ⟨.stat "/", .ok ⟨1, 3⟩⟩,
      ⟨.shim (.returnValue [.s (ascii "chroot")]), ()⟩]),
    (.managerProperty "Virtualization",
      [⟨.shim (.sourceRemove 1), ()⟩, ⟨.shim (.timeoutAdd 10000), (2 : Nat)⟩,
        ⟨.shim (.returnValue [.s (ascii "chroot")]), ()⟩])]

theorem run_chrootReads : Runs.run (lifeStep 204) ⟨{}, { initialised := true }⟩ chrootReads =
    some ⟨{ inactivityTimeout := 2 },
      { initialised := true, cachedVirt := 2, cachedId := some (ascii "chroot") }⟩ := by
  rfl

theorem virtualization_reads_chroot : ∃ name ∈ knownNames, ∃ n k, readAnswers chrootReads =
    List.replicate n (some []) ++ List.replicate k (some name) :=
  virtualization_reads (ascii "/usr/lib") {} refusedStart _ _ _ movedSelf_refused run_chrootReads

end Shim
