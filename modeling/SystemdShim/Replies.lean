import SystemdShim.Lifetime

/- What a caller is told. `Sent i x n` counts the replies: with `i` of them
   sent, `x` returns some `a` with `n a` sent. Every exported call is answered
   once, but for the root of the subtree, where Abandon reads a node that is
   not there. A start always answers with success: `honest_iff` says when that
   is the truth. -/
namespace Shim
open Effects

def isReply : Act → Bool
  | .returnValue _ => true
  | .returnGError _ => true
  | _ => false

def replies (t : ShimTrace) : Nat := t.countP (fun e => isReply e.1)

variable {α β : Type}

/-- With `i` replies sent, `x` returns a value `a` with `n a` sent. -/
def Sent (i : Nat) (x : ShimM α) (n : α → Nat) : Prop :=
  ∀ s, Proc.wp x s (fun t o => ∃ a s', o = .ok (a, s') ∧ i + replies t = n a)

namespace Sent
variable {i : Nat}

theorem pure (a : α) {n : α → Nat} (h : n a = i) : Sent i (Pure.pure a : ShimM α) n :=
  fun s => ⟨a, s, rfl, h.symm⟩

theorem bind {x : ShimM α} {f : α → ShimM β} {k : α → Nat} {n : β → Nat} (hx : Sent i x k)
    (hf : ∀ a, Sent (k a) (f a) n) : Sent i (x >>= f) n := by
  intro s
  apply Proc.wp_seq_ok (hx s)
  intro t a s' ht
  apply Proc.wp_mono (hf a s')
  intro t' o h
  obtain ⟨b, s'', rfl, ht'⟩ := h
  refine ⟨b, s'', rfl, ?_⟩
  rw [← ht', ← ht, replies, List.countP_append]
  exact (Nat.add_assoc ..).symm

theorem reply {a : Act} (h : isReply a = true) : Sent i (Shim.act a) (fun _ => i + 1) :=
  fun s r => ⟨r, s, rfl, by simp [replies, h]⟩

/-- A program that answers nobody. -/
theorem silent {allowed : Act → Bool} {changes : Process → Process → Prop} {x : ShimM α}
    (hx : Proc.Footprint allowed changes x) (h : ∀ a, allowed a = true → isReply a = false) :
    Sent i x (fun _ => i) := by
  intro s
  apply Proc.wp_mono (hx.wp (trivial : (fun _ => True) s) (fun _ _ _ _ => trivial))
  intro t o h
  obtain ⟨a, s', rfl, -, ht⟩ := h
  refine ⟨a, s', rfl, ?_⟩
  have : replies t = 0 := List.countP_eq_zero.mpr (fun e he => by simp [h e.1 (ht e he)])
  rw [this, Nat.add_zero]

theorem housekeeping {x : ShimM α} (hx : Housekeeping x) : Sent i x (fun _ => i) :=
  silent hx (fun a h => by cases a <;> first | rfl | cases h)

theorem inquiry {x : ShimM α} (hx : Inquiry x) : Sent i x (fun _ => i) :=
  housekeeping hx.housekeeping

theorem powerWork {x : ShimM α} (hx : PowerWork x) : Sent i x (fun _ => i) :=
  silent hx (fun a h => by cases a <;> first | rfl | cases h)

theorem cgroupWork {x : ShimM α} (hx : CgroupWork x) : Sent i x (fun _ => i) :=
  silent hx (fun a h => by cases a <;> first | rfl | cases h)

theorem emitSignal (destination : Option Bytes) (name : String) (value : List Arg) :
    Sent i (Shim.act (.emitSignal destination name value)) (fun _ => i) :=
  fun s r => ⟨r, s, rfl, rfl⟩

/-- The methods of a unit answer nobody, and no call meets an unset slot. -/
theorem unitWork {x : ShimM Unit} (hx : UnitWork x) : Sent i x (fun _ => i) := by
  cases hx with
  | housekeeping hx => exact housekeeping hx
  | power action => exact powerWork (.powerUnitStart action)
  | cgroup hx => exact cgroupWork hx

theorem unitGetState (unit : UnitObject) : Sent i (Shim.unitGetState unit) (fun _ => i) :=
  inquiry (.unitGetState unit)

end Sent

/-! The exported methods. -/

/-- Values of the declared types. -/
def HasTypes (parameters : List Variant) (args : List ArgInfo) : Prop :=
  parameters.map Variant.type = args.map ArgInfo.type

/-- The calls GDBus hands over: a declared method, with arguments of the
declared types, on an object its interface is exported on. -/
inductive Exported (systemdVersion : Nat) : Request → Prop where
  | manager (sender : Bytes) (m : MethodInfo) (parameters : List Variant)
      (hm : m ∈ (managerIface systemdVersion).methods) (ht : HasTypes parameters m.inArgs) :
      Exported systemdVersion (.manager sender m.name parameters)
  | unit (node : Option Bytes) (iface : InterfaceInfo) (m : MethodInfo)
      (hi : iface ∈ [unitIface, scopeIface]) (hm : m ∈ iface.methods) :
      Exported systemdVersion (.unit node m.name)

/-- Exactly one reply, and the handler returns, whatever the surroundings do. -/
def AnsweredOnce (systemdVersion : Nat) (s : Process) (r : Request) : Prop :=
  Proc.wp (r.handle systemdVersion) s (fun t o => (∃ s', o = .ok ((), s')) ∧ replies t = 1)

theorem HasTypes.string {parameters : List Variant} {name : String} {args : List ArgInfo}
    (h : HasTypes parameters (⟨name, .s⟩ :: args)) :
    ∃ v rest, parameters = .string v :: rest ∧ HasTypes rest args := by
  obtain ⟨v, rest, rfl, hv, hr⟩ := List.map_eq_cons_iff.mp h
  cases v with
  | string v => exact ⟨v, rest, rfl, hr⟩
  | _ => cases hv

theorem HasTypes.properties {parameters : List Variant} {name : String} {args : List ArgInfo}
    (h : HasTypes parameters (⟨name, .asv⟩ :: args)) :
    ∃ vs rest, parameters = .properties vs :: rest := by
  obtain ⟨v, rest, rfl, hv, -⟩ := List.map_eq_cons_iff.mp h
  cases v with
  | properties vs => exact ⟨vs, rest, rfl⟩
  | _ => cases hv

/-- The replies sent when a branch leaves this error. -/
def answered : Option GError → Nat
  | none => 1
  | some _ => 0

theorem sent_withUnit {v : Bytes} {rest : List Variant} {body : Bytes → UnitObject → ShimM Unit}
    (hb : ∀ unit, Sent 0 (body v unit) (fun _ => 1)) :
    Sent 0 (withUnit (.string v :: rest) body) answered := by
  rw [withUnit_string]
  refine .bind (.inquiry (.lookupUnit v)) (fun r => ?_)
  cases r with
  | ok unit => exact .bind (hb unit) (fun _ => .pure none rfl)
  | error error => exact .pure (some error) rfl

theorem sent_returnConstant (value : List Arg) : Sent 0 (returnConstant value) answered :=
  .bind (.reply rfl) (fun _ => .pure none rfl)

/-- Every declared method of the manager has its branch, which replies or
leaves an error. -/
theorem sent_shimMethodBranch {systemdVersion : Nat} {m : MethodInfo} {parameters : List Variant}
    (sender : Bytes) (hm : m ∈ (managerIface systemdVersion).methods)
    (ht : HasTypes parameters m.inArgs) :
    Sent 0 (shimMethodBranch sender m.name parameters) answered := by
  simp only [managerIface, List.mem_cons, List.not_mem_nil, or_false] at hm
  -- one case for each method, in the order of the interface
  rcases hm with rfl | rfl | rfl | rfl | rfl | rfl | rfl | rfl | rfl
  · obtain ⟨v, rest, rfl, -⟩ := ht.string
    exact sent_withUnit (fun unit => .bind (.unitGetState unit) (fun _ => .reply rfl))
  · exact sent_returnConstant _
  · exact sent_returnConstant _
  · exact sent_returnConstant _
  · obtain ⟨v, rest, rfl, -⟩ := ht.string
    exact sent_withUnit (fun unit => .bind (.unitWork (.unitStart unit))
      (fun _ => .bind (.reply rfl) (fun _ => .emitSignal _ _ _)))
  · obtain ⟨v, rest, rfl, -⟩ := ht.string
    exact sent_withUnit (fun unit => .bind (.unitWork (.unitStop unit))
      (fun _ => .bind (.reply rfl) (fun _ => .emitSignal _ _ _)))
  · obtain ⟨v, rest₁, rfl, ht₁⟩ := HasTypes.string ht
    obtain ⟨mode, rest₂, rfl, ht₂⟩ := HasTypes.string ht₁
    obtain ⟨vs, rest₃, rfl⟩ := HasTypes.properties ht₂
    refine sent_withUnit (fun unit => ?_)
    change Sent 0 (unitStartTransient unit vs >>= fun _ => _) _
    exact .bind (.unitWork (.unitStartTransient unit vs)) (fun _ => .bind (.reply rfl)
      (fun _ => .bind (.unitGetState unit) (fun _ => .emitSignal _ _ _)))
  · exact sent_returnConstant _
  · exact sent_returnConstant _

theorem sent_shimMethodCall {systemdVersion : Nat} {m : MethodInfo} {parameters : List Variant}
    (sender : Bytes) (hm : m ∈ (managerIface systemdVersion).methods)
    (ht : HasTypes parameters m.inArgs) :
    Sent 0 (shimMethodCall sender m.name parameters) (fun _ => 1) := by
  refine .bind (sent_shimMethodBranch sender hm ht) (fun error => ?_)
  cases error with
  | none => exact .bind (.pure () rfl) (fun _ => .housekeeping .hadActivity)
  | some error => exact .bind (.reply rfl) (fun _ => .housekeeping .hadActivity)

/-- Abandon answers once on every node below the root. -/
theorem sent_shimUnitMethodCall (node : Bytes) :
    Sent 0 (shimUnitMethodCall (some node) "Abandon") (fun _ => 1) := by
  refine .bind (.housekeeping .hadActivity) (fun _ => ?_)
  rw [if_pos rfl]
  refine .bind (.inquiry (.lookupUnit _)) (fun r => ?_)
  cases r with
  | ok unit => exact .bind (.unitWork (.unitAbandon unit)) (fun _ => .reply rfl)
  | error error => exact .reply rfl

/-- On the root it reads the name of a node through NULL. -/
theorem wp_abandon_root (systemdVersion : Nat) (s : Process) :
    Proc.wp ((Request.unit none "Abandon").handle systemdVersion) s
      (fun _ o => o = .error .nullString) := by
  have hadActivity_then : ∀ (s : Process) (x : ShimM Unit), (∀ s, Proc.wp x s (fun _ o =>
      o = .error .nullString)) → Proc.wp (hadActivity >>= fun _ => x) s
      (fun _ o => o = .error .nullString) := fun s x hx =>
    Proc.wp_seq_ok ((Sent.housekeeping .hadActivity : Sent 0 hadActivity _) s)
      (fun _ _ s' _ => hx s')
  rw [handle_unit]
  exact hadActivity_then s _ (fun s => hadActivity_then s _ (fun s => hadActivity_then s _
    (fun _ => rfl)))

theorem sent_exported {systemdVersion : Nat} {r : Request} (h : Exported systemdVersion r)
    (hr : r ≠ .unit none "Abandon") : Sent 0 (r.handle systemdVersion) (fun _ => 1) := by
  cases h with
  | manager sender m parameters hm ht => exact sent_shimMethodCall sender hm ht
  | unit node iface m hi hm =>
    have hname : m.name = "Abandon" := by
      simp only [List.mem_cons, List.not_mem_nil, or_false] at hi
      rcases hi with rfl | rfl
      · cases hm
      · obtain rfl := List.mem_singleton.mp hm
        rfl
    cases node with
    | none => exact absurd (by rw [hname]) hr
    | some node =>
      rw [handle_unit, hname]
      exact .bind (.housekeeping .hadActivity) (fun _ => .bind (.housekeeping .hadActivity)
        (fun _ => sent_shimUnitMethodCall node))

theorem not_answeredOnce_root (systemdVersion : Nat) (s : Process) :
    ¬ AnsweredOnce systemdVersion s (.unit none "Abandon") := by
  intro h
  obtain ⟨⟨s', ho⟩, -⟩ := Prog.wp_exec allGood h
  rw [Prog.wp_exec allGood (wp_abandon_root systemdVersion s)] at ho
  cases ho

/-- Every exported call is answered exactly once and without a crash, except
Abandon on the root of the subtree. -/
theorem answeredOnce_iff (systemdVersion : Nat) (s : Process) (r : Request)
    (h : Exported systemdVersion r) :
    AnsweredOnce systemdVersion s r ↔ r ≠ .unit none "Abandon" := by
  constructor
  · intro ha hr
    subst hr
    exact not_answeredOnce_root systemdVersion s ha
  · intro hr
    apply Proc.wp_mono (sent_exported h hr s)
    intro t o ho
    obtain ⟨⟨⟩, s', rfl, ht⟩ := ho
    exact ⟨⟨s', rfl⟩, (Nat.zero_add _).symm.trans ht⟩

/-- A start of a scope, in a slice. -/
def startInSlice : Request :=
  .manager [] "StartTransientUnit" [.string (ascii "c1.scope"), .string (ascii "fail"),
    .properties [(ascii "Slice", .string (ascii "user.slice"))]]

theorem exported_startInSlice : Exported 208 startInSlice :=
  .manager [] ⟨"StartTransientUnit", [⟨"name", .s⟩, ⟨"mode", .s⟩, ⟨"properties", .asv⟩]⟩ _
    (by decide) rfl

theorem answeredOnce_startInSlice : AnsweredOnce 208 bootProcess startInSlice :=
  (answeredOnce_iff 208 bootProcess startInSlice exported_startInSlice).mpr nofun

/-- Abandon on /org/freedesktop/systemd1/unit crashes. -/
theorem not_answeredOnce : ¬ ∀ (systemdVersion : Nat) (ls : List (Call × ShimTrace)) (s : Process)
    (r : Request), handled ls s → Exported systemdVersion r → AnsweredOnce systemdVersion s r :=
  fun h => not_answeredOnce_root 208 bootProcess (h 208 [] bootProcess _ rfl
    (.unit none scopeIface ⟨"Abandon", []⟩ (by decide) (by decide)))

/-! What a start tells its caller. -/

/-- The program returns, having done all of `es`. -/
def Shows (es : ShimTrace) (x : ShimM α) : Prop :=
  ∀ s, Proc.wp x s (fun t o => (∃ a s', o = .ok (a, s')) ∧ ∀ e ∈ es, e ∈ t)

namespace Shows

theorem bind {x : ShimM α} {f : α → ShimM β} {es fs : ShimTrace} (hx : Shows es x)
    (hf : ∀ a, Shows fs (f a)) : Shows (es ++ fs) (x >>= f) := by
  intro s
  refine Proc.wp_seq (hx s) ?_ (fun _ _ h => by obtain ⟨⟨_, _, h⟩, _⟩ := h; cases h)
  intro t a s' h
  obtain ⟨-, ht⟩ := h
  apply Proc.wp_mono (hf a s')
  intro t' o h
  obtain ⟨ho, ht'⟩ := h
  refine ⟨ho, fun e he => ?_⟩
  rcases List.mem_append.mp he with he | he
  · exact List.mem_append_left _ (ht e he)
  · exact List.mem_append_right _ (ht' e he)

theorem total {x : ShimM α} {i : Nat} {n : α → Nat} (hx : Sent i x n) : Shows [] x := fun s =>
  Proc.wp_mono (hx s) (fun _ _ h => ⟨by obtain ⟨a, s', h, _⟩ := h; exact ⟨a, s', h⟩, by simp⟩)

theorem returnValue (value : List Arg) :
    Shows [⟨.returnValue value, ()⟩] (act (.returnValue value)) :=
  fun s _ => ⟨⟨(), s, rfl⟩, by simp⟩

theorem emitSignal (destination : Option Bytes) (name : String) (value : List Arg) :
    Shows [⟨.emitSignal destination name value, ()⟩] (act (.emitSignal destination name value)) :=
  fun s _ => ⟨⟨(), s, rfl⟩, by simp⟩

end Shows

/-- The caller and the unit of a start of a cgroup unit. -/
def Call.starts : Call → Option (Bytes × Bytes)
  | .startUnit sender name _ => if isCgroupName name then some (sender, name) else none
  | .startTransientUnit sender name _ _ _ =>
    if isCgroupName name then some (sender, name) else none
  | _ => none

/-- The caller gets a job, and hears that it has been removed. -/
def JobReturned (sender : Bytes) (t : ShimTrace) : Prop :=
  (⟨.returnValue [.o (ascii "/")], ()⟩ : Event Ans) ∈ t ∧
    ∃ value, (⟨.emitSignal (some sender) "JobRemoved" value, ()⟩ : Event Ans) ∈ t

theorem shows_withUnit {name : Bytes} {rest : List Variant} {body : Bytes → UnitObject → ShimM Unit}
    {es : ShimTrace} (hn : isCgroupName name = true) (hb : Shows es (body name (.cgroup name))) :
    Shows es (withUnit (.string name :: rest) body) := by
  rw [withUnit_string, lookupUnit_cgroup hn, pure_bind, ← List.append_nil es]
  exact .bind hb (fun _ => .total (.pure none rfl : Sent 0 _ (fun _ => 0)))

theorem shows_shimMethodCall {sender : Bytes} {methodName : String} {parameters : List Variant}
    {es : ShimTrace} (h : Shows es (shimMethodBranch sender methodName parameters)) :
    Shows es (shimMethodCall sender methodName parameters) := by
  have rest : ∀ error, Shows ([] ++ []) (returnIfError error >>= fun _ => hadActivity) := by
    refine fun error => .bind ?_ (fun _ => .total (.housekeeping .hadActivity : Sent 0 _ _))
    cases error with
    | none => exact .total (.pure () rfl : Sent 0 _ (fun _ => 0))
    | some error => exact .total (.reply rfl : Sent 0 _ _)
  rw [← List.append_nil es]
  exact .bind h rest

/-- Every run of a start of a cgroup unit ends with a job. -/
theorem shows_starts {c : Call} {sender name : Bytes} (hc : c.starts = some (sender, name)) :
    ∃ value, Shows [⟨.returnValue [.o (ascii "/")], ()⟩,
      ⟨.emitSignal (some sender) "JobRemoved" value, ()⟩] c.handle := by
  cases c with
  | startUnit sender' name' mode =>
    simp only [Call.starts] at hc
    split at hc
    · rename_i hn
      obtain ⟨rfl, rfl⟩ := Prod.mk.inj (Option.some.inj hc)
      refine ⟨[.u 0, .o (ascii "/"), .s [], .s []], shows_shimMethodCall (shows_withUnit hn ?_)⟩
      exact .bind (.total (.unitWork (.unitStart _) : Sent 0 _ _))
        (fun _ => .bind (.returnValue _) (fun _ => .emitSignal _ _ _))
    · cases hc
  | startTransientUnit sender' name' mode properties aux =>
    simp only [Call.starts] at hc
    split at hc
    · rename_i hn
      obtain ⟨rfl, rfl⟩ := Prod.mk.inj (Option.some.inj hc)
      refine ⟨[.u 0, .o (ascii "/"), .s name', .s (ascii "done")],
        shows_shimMethodCall (shows_withUnit hn ?_)⟩
      change Shows _ (unitStartTransient (.cgroup name') properties >>= fun _ => _)
      exact .bind (.total (.unitWork (.unitStartTransient _ _) : Sent 0 _ _))
        (fun _ => .bind (.returnValue _) (fun _ => .emitSignal _ _ _))
    · cases hc
  | stopUnit sender' name' mode => cases hc
  | abandon node => cases hc

/-- A start of a cgroup unit is answered with a job, whatever came of it. -/
theorem jobReturned {s s' : Process} {c : Call} {t : ShimTrace} {sender name : Bytes}
    (hc : c.starts = some (sender, name)) (h : callStep s (c, t) = some s') :
    JobReturned sender t := by
  obtain ⟨value, hs⟩ := shows_starts hc
  unfold callStep at h
  split at h
  · rename_i hr
    obtain ⟨-, ht⟩ := (Prog.wp_iff_replay _ _).mp (hs s) _ _ hr
    exact ⟨ht _ (by simp), value, ht _ (by simp)⟩
  · cases h

/-- What a success reply promises: the unit is recorded, and the Create of its
cgroup has succeeded in this call. Anything else would be an error reply and
leave the recorded state alone. -/
def Honest (sender name : Bytes) (s s' : Process) (t : ShimTrace) : Prop :=
  (JobReturned sender t → ∃ path, s'.recorded name = some path ∧
    ∃ e ∈ t, Creates (skipSlash path) e = true) ∧
  (¬ JobReturned sender t → (∃ error, (⟨.returnGError error, ()⟩ : Event Ans) ∈ t) ∧
    s'.recorded = s.recorded)

/-- The name and the properties are such that the start is carried out. -/
def Startable (name : Bytes) (c : Call) : Prop :=
  ∃ path uid pids, c.op = some (.start name path uid pids)

/-- cgmanager fails no Create. -/
def NoCreateFails (t : ShimTrace) : Prop :=
  ∀ controllers p, (⟨.cgmanagerCall (.create controllers p), none⟩ : Event Ans) ∉ t

theorem starts_name {c : Call} {sender name unit path : Bytes} {uid : Int} {pids : List UInt32}
    (hc : c.starts = some (sender, name)) (hop : c.op = some (.start unit path uid pids)) :
    unit = name := by
  cases c with
  | startUnit sender' name' mode =>
    simp only [Call.starts, Option.ite_none_right_eq_some, Option.some.injEq, Prod.mk.injEq] at hc
    simp only [Call.op, startOp, Option.ite_none_right_eq_some, Option.some.injEq,
      UnitOp.start.injEq] at hop
    exact hop.2.1.symm.trans hc.2.2
  | startTransientUnit sender' name' mode properties aux =>
    simp only [Call.starts, Option.ite_none_right_eq_some, Option.some.injEq, Prod.mk.injEq] at hc
    simp only [Call.op, Option.ite_none_right_eq_some] at hop
    obtain ⟨-, hop⟩ := hop
    split at hop
    · simp only [startOp, Option.ite_none_right_eq_some, Option.some.injEq,
        UnitOp.start.injEq] at hop
      exact hop.2.1.symm.trans hc.2.2
    · cases hop
  | stopUnit sender' name' mode => cases hc
  | abandon node => cases hc

/-- A start calls Create once. -/
theorem create_unique {s s' : Process} {c : Call} {t : ShimTrace} {unit path : Bytes} {uid : Int}
    {pids : List UInt32} (h : callStep s (c, t) = some s')
    (hop : c.op = some (.start unit path uid pids)) : ∃ reply : Option Unit, ∀ controllers p reply',
      (⟨.cgmanagerCall (.create controllers p), reply'⟩ : Event Ans) ∈ t → reply' = reply := by
  have hs := callStep_spec h
  rw [hop] at hs
  obtain ⟨tc, b, htc, ht, -⟩ := hs
  obtain ⟨⟨a, reply⟩, rest, rfl, ha, hrest⟩ := List.map_eq_cons_iff.mp htc
  obtain rfl : a = .cgmanagerCall (.create (ascii "all") (skipSlash path)) := ha
  refine ⟨reply, fun controllers p reply' he => ?_⟩
  have hm : (⟨.cgmanagerCall (.create controllers p), reply'⟩ : Event Ans) ∈ core t :=
    List.mem_filter.mpr ⟨he, rfl⟩
  rw [ht] at hm
  simp only [List.cons_append, List.mem_cons, List.mem_append, List.not_mem_nil, or_false] at hm
  rcases hm with hm | hm | hm
  · cases hm; rfl
  · have hk : Act.cgmanagerCall (.create controllers p) ∈ rest.map Sigma.fst :=
      List.mem_map_of_mem hm
    rw [hrest] at hk
    simp at hk
  · cases hm

/-- The success reply to a start is the truth exactly if the start can be
carried out, the key file accepts the name and the Create succeeds. -/
theorem honest_iff (s s' : Process) (c : Call) (t : ShimTrace) (sender name : Bytes)
    (hc : c.starts = some (sender, name)) (h : callStep s (c, t) = some s') :
    Honest sender name s s' t ↔
      Startable name c ∧ gKeyFileIsGroupName name = true ∧ NoCreateFails t := by
  have hj := jobReturned hc h
  constructor
  · intro hh
    obtain ⟨path, hrec, e, he, hcr⟩ := hh.1 hj
    obtain ⟨unit, path', uid, pids, hop, -⟩ := creates_cases h he hcr
    obtain rfl := starts_name hc hop
    -- the Create that succeeded is the only one, so none has failed
    refine ⟨⟨path', uid, pids, hop⟩, Process.isGroupName_of_recorded hrec, ?_⟩
    intro controllers p hfail
    obtain ⟨reply, hu⟩ := create_unique h hop
    obtain ⟨controllers', rfl⟩ := creates_elim hcr
    cases (hu _ _ _ hfail).trans (hu _ _ _ he).symm
  · intro h
    obtain ⟨⟨path, uid, pids, hop⟩, hn, hok⟩ := h
    refine ⟨fun _ => ⟨path, ?_, ?_⟩, fun hnj => absurd hj hnj⟩
    · rw [callStep_recorded h, hop, applyOp, if_pos hn, Function.update_self]
    · have hk : CgCall.create (ascii "all") (skipSlash path) ∈ cgCalls t := by
        rw [callStep_start_calls h hop]
        simp [createCalls]
      obtain ⟨reply, he⟩ := mem_cgCalls.mp hk
      cases reply with
      | none => exact absurd he (hok _ _)
      | some u => exact ⟨_, he, by simp [Creates]⟩

/-- A slice started with every call succeeding. -/
theorem honest_slice : Honest [] (ascii "a.slice") bootProcess
    (callEnd allGood bootProcess (.startUnit [] (ascii "a.slice") []))
    (callExec allGood bootProcess (.startUnit [] (ascii "a.slice") [])) := by
  refine (honest_iff _ _ _ _ [] (ascii "a.slice") (by decide) (callStep_exec _ _ _)).mpr
    ⟨⟨ascii "a.slice", -1, [], by decide⟩, by decide, fun controllers p hm => ?_⟩
  cases (Prog.mem_exec hm : none = some ())

/-- StartTransientUnit of a scope without a Slice does nothing, and is answered
with a job and its removal. -/
theorem dishonest_without_slice : ¬ ∀ (ls : List (Call × ShimTrace)) (s s' : Process) (c : Call)
    (t : ShimTrace) (sender name : Bytes), handled ls s → c.starts = some (sender, name) →
      callStep s (c, t) = some s' → Honest sender name s s' t := by
  intro h
  have hc : (Call.startTransientUnit [] (ascii "x.scope") [] [] []).starts =
      some ([], ascii "x.scope") := by decide
  have hstep :=
    callStep_exec allGood bootProcess (.startTransientUnit [] (ascii "x.scope") [] [] [])
  obtain ⟨path, hrec, -⟩ := (h [] bootProcess _ _ _ _ _ rfl hc hstep).1 (jobReturned hc hstep)
  have hn : (callEnd allGood bootProcess
      (.startTransientUnit [] (ascii "x.scope") [] [] [])).recorded (ascii "x.scope") = none := by
    decide +kernel
  rw [hn] at hrec
  cases hrec

end Shim
