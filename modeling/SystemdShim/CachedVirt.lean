import SystemdShim.Detection
import SystemdShim.Lib.Machine
import SystemdShim.Lib.Rely

/- detect_virtualization over the calls of a process, in surroundings that may
   be others at each call. Containers come before virtual machines; the first
   answer that is no error is remembered, and no later call looks again
   (`virtualization_answers`). Whatever is opened or allocated on the way is
   closed or freed, once (`detection_balanced`). -/
namespace Shim
open Effects

/-- What the surroundings `ω` say, with the name that goes with it. -/
def virtualizationIn (ω : ∀ a, SysAns a) : Except Errno (Int × Option Bytes) :=
  if ω .geteuid ≠ 0 then .error eperm
  else match containerIn ω with
    | some name => .ok (virtualizationContainer, some name)
    | none => (vmIn ω).map (fun vm => match vm with
      | some name => (virtualizationVm, some name)
      | none => (virtualizationNone, none))

/-- The answer of a call that finds this: an error leaves `id` alone. -/
def answerTo (id : Option Bytes) : Except Errno (Int × Option Bytes) → Int × Option Bytes
  | .error errno => (errno.neg, id)
  | .ok (v, name) => (v, if v > 0 then name else id)

/-- A finding is none of the three, or one with a name of its own. -/
theorem virtualizationIn_name {ω : ∀ a, SysAns a} {v : Int} {name : Option Bytes}
    (h : virtualizationIn ω = .ok (v, name)) :
    v = virtualizationNone ∨ (∃ n ∈ containerNames, v = virtualizationContainer ∧ name = some n) ∨
      ∃ n ∈ vmNames, v = virtualizationVm ∧ name = some n := by
  unfold virtualizationIn at h
  split at h
  · cases h
  · split at h
    · rename_i n hn
      obtain ⟨rfl, rfl⟩ := Prod.mk.inj (Except.ok.inj h)
      exact .inr (.inl ⟨n, containerIn_name hn, rfl, rfl⟩)
    · cases hvm : vmIn ω with
      | error errno => rw [hvm] at h; cases h
      | ok vm =>
        rw [hvm] at h
        cases vm with
        | none =>
          obtain ⟨rfl, rfl⟩ := Prod.mk.inj (Except.ok.inj h)
          exact .inl rfl
        | some n =>
          obtain ⟨rfl, rfl⟩ := Prod.mk.inj (Except.ok.inj h)
          exact .inr (.inr ⟨n, vmIn_name hvm, rfl, rfl⟩)

theorem virtualizationIn_nonneg {ω : ∀ a, SysAns a} {v : Int} {name : Option Bytes}
    (h : virtualizationIn ω = .ok (v, name)) : 0 ≤ v := by
  rcases virtualizationIn_name h with rfl | ⟨_, -, rfl, -⟩ | ⟨_, -, rfl, -⟩ <;> decide

section Results
variable (ω : ∀ a, SysAns a) (id : Option Bytes) (s : Statics)

theorem result_virtualizationOf : virtualizationOf.result ω s =
    .ok (match virtualizationIn ω with
      | .error errno => (errno.neg, none)
      | .ok found => found, s) := by
  unfold virtualizationOf virtualizationIn
  rw [Proc.result_bind_ok _ _ (result_detectContainer ω none s)]
  by_cases hroot : ω .geteuid ≠ 0
  · rw [if_pos hroot, if_pos hroot]
    exact congrArg (fun x => Proc.result ω x s) (if_pos eperm.neg_lt)
  · rw [if_neg hroot, if_neg hroot]
    cases containerIn ω with
    | some name => rfl
    | none =>
      show Proc.result ω (detectVm none >>= _) s = _
      rw [Proc.result_bind_ok _ _ (result_detectVm ω none s)]
      rcases vmIn ω with errno | _ | name
      · exact congrArg (fun x => Proc.result ω x s) (if_pos errno.neg_lt)
      · rfl
      · rfl

theorem result_finishVirtualization (v : Int) (name : Option Bytes) :
    (finishVirtualization v name id).result ω s = .ok ((v, if v > 0 then name else id),
      { s with
        cachedVirt := if v ≥ 0 then v else s.cachedVirt
        cachedId := if v > 0 then name else s.cachedId }) := by
  unfold finishVirtualization
  by_cases hpos : v > 0
  · have hv : v ≥ 0 := Int.le_of_lt hpos
    simp only [hpos, hv, if_true]
    rfl
  · by_cases hv : v ≥ 0
    · simp only [hpos, hv, if_true, if_false]
      rfl
    · simp only [hpos, hv, if_false]
      rfl

/-- The statics once a finding is remembered. -/
def Statics.remember (s : Statics) (v : Int) (name : Option Bytes) : Statics :=
  { s with cachedVirt := v, cachedId := if v > 0 then name else s.cachedId }

/-- With nothing remembered the surroundings are asked, and an error is not
remembered. -/
theorem result_detectVirtualization (h : s.cachedVirt < 0) :
    (detectVirtualization id).result ω s = .ok (answerTo id (virtualizationIn ω),
      match virtualizationIn ω with
      | .error _ => s
      | .ok (v, name) => s.remember v name) := by
  unfold detectVirtualization
  rw [Proc.result_bind_ok _ _ (Proc.result_get ω s), if_neg (Int.not_le.mpr h),
    Proc.result_bind_ok _ _ (result_virtualizationOf ω s)]
  cases hv : virtualizationIn ω with
  | error errno =>
    show Proc.result ω (finishVirtualization errno.neg none id) s = _
    rw [result_finishVirtualization]
    have hneg := errno.neg_lt
    simp only [ge_iff_le, gt_iff_lt, Int.not_le.mpr hneg, Int.not_lt.mpr (Int.le_of_lt hneg),
      if_false, answerTo]
  | ok found =>
    obtain ⟨v, name⟩ := found
    show Proc.result ω (finishVirtualization v name id) s = _
    rw [result_finishVirtualization]
    simp only [ge_iff_le, virtualizationIn_nonneg hv, if_true, answerTo, Statics.remember]

/-- With a finding remembered the call does nothing. -/
theorem exec_detectVirtualization (h : 0 ≤ s.cachedVirt) :
    ((detectVirtualization id).run s).exec ω =
      ([], .ok ((s.cachedVirt, if s.cachedVirt > 0 then s.cachedId else id), s)) := by
  show Prog.exec ω ((if s.cachedVirt ≥ 0 then _ else _ : SysM (Int × Option Bytes)) s) = _
  rw [if_pos h]
  rfl

end Results

/-! Calls one after the other. -/

/-- A call, in its surroundings, with what `id` points to before. -/
structure VirtCall where
  ω : (a : SysAct) → SysAns a
  id : Option Bytes

def VirtCall.exec (c : VirtCall) (s : Statics) :
    SysTrace × Except SysHalt ((Int × Option Bytes) × Statics) :=
  ((detectVirtualization c.id).run s).exec c.ω

def virtStep (s : Statics) (c : VirtCall) : Option Statics := (c.exec s).2.toOption.map (·.2)

/-- The first finding that was no error. -/
def remembered (cs : List VirtCall) : Option (Int × Option Bytes) :=
  cs.findSome? (fun c => (virtualizationIn c.ω).toOption)

/-- The statics hold the first finding, if there was one. -/
def Remembers (s : Statics) : Option (Int × Option Bytes) → Prop
  | none => s.cachedVirt < 0
  | some (v, name) => 0 ≤ v ∧ s.cachedVirt = v ∧ (v > 0 → s.cachedId = name)

theorem remembers_step {s : Statics} {cs : List VirtCall} (h : Remembers s (remembered cs))
    (c : VirtCall) : ∃ s', virtStep s c = some s' ∧ Remembers s' (remembered (cs ++ [c])) := by
  unfold virtStep VirtCall.exec
  have hsnoc : remembered (cs ++ [c]) =
      (remembered cs).or (virtualizationIn c.ω).toOption := by
    simp [remembered, List.findSome?_append]
  rw [hsnoc]
  cases hr : remembered cs with
  | some found =>
    rw [hr] at h
    obtain ⟨v, name⟩ := found
    obtain ⟨hv, hcached, hid⟩ := h
    rw [exec_detectVirtualization c.ω c.id s (by omega)]
    exact ⟨s, rfl, hv, hcached, hid⟩
  | none =>
    rw [hr] at h
    have hres := result_detectVirtualization c.ω c.id s h
    unfold Proc.result at hres
    rw [hres]
    cases hv : virtualizationIn c.ω with
    | error errno => exact ⟨s, rfl, h⟩
    | ok found =>
      obtain ⟨v, name⟩ := found
      refine ⟨_, rfl, virtualizationIn_nonneg hv, rfl, fun hpos => ?_⟩
      simp [Statics.remember, hpos]

/-- Over the calls of a process, in any surroundings: the first finding that is
no error is the answer from then on, and the calls after it do nothing. Until
then each call answers by what it finds, and an error leaves `id` as it was. -/
theorem virtualization_answers (cs : List VirtCall) (c : VirtCall) :
    ∃ s, Runs.run virtStep {} cs = some s ∧
      (∀ found, remembered cs = some found →
        c.exec s = ([], .ok (answerTo c.id (.ok found), s))) ∧
      (remembered cs = none →
        ∃ s', (c.exec s).2 = .ok (answerTo c.id (virtualizationIn c.ω), s')) := by
  have hrun : ∃ s, Runs.run virtStep {} cs = some s ∧ Remembers s (remembered cs) := by
    induction cs using List.reverseRecOn with
    | nil => exact ⟨{}, rfl, (by decide : (-1 : Int) < 0)⟩
    | append_singleton cs c ih =>
      obtain ⟨s, hs, hr⟩ := ih
      obtain ⟨s', hstep, hr'⟩ := remembers_step hr c
      exact ⟨s', by rw [Runs.run_snoc, hs]; exact hstep, hr'⟩
  obtain ⟨s, hs, hr⟩ := hrun
  refine ⟨s, hs, ?_, ?_⟩
  · intro found hfound
    rw [hfound] at hr
    obtain ⟨v, name⟩ := found
    obtain ⟨hv, hcached, hid⟩ := hr
    unfold VirtCall.exec
    rw [exec_detectVirtualization c.ω c.id s (by omega), hcached]
    by_cases hpos : v > 0
    · simp only [answerTo, hpos, if_true, hid hpos]
    · simp only [answerTo, hpos, if_false]
  · intro hnone
    rw [hnone] at hr
    exact ⟨_, result_detectVirtualization c.ω c.id s hr⟩

/-! What is held on the way. -/

/-- An open stream, or a string on the heap, by the file it is for. -/
inductive Resource where
  | stream (path : String)
  | string (fn : String)
  deriving DecidableEq

def holdings : Surroundings SysAns (List Resource) where
  moves held held' := held' = held
  answer held
    | ⟨.fopen path, .ok _⟩ => some (.stream path :: held)
    | ⟨.fclose path, _⟩ => some (held.erase (.stream path))
    | ⟨.strdup fn _, true⟩ => some (.string fn :: held)
    | ⟨.free fn, _⟩ => some (held.erase (.string fn))
    | _ => some held
  permits held
    | .read path => .stream path ∈ held
    | .fclose path => .stream path ∈ held
    | .touch fn => .string fn ∈ held
    | .free fn => .string fn ∈ held
    -- the bus and the shim's own acts are none of detect_virtualization's
    | .shim _ => False
    | .connect => False
    | .getApiVersion => False
    | .callSync _ => False
    | _ => True
  refl _ := rfl
  trans h h' := h'.trans h

/-- From `pre` and whatever else is held, the program uses and gives back only
what is held, leaves the statics alone, returns what `P` says, and then holds `post`
instead of `pre`. -/
def Holds {α : Type} (pre : List Resource) (x : SysM α) (post : α → List Resource)
    (P : α → Prop) : Prop :=
  ∀ s held, x.safe holdings s (pre ++ held)
    (fun o held' => ∃ a s', o = .ok (a, s') ∧ s' = s ∧ held' = post a ++ held ∧ P a)

/-- Nothing is said about what is returned. -/
def Any {α : Type} : α → Prop := fun _ => True

/-- A container or a virtual machine comes with one of the names. -/
def KnownByName (r : Int × Option Bytes) : Prop :=
  0 < r.1 → ∃ n ∈ containerNames ++ vmNames, r.2 = some n

theorem named_of_le {r : Int × Option Bytes} (h : r.1 ≤ 0) : KnownByName r :=
  fun hpos => absurd hpos (Int.not_lt.mpr h)

namespace Holds
variable {α β : Type} {pre : List Resource}

theorem pure {a : α} {post : α → List Resource} {P : α → Prop} (h : post a = pre) (hP : P a) :
    Holds pre (Pure.pure a : SysM α) post P := by
  intro s held held' hm
  exact ⟨a, s, rfl, rfl, by rw [h]; exact hm, hP⟩

theorem bind {x : SysM α} {f : α → SysM β} {mid : α → List Resource} {post : β → List Resource}
    {P : α → Prop} {P' : β → Prop} (hx : Holds pre x mid P)
    (hf : ∀ a, P a → Holds (mid a) (f a) post P') : Holds pre (x >>= f) post P' := by
  intro s held
  apply Proc.safe_seq_ok (hx s held)
  intro a s' held' h
  obtain ⟨rfl, rfl, hP⟩ := h
  exact hf a hP s' held

/-- An act that opens and closes nothing, but may use what is open. -/
theorem withOpen {a : SysAct} (hp : ∀ held, holdings.permits (pre ++ held) a)
    (ha : ∀ held r, holdings.answer held ⟨a, r⟩ = some held) :
    Holds pre (sys a) (fun _ => pre) Any := by
  intro s held held' hm
  obtain rfl := hm
  refine ⟨hp held, ?_⟩
  intro r held'' hr held''' hm'
  rw [ha] at hr
  obtain rfl := Option.some.inj hr
  exact ⟨r, s, rfl, rfl, hm', trivial⟩

theorem look {a : SysAct} (hp : ∀ held, holdings.permits held a)
    (ha : ∀ held r, holdings.answer held ⟨a, r⟩ = some held) :
    Holds pre (sys a) (fun _ => pre) Any :=
  .withOpen (fun _ => hp _) ha

theorem read {path : String} (h : .stream path ∈ pre) :
    Holds pre (sys (.read path)) (fun _ => pre) Any :=
  .withOpen (fun _ => List.mem_append_left _ h) (fun _ _ => rfl)

theorem touch {fn : String} (h : .string fn ∈ pre) :
    Holds pre (sys (.touch fn)) (fun _ => pre) Any :=
  .withOpen (fun _ => List.mem_append_left _ h) (fun _ _ => rfl)

theorem fopen (path : String) : Holds pre (sys (.fopen path)) (fun r => match r with
    | .ok _ => .stream path :: pre
    | .error _ => pre) Any := by
  intro s held held' hm
  refine ⟨trivial, ?_⟩
  intro r held'' hr held''' hm'
  obtain rfl := hm
  cases r with
  | ok f =>
    obtain rfl := Option.some.inj hr
    exact ⟨_, s, rfl, rfl, hm', trivial⟩
  | error errno =>
    obtain rfl := Option.some.inj hr
    exact ⟨_, s, rfl, rfl, hm', trivial⟩

/-- An act that gives back one thing held. -/
theorem giveBack {a : SysAct} {x : Resource} (hx : x ∈ pre)
    (hp : ∀ held, x ∈ held → holdings.permits held a)
    (ha : ∀ held r, holdings.answer held ⟨a, r⟩ = some (held.erase x)) :
    Holds pre (sys a) (fun _ => pre.erase x) Any := by
  intro s held held' hm
  obtain rfl := hm
  refine ⟨hp _ (List.mem_append_left _ hx), ?_⟩
  intro r held'' hr held''' hm'
  rw [ha] at hr
  obtain rfl := Option.some.inj hr
  exact ⟨r, s, rfl, rfl, hm'.trans (List.erase_append_left held hx), trivial⟩

theorem fclose {path : String} (h : .stream path ∈ pre) :
    Holds pre (sys (.fclose path)) (fun _ => pre.erase (.stream path)) Any :=
  giveBack h (fun _ h => h) (fun _ _ => rfl)

theorem free {fn : String} (h : .string fn ∈ pre) :
    Holds pre (sys (.free fn)) (fun _ => pre.erase (.string fn)) Any :=
  giveBack h (fun _ h => h) (fun _ _ => rfl)

theorem strdup (fn : String) (text : Bytes) :
    Holds pre (sys (.strdup fn text)) (fun r => match r with
      | true => .string fn :: pre
      | false => pre) Any := by
  intro s held held' hm
  refine ⟨trivial, ?_⟩
  intro r held'' hr held''' hm'
  obtain rfl := hm
  cases r with
  | true =>
    obtain rfl := Option.some.inj hr
    exact ⟨_, s, rfl, rfl, hm', trivial⟩
  | false =>
    obtain rfl := Option.some.inj hr
    exact ⟨_, s, rfl, rfl, hm', trivial⟩

/-- What a line that was read, or was not, leaves behind. -/
def line (fn : String) (rest : List Resource) : Except Errno Bytes → List Resource
  | .ok _ => .string fn :: rest
  | .error _ => rest

theorem copyString (fn : String) (t : Bytes) :
    Holds pre (Shim.copyString fn t) (line fn pre) Any := by
  apply bind (strdup fn _)
  intro copied _
  cases copied with
  | true => exact bind (touch (List.mem_cons_self ..)) (fun _ _ => pure rfl trivial)
  | false => exact pure rfl trivial

theorem copyLine {fn : String} (h : .stream fn ∈ pre) :
    Holds pre (Shim.copyLine fn) (line fn pre) Any := by
  apply bind (read h)
  intro f _
  cases fgets lineMax f with
  | some t => exact copyString fn t
  | none =>
    cases f.error with
    | some errno => exact pure rfl trivial
    | none => exact copyString fn []

theorem readOneLineFile (fn : String) :
    Holds pre (Shim.readOneLineFile fn) (line fn pre) Any := by
  apply bind (fopen fn)
  intro r _
  cases r with
  | error errno => exact pure rfl trivial
  | ok _ =>
    apply bind (copyLine (List.mem_cons_self ..))
    intro text _
    cases text with
    | ok t =>
      -- the copy was made while the file was open
      refine bind (fclose (List.mem_cons_of_mem _ (List.mem_cons_self ..)))
        (fun _ _ => pure ?_ trivial)
      simp [line]
    | error errno =>
      refine bind (fclose (List.mem_cons_self ..)) (fun _ _ => pure ?_ trivial)
      simp [line]

theorem dmiVendor (files : List String) : Holds pre (Shim.dmiVendor files) (fun _ => pre)
    (fun r => ∀ n, r = .ok (some n) → n ∈ vmNames) := by
  induction files with
  | nil => exact pure rfl (fun _ h => by cases h)
  | cons fn files ih =>
    apply bind (readOneLineFile fn)
    intro r _
    cases r with
    | error errno =>
      dsimp only
      split
      · exact pure rfl (fun _ h => by cases h)
      · exact ih
    | ok text =>
      simp only [dmiFound_eq, pure_bind]
      apply bind (touch (List.mem_cons_self ..))
      intro _ _
      apply bind (free (List.mem_cons_self ..))
      intro _ _
      rw [List.erase_cons_head]
      split
      · exact pure rfl (fun n h => dmiName_mem (Except.ok.inj h))
      · exact ih

theorem cpuidVendor (hypervisor : Bool) : Holds pre (Shim.cpuidVendor hypervisor) (fun _ => pre)
    (fun k => ∀ n, k = some n → n ∈ vmNames) := by
  unfold Shim.cpuidVendor
  split
  · refine bind (look (fun _ => trivial) (fun _ _ => rfl)) ?_
    intro r _
    simp only [forTable_eq, pure_bind, foldlM_first]
    cases hp : cpuidVendorTable.find? (fun p => streq (sigText r) p.key) with
    | some p =>
      refine pure rfl (fun n h => ?_)
      obtain rfl := Option.some.inj h
      exact cpuidName_mem (List.mem_of_find?_eq_some hp)
    | none => exact pure rfl (fun _ h => by cases h)
  · exact pure rfl (fun _ h => by cases h)

theorem detectVm (id : Option Bytes) : Holds pre (Shim.detectVm id) (fun _ => pre) KnownByName := by
  have named : ∀ {n : Bytes}, n ∈ vmNames → KnownByName (1, some n) :=
    fun h _ => ⟨_, List.mem_append_right _ h, rfl⟩
  refine bind (look (fun _ => trivial) (fun _ _ => rfl)) ?_
  intro r _
  apply bind (cpuidVendor _)
  intro k hk
  cases k with
  | some k => exact pure rfl (named (hk k rfl))
  | none =>
    apply bind (dmiVendor dmiVendors)
    intro found hfound
    rcases found with errno | _ | found
    · exact pure rfl (named_of_le (Int.le_of_lt errno.neg_lt))
    · dsimp only
      split
      · exact pure rfl (named (by decide))
      · exact pure rfl (named_of_le (Int.le_refl 0))
    · exact pure rfl (named (hfound found rfl))

theorem runningInChroot : Holds pre Shim.runningInChroot (fun _ => pre) Any := by
  refine bind (look (fun _ => trivial) (fun _ _ => rfl)) ?_
  intro a _
  cases a with
  | error errno => exact pure rfl trivial
  | ok a =>
    refine bind (look (fun _ => trivial) (fun _ _ => rfl)) ?_
    intro b _
    cases b with
    | error errno => exact pure rfl trivial
    | ok b => exact pure rfl trivial

theorem openvz : Holds pre Shim.openvz (fun _ => pre) Any := by
  refine bind (look (fun _ => trivial) (fun _ _ => rfl)) ?_
  intro vz _
  split
  · exact bind (look (fun _ => trivial) (fun _ _ => rfl)) (fun _ _ => pure rfl trivial)
  · exact pure rfl trivial

theorem detectContainer (id : Option Bytes) :
    Holds pre (Shim.detectContainer id) (fun _ => pre) KnownByName := by
  have unnamed : KnownByName (0, id) := named_of_le (Int.le_refl 0)
  have named : ∀ {n : Bytes}, n ∈ containerNames → KnownByName (1, some n) :=
    fun h _ => ⟨_, List.mem_append_left _ h, rfl⟩
  refine bind (look (fun _ => trivial) (fun _ _ => rfl)) ?_
  intro euid _
  split
  · exact pure rfl (named_of_le (Int.le_of_lt eperm.neg_lt))
  · apply bind runningInChroot
    intro r _
    split
    · exact pure rfl (named (by decide))
    · apply bind openvz
      intro vz _
      split
      · exact pure rfl (named (by decide))
      · apply bind (fopen _)
        intro r _
        cases r with
        | error errno => exact pure rfl unnamed
        | ok _ =>
          apply bind (read (List.mem_cons_self ..))
          intro f _
          simp only [scanEnviron_eq _ f.bytes (Nat.lt_succ_self _), checked_ok, pure_bind]
          apply bind (fclose (List.mem_cons_self ..))
          intro _ _
          rw [List.erase_cons_head]
          cases hname : (environLines f.bytes).findSome? containerOf with
          | none => exact pure rfl unnamed
          | some name =>
            obtain ⟨e, -, he⟩ := List.exists_of_findSome?_eq_some hname
            exact pure rfl (named (containerOf_name he))

theorem virtualizationOf : Holds pre Shim.virtualizationOf (fun _ => pre) KnownByName := by
  apply bind (detectContainer none)
  rintro ⟨r, name⟩ hname
  dsimp only
  split
  · exact pure rfl hname
  · split
    · rename_i hr
      exact pure rfl (fun _ => hname hr)
    · apply bind (detectVm _)
      rintro ⟨r, name⟩ hname
      dsimp only
      split
      · exact pure rfl hname
      · split
        · rename_i hr
          exact pure rfl (fun _ => hname hr)
        · exact pure rfl (named_of_le (Int.le_refl 0))

end Holds

/-- How a call from the statics `s` may end, whatever it meets: by what is
remembered; by an error, which is not remembered; or by a finding, which is. -/
inductive Detected (s : Statics) (id : Option Bytes) : Int × Option Bytes → Statics → Prop
  | remembered (h : 0 ≤ s.cachedVirt) :
      Detected s id (s.cachedVirt, if s.cachedVirt > 0 then s.cachedId else id) s
  | error (h : s.cachedVirt < 0) {v : Int} (hv : v < 0) : Detected s id (v, id) s
  | found (h : s.cachedVirt < 0) {v : Int} {name : Option Bytes} (hv : 0 ≤ v)
      (hname : KnownByName (v, name)) :
      Detected s id (v, if v > 0 then name else id) (s.remember v name)

theorem safe_detectVirtualization (id : Option Bytes) (s : Statics) (held : List Resource) :
    (detectVirtualization id).safe holdings s held
      (fun o held' => ∃ r s', o = .ok (r, s') ∧ held' = held ∧ Detected s id r s') := by
  refine (Proc.safe_get_bind _).mpr ?_
  by_cases h : s.cachedVirt ≥ 0
  · rw [if_pos h]
    intro held' hm
    exact ⟨_, s, rfl, hm, .remembered h⟩
  · rw [if_neg h]
    have hneg : s.cachedVirt < 0 := Int.not_le.mp h
    have hof : Holds [] virtualizationOf (fun _ => []) KnownByName := Holds.virtualizationOf
    apply Proc.safe_seq_ok (hof s held)
    intro r s' held' hr
    obtain ⟨rfl, rfl, hname⟩ := hr
    obtain ⟨v, name⟩ := r
    intro held'' hm
    refine ⟨_, _, rfl, hm, ?_⟩
    by_cases hv : v ≥ 0
    · by_cases hpos : v > 0
      · have := @Detected.found _ id hneg v name hv hname
        simpa [hv, hpos, Statics.remember] using this
      · have := @Detected.found _ id hneg v name hv hname
        simpa [hv, hpos, Statics.remember] using this
    · have hpos : ¬ v > 0 := fun h => hv (Int.le_of_lt h)
      have := @Detected.error _ id hneg v (Int.not_le.mp hv)
      simpa [hv, hpos] using this

theorem holdings_total (held : List Resource) (e : Event SysAns) :
    ∃ held', holdings.answer held e = some held' := by
  obtain ⟨a, r⟩ := e
  cases a with
  | fopen path => cases r <;> exact ⟨_, rfl⟩
  | strdup fn text => cases r <;> exact ⟨_, rfl⟩
  | _ => exact ⟨_, rfl⟩

/-- The same of every run, with nothing said about what is held. -/
theorem wp_detectVirtualization (id : Option Bytes) (s : Statics) :
    (detectVirtualization id).wp s (fun t o => (∀ e ∈ t, ∃ held, holdings.permits held e.1) ∧
      ∃ r s', o = .ok (r, s') ∧ Detected s id r s') := by
  apply Prog.wp_mono (Prog.wp_of_safe holdings_total (safe_detectVirtualization id s []))
  intro t o h
  obtain ⟨ht, -, r, s', ho, -, hd⟩ := h
  exact ⟨ht, r, s', ho, hd⟩

/-! The calls of a process. -/

def knownNames : List Bytes := containerNames ++ vmNames

/-- What is remembered of a container or a virtual machine has a name. -/
def Statics.Valid (s : Statics) : Prop :=
  0 < s.cachedVirt → ∃ n ∈ knownNames, s.cachedId = some n

/-- An error or nothing, which leaves `id` alone, or one of the names. -/
def Answered (id : Option Bytes) (r : Int × Option Bytes) : Prop :=
  (r.1 ≤ 0 ∧ r.2 = id) ∨ 0 < r.1 ∧ ∃ n ∈ knownNames, r.2 = some n

theorem Detected.answered {s s' : Statics} {id : Option Bytes} {r : Int × Option Bytes}
    (h : Detected s id r s') (hv : s.Valid) : Answered id r ∧ s'.Valid := by
  cases h with
  | remembered h =>
    refine ⟨?_, hv⟩
    by_cases hpos : s.cachedVirt > 0
    · exact .inr ⟨hpos, by simpa only [if_pos hpos] using hv hpos⟩
    · exact .inl ⟨Int.not_lt.mp hpos, if_neg hpos⟩
  | error h hneg => exact ⟨.inl ⟨Int.le_of_lt hneg, rfl⟩, hv⟩
  | @found h v name hnonneg hname =>
    by_cases hpos : v > 0
    · obtain ⟨n, hn, rfl⟩ := hname hpos
      exact ⟨.inr ⟨hpos, n, hn, if_pos hpos⟩, fun _ => ⟨n, hn, if_pos hpos⟩⟩
    · exact ⟨.inl ⟨Int.not_lt.mp hpos, if_neg hpos⟩, fun h => absurd h hpos⟩

/-- Any number of calls in a fresh process, whatever comes back, and whatever else
is held: a stream is read and closed only while it is open, a string used and freed
only while it is allocated, no buffer is overrun, every call returns, and then what
was held before is held, and nothing else. Each answer is an error, nothing, or a
known name. -/
theorem detection_balanced (ids : List (Option Bytes)) (connection initialised : Bool)
    (held : List Resource) :
    (ids.mapM detectVirtualization).safe holdings
      { connection := connection, initialised := initialised } held
      (fun o held' => ∃ rs s', o = .ok (rs, s') ∧ held' = held ∧
        List.Forall₂ Answered ids rs) := by
  have hfrom : ∀ s : Statics, s.Valid → (ids.mapM detectVirtualization).safe holdings s held
      (fun o held' => ∃ rs s', o = .ok (rs, s') ∧ held' = held ∧
        List.Forall₂ Answered ids rs) := by
    induction ids with
    | nil => exact fun s _ held' hm => ⟨[], s, rfl, hm, .nil⟩
    | cons id ids ih =>
      intro s hv
      rw [List.mapM_cons]
      apply Proc.safe_seq_ok (safe_detectVirtualization id s held)
      intro r s' held' h
      obtain ⟨rfl, hd⟩ := h
      obtain ⟨hr, hv'⟩ := hd.answered hv
      apply Proc.safe_seq_ok (ih s' hv')
      intro rs s'' held'' h
      obtain ⟨rfl, hrs⟩ := h
      exact fun held''' hm => ⟨r :: rs, s'', rfl, hm, .cons hr hrs⟩
  exact hfrom _ (fun h => absurd h (by decide : ¬ (0 : Int) < -1))

end Shim
