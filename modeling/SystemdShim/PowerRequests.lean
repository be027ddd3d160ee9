import SystemdShim.MainLoop
import SystemdShim.SleepDebounce

/- What requests do to the power of the machine. Only StartUnit of a power unit does
   anything to it, and only what the unit stands for. So over all the requests that a
   process serves, what is carried out is what was asked for, in order, with nothing
   but sleeps left out, and no descriptor is used that is not open or left open
   (`power_as_asked`). -/
namespace Shim
open Effects

/-- Power off, reboot or sleep, as far as an act brings it about. -/
def carriesOut : Act → Option PowerAction
  | .system command =>
    [PowerAction.off, .reboot, .suspend, .hibernate].find?
      (fun action => powerCmds action = command)
  | .write _ text =>
    if text = "mem" then some .suspend else if text = "disk" then some .hibernate else none
  | _ => none

def carriedOut (t : ShimTrace) : List PowerAction := t.filterMap (fun e => carriesOut e.1)

def isShutdown (action : PowerAction) : Bool := action == .off || action == .reboot

/-- The open descriptors after an act, if it uses none but those. -/
def descriptors (fds : List Int) : Event Ans → Option (List Int)
  | ⟨.openForWriting _, fd⟩ => if fd = (-1 : Int) then some fds else some (fd :: fds)
  | ⟨.write fd _, _⟩ => if fd ∈ fds then some fds else none
  | ⟨.close fd, _⟩ => if fd ∈ fds then some (fds.erase fd) else none
  | _ => some fds

/-- What the power actions `asked` for come to. -/
structure Carries (asked : List PowerAction) (t : ShimTrace) : Prop where
  sublist : (carriedOut t).Sublist asked
  closed : ∀ fds, t.foldlM descriptors fds = some fds

/-- Of what was asked for, only sleeps have been left out. -/
def AllShutdowns (asked : List PowerAction) (t : ShimTrace) : Prop :=
  (carriedOut t).filter isShutdown = asked.filter isShutdown

@[simp] theorem carriedOut_append (t t' : ShimTrace) :
    carriedOut (t ++ t') = carriedOut t ++ carriedOut t' := List.filterMap_append ..

theorem carriedOut_skip {a : Act} (h : carriesOut a = none) (r : Ans a) (t : ShimTrace) :
    carriedOut (⟨a, r⟩ :: t) = carriedOut t := List.filterMap_cons_none h

theorem carriedOut_take {a : Act} {action : PowerAction} (h : carriesOut a = some action)
    (r : Ans a) (t : ShimTrace) : carriedOut (⟨a, r⟩ :: t) = action :: carriedOut t :=
  List.filterMap_cons_some h

theorem Carries.append {asked asked' : List PowerAction} {t t' : ShimTrace} (h : Carries asked t)
    (h' : Carries asked' t') : Carries (asked ++ asked') (t ++ t') where
  sublist := by
    rw [carriedOut_append]
    exact h.sublist.append h'.sublist
  closed fds := by
    rw [List.foldlM_append, h.closed fds]
    exact h'.closed fds

theorem Carries.weaken {asked more : List PowerAction} {t : ShimTrace} (h : Carries asked t) :
    Carries (asked ++ more) t :=
  ⟨h.sublist.trans (List.sublist_append_left _ _), h.closed⟩

theorem AllShutdowns.append {asked asked' : List PowerAction} {t t' : ShimTrace}
    (h : AllShutdowns asked t) (h' : AllShutdowns asked' t') :
    AllShutdowns (asked ++ asked') (t ++ t') := by
  unfold AllShutdowns at h h' ⊢
  rw [carriedOut_append, List.filter_append, List.filter_append, h, h']

/-! One start of a power unit. -/

theorem carriesOut_cmd (action : PowerAction) :
    carriesOut (.system (powerCmds action)) = some action := by
  cases action <;> decide

theorem carriesOut_kind {action : PowerAction} (h : action = .suspend ∨ action = .hibernate)
    (fd : Int) : carriesOut (.write fd (if action = .suspend then "mem" else "disk")) =
      some action := by
  obtain rfl | rfl := h <;> rfl

theorem carriedOut_clockEvents (action : PowerAction) (now : Int) :
    carriedOut (clockEvents action now) = [] := by
  unfold clockEvents
  split <;> rfl

theorem closed_clockEvents (action : PowerAction) (now : Int) (fds : List Int) :
    (clockEvents action now).foldlM descriptors fds = some fds := by
  unfold clockEvents
  split <;> rfl

theorem carries_clockEvents (action : PowerAction) (now : Int) :
    Carries [] (clockEvents action now) :=
  ⟨by rw [carriedOut_clockEvents], closed_clockEvents action now⟩

theorem SleepRun.carries {action : PowerAction} (ha : action = .suspend ∨ action = .hibernate)
    {p p' : Process} {t : ShimTrace} (h : SleepRun action p t p') : Carries [action] t := by
  have between : ∀ {now after : Int} {t : ShimTrace}, Carries [action] t →
      Carries [action] (clockEvents action now ++ t ++ clockEvents action after) := by
    intro now after t ht
    have := ((carries_clockEvents action now).append ht).append (carries_clockEvents action after)
    simpa using this
  cases h with
  | justNow now _ _ => exact ⟨List.nil_sublist _, fun _ => rfl⟩
  | command now status after _ =>
    apply between
    refine ⟨?_, fun _ => rfl⟩
    have hout : carriedOut [⟨.testExecutable (powerCmds action), true⟩,
        ⟨.system (powerCmds action), status⟩] = [action] := by
      rw [carriedOut_skip rfl, carriedOut_take (carriesOut_cmd action)]
      rfl
    rw [hout]
  | noFile now _ =>
    have hnone : Carries [action] [⟨.testExecutable (powerCmds action), false⟩,
        ⟨.openForWriting "/sys/power/state", (-1 : Int)⟩] :=
      ⟨List.nil_sublist _, fun _ => rfl⟩
    exact (carries_clockEvents action now).append hnone
  | file now fd written after _ hfd =>
    apply between
    refine ⟨?_, fun fds => ?_⟩
    · have hout : carriedOut [⟨.testExecutable (powerCmds action), false⟩,
          ⟨.openForWriting "/sys/power/state", fd⟩,
          ⟨.write fd (if action = .suspend then "mem" else "disk"), written⟩, ⟨.close fd, ()⟩] =
          [action] := by
        rw [carriedOut_skip rfl, carriedOut_skip rfl, carriedOut_take (carriesOut_kind ha fd)]
        rfl
      rw [hout]
    · -- the descriptor is open from the open to the close
      simp [descriptors, hfd]

/-- Where only a sleep was asked for, no more is missing. -/
theorem Carries.allShutdowns {action : PowerAction} {t : ShimTrace} (h : Carries [action] t)
    (ha : isShutdown action = false) : AllShutdowns [action] t := by
  have hnil : [action].filter isShutdown = [] := by simp [ha]
  have hsub := h.sublist.filter isShutdown
  unfold AllShutdowns
  rw [hnil] at hsub ⊢
  exact List.sublist_nil.mp hsub

theorem wp_powerUnitStart (action : PowerAction) (p : Process) : (powerUnitStart action).wp p
    (fun t o => ∃ u p', o = .ok (u, p') ∧ Carries [action] t ∧ AllShutdowns [action] t) := by
  by_cases hoff : action = .off ∨ action = .reboot
  · unfold powerUnitStart
    rw [if_pos hoff]
    intro pid saved status
    have hout : carriedOut [⟨.getpid, pid⟩,
        ⟨.fileSetContents "/run/sendsigs.omit.d/systemd-shim.pid" (ascii (toString pid)), saved⟩,
        ⟨.system (powerCmds action), status⟩] = [action] := by
      rw [carriedOut_skip rfl, carriedOut_skip rfl, carriedOut_take (carriesOut_cmd action)]
      rfl
    refine ⟨(), _, rfl, ⟨?_, fun _ => rfl⟩, congrArg (List.filter isShutdown) hout⟩
    exact hout ▸ List.Sublist.refl _
  · obtain ⟨hsleep, hnot⟩ : (action = .suspend ∨ action = .hibernate) ∧
        isShutdown action = false := by
      cases action <;> simp_all [isShutdown]
    have hdone : ∀ {t : ShimTrace}, Carries [action] t →
        Carries [action] t ∧ AllShutdowns [action] t := fun h => ⟨h, h.allShutdowns hnot⟩
    cases hp : p.inShutdown with
    | true =>
      unfold powerUnitStart
      rw [if_neg hoff, Proc.wp_bind, Proc.wp_get, Proc.andThen_ok, hp]
      exact ⟨(), p, rfl, hdone ⟨List.nil_sublist _, fun _ => rfl⟩⟩
    | false =>
      apply Proc.wp_mono (wp_powerUnitStart_sleep hsleep hp)
      intro t o ho
      obtain ⟨p', rfl, hrun⟩ := ho
      exact ⟨(), p', rfl, hdone (hrun.carries hsleep)⟩

/-! Everything else. -/

/-- A program that has nothing to do with the power. -/
def Apart {α : Type} (x : ShimM α) : Prop :=
  Proc.Keeps (fun _ : Process => True) (fun e => isPowerAct e.1 = false) (fun _ => True) x

theorem closed_apart {t : ShimTrace} (h : ∀ e ∈ t, isPowerAct e.1 = false) (fds : List Int) :
    t.foldlM descriptors fds = some fds := by
  induction t with
  | nil => rfl
  | cons e t ih =>
    rw [List.forall_mem_cons] at h
    have he : descriptors fds e = some fds := by
      obtain ⟨a, r⟩ := e
      cases a with
      | openForWriting file => cases h.1
      | write fd text => cases h.1
      | close fd => cases h.1
      | _ => rfl
    rw [List.foldlM_cons, he]
    exact ih h.2

theorem carries_apart {t : ShimTrace} (h : ∀ e ∈ t, isPowerAct e.1 = false) :
    Carries [] t ∧ AllShutdowns [] t := by
  have hout : carriedOut t = [] := by
    apply List.filterMap_eq_nil_iff.mpr
    intro e he
    have := h e he
    obtain ⟨a, r⟩ := e
    cases a <;> first | rfl | cases this
  refine ⟨⟨?_, closed_apart h⟩, ?_⟩
  · rw [hout]
  · rw [AllShutdowns, hout]

theorem apart_footprint {α : Type} {allowed : Act → Bool} {changes : Process → Process → Prop}
    {x : ShimM α} (hx : Proc.Footprint allowed changes x)
    (ha : ∀ a, allowed a = true → isPowerAct a = false) : Apart x :=
  hx.keeps (fun _ _ _ _ => trivial) (fun e => ha e.1)

theorem apart_act {a : Act} (ha : isPowerAct a = false) : Apart (act a) := .act (fun _ => ha)

theorem isPowerAct_of_isInquiry {a : Act} (h : isInquiry a = true) : isPowerAct a = false := by
  cases a <;> first | rfl | cases h

theorem isPowerAct_of_isHousekeeping {a : Act} (h : isHousekeeping a = true) :
    isPowerAct a = false := by
  cases a <;> first | rfl | cases h

theorem isPowerAct_of_isCgroupAct {a : Act} (h : isCgroupAct a = true) : isPowerAct a = false := by
  cases a <;> first | rfl | cases h

theorem closed_powerless : Closed (fun _ x => Apart x) where
  pure a := .pure a
  bind := .bind
  halt _ := .halt trivial
  inquiry hx := apart_footprint hx (fun _ => isPowerAct_of_isInquiry)
  hadActivity := apart_footprint Housekeeping.hadActivity (fun _ => isPowerAct_of_isHousekeeping)
  cgroup hx := apart_footprint hx (fun _ => isPowerAct_of_isCgroupAct)
  returnValue _ := apart_act rfl
  returnGError _ := apart_act rfl
  emitSignal _ _ _ := apart_act rfl

/-- Only StartUnit of a power unit has to do with the power. -/
theorem apart_handle {systemdVersion : Nat} {r : Request} (h : r.startsPower = none) :
    Apart (r.handle systemdVersion) := by
  refine closed_powerless.pieces.handle r ?_
    (fun usingNtp _ => closed_powerless.inquiry (.ntpUnitSwitch usingNtp))
  intro action ha
  cases h.symm.trans ha

theorem startsPower_manager {sender : Bytes} {methodName : String} {parameters : List Variant}
    {action : PowerAction}
    (h : (Request.manager sender methodName parameters).startsPower = some action) :
    methodName = "StartUnit" ∧ ∃ name, (parameters[0]? : Option Variant) = some (.string name) ∧
      unitOfName name false = some (.power action) := by
  simp only [Request.startsPower] at h
  split at h
  · rename_i hmethod
    refine ⟨hmethod, ?_⟩
    split at h
    · rename_i name hname
      refine ⟨name, hname, ?_⟩
      split at h
      · rename_i action' hunit
        obtain rfl := Option.some.inj h
        exact hunit
      · cases h
    · cases h
  · cases h

/-- The start of a power unit carries out its action, if anything. -/
def PowerDone {α : Type} (asked : List PowerAction) (t : ShimTrace)
    (o : Except Halt (α × Process)) : Prop :=
  Carries asked t ∧ ∀ q, o = .ok q → AllShutdowns asked t

theorem Apart.done {α : Type} {x : ShimM α} (hx : Apart x) (p : Process) :
    x.wp p (PowerDone []) := by
  apply Proc.wp_mono (hx p trivial)
  intro t o ho
  obtain ⟨hcarries, hall⟩ := carries_apart ho.1
  exact ⟨hcarries, fun _ _ => hall⟩

/-- One part after the other. -/
theorem wp_powerDone {α β : Type} {asked asked' : List PowerAction} {x : ShimM α} {f : α → ShimM β}
    {p : Process} (hx : x.wp p (PowerDone asked)) (hf : ∀ a p, (f a).wp p (PowerDone asked')) :
    (x >>= f).wp p (PowerDone (asked ++ asked')) := by
  apply Proc.wp_seq hx
  · intro t a p' h
    apply Proc.wp_mono (hf a p')
    intro t' o h'
    exact ⟨h.1.append h'.1, fun q hq => (h.2 _ rfl).append (h'.2 q hq)⟩
  · intro t x h
    exact ⟨h.1.weaken, nofun⟩

theorem wp_startUnit_power {sender name : Bytes} {parameters : List Variant} {action : PowerAction}
    (hname : (parameters[0]? : Option Variant) = some (.string name))
    (hunit : unitOfName name false = some (.power action)) (p : Process) :
    (startUnit sender parameters).wp p (PowerDone [action]) := by
  have hlookup : (lookupUnit name).wp p (fun t o => PowerDone [] t o ∧
      ∃ r p', o = .ok (r, p') ∧ r = .ok (.power action)) :=
    Prog.wp_and ((closed_powerless.inquiry (.lookupUnit name)).done p)
      (wp_lookupUnit_power hunit p)
  unfold startUnit withUnit getChildString
  rw [hname, pure_bind]
  apply Proc.wp_seq hlookup
  · intro t r p' h
    obtain ⟨hnone, _, _, he, rfl⟩ := h
    obtain ⟨rfl, rfl⟩ := Prod.mk.inj (Except.ok.inj he)
    have hstart : (Shim.unitStart (.power action)).wp p' (PowerDone [action]) := by
      apply Proc.wp_mono (wp_powerUnitStart action p')
      intro t o ho
      obtain ⟨_, _, rfl, hcarries, hall⟩ := ho
      exact ⟨hcarries, fun _ _ => hall⟩
    have hrest : Apart (do
        act (.returnValue [.o (ascii "/")])
        act (.emitSignal (some sender) "JobRemoved" [.u 0, .o (ascii "/"), .s [], .s []])
        pure (none : Option GError) : ShimM (Option GError)) :=
      .bind (apart_act rfl) (fun _ => .bind (apart_act rfl) (fun _ => .pure _))
    simp only [bind_assoc]
    apply Proc.wp_mono (wp_powerDone hstart (fun _ p => hrest.done p))
    intro t' o h'
    exact ⟨hnone.1.append h'.1, fun q hq => (hnone.2 _ rfl).append (h'.2 q hq)⟩
  · intro t x h
    exact ⟨h.1.1.weaken, nofun⟩

theorem wp_startsPower {systemdVersion : Nat} {r : Request} {action : PowerAction}
    (h : r.startsPower = some action) (p : Process) :
    (r.handle systemdVersion).wp p (PowerDone [action]) := by
  cases r with
  | manager sender methodName parameters =>
    obtain ⟨rfl, name, hname, hunit⟩ := startsPower_manager h
    have hrest : ∀ error, Apart (returnIfError error >>= fun _ => hadActivity) := fun error =>
      .bind (closed_powerless.pieces.returnIfError error) (fun _ => closed_powerless.hadActivity)
    exact wp_powerDone (wp_startUnit_power hname hunit p) (fun error p' => (hrest error).done p')
  | _ => cases h

/-- Over the requests that a process serves: what is carried out is what was asked
for, in order, once each; a power off or reboot that was asked for is always among
it; and every descriptor is open when it is used, and closed in the end. -/
theorem power_as_asked (systemdVersion : Nat) (rs : List Request) (p : Process) :
    (serve systemdVersion rs).wp p (PowerDone (rs.filterMap Request.startsPower)) := by
  induction rs generalizing p with
  | nil => exact ⟨⟨List.nil_sublist _, fun _ => rfl⟩, fun _ _ => rfl⟩
  | cons r rs ih =>
    cases hr : r.startsPower with
    | none =>
      rw [List.filterMap_cons_none hr]
      have h : (r.handle systemdVersion >>= fun _ => serve systemdVersion rs).wp p
          (PowerDone ([] ++ rs.filterMap Request.startsPower)) :=
        wp_powerDone ((apart_handle hr).done p) (fun _ p => ih p)
      exact h
    | some action =>
      rw [List.filterMap_cons_some hr]
      have h : (r.handle systemdVersion >>= fun _ => serve systemdVersion rs).wp p
          (PowerDone ([action] ++ rs.filterMap Request.startsPower)) :=
        wp_powerDone (wp_startsPower hr p) (fun _ p => ih p)
      exact h

end Shim
