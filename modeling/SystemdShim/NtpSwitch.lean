import SystemdShim.Lib.Machine
import SystemdShim.NtpHost

/- The ntp unit on a machine where nobody else changes what it looks at. A switch
   gives the hook its name, and leaves the service as asked if its commands go
   through (`safe_ntpUnitSwitch`); asking for the state tells the true one
   (`safe_asks`). So over any number of requests, processes and boots the machine is
   as the last switch left it (`ntp_follows_last_switch`). -/
namespace Shim
open Effects

variable {S : Type}

/-- Only the acts change the machine. -/
def steady (commands : NtpCommands S) : Surroundings Ans (NtpHost S) where
  moves h h' := h' = h
  answer := NtpHost.answer commands
  permits _ _ := True
  refl _ := rfl
  trans h h' := h'.trans h

namespace NtpCommands

/-- The commands, where they end as `ok` says. -/
def only (commands : NtpCommands S) (ok : String → Option Int → Bool) : NtpCommands S where
  spawn h command exitStatus :=
    if ok command exitStatus then commands.spawn h command exitStatus else none
  boot := commands.boot

/-- Every command ends as `ok` says. -/
def Ends (commands : NtpCommands S) (ok : String → Option Int → Bool) : Prop :=
  ∀ {h command exitStatus h'}, commands.spawn h command exitStatus = some h' →
    ok command exitStatus = true

variable {commands : NtpCommands S} {ok : String → Option Int → Bool}

theorem only_spawn {h h' : NtpHost S} {command : String} {exitStatus : Option Int}
    (hspawn : (commands.only ok).spawn h command exitStatus = some h') :
    ok command exitStatus = true ∧ commands.spawn h command exitStatus = some h' :=
  Option.ite_none_right_eq_some.mp hspawn

theorem only_ends : (commands.only ok).Ends ok := fun hspawn => (only_spawn hspawn).1

theorem AsDocumented.only (hc : commands.AsDocumented) (ok : String → Option Int → Bool) :
    (commands.only ok).AsDocumented where
  apart hspawn := hc.apart (only_spawn hspawn).2
  status hspawn := hc.status (only_spawn hspawn).2
  enable hspawn := hc.enable (only_spawn hspawn).2
  disable hspawn := hc.disable (only_spawn hspawn).2
  restart hspawn := hc.restart (only_spawn hspawn).2
  stop hspawn := hc.stop (only_spawn hspawn).2
  boot := hc.boot

end NtpCommands

/-- A command of the service that goes through; the run of the hook does not count. -/
def goesThrough (command : String) (exitStatus : Option Int) : Bool :=
  command == "/etc/network/if-up.d/ntpdate" || exitStatus == some 0

/-- A command that is started. -/
def isStarted (_ : String) (exitStatus : Option Int) : Bool := exitStatus.isSome

/-- The commands of a trace end as `ok` says. -/
def endAs (ok : String → Option Int → Bool) (t : ShimTrace) : Bool :=
  t.all fun
    | ⟨.spawnSync command, exitStatus⟩ => ok command exitStatus
    | _ => true

theorem foldlM_only {commands : NtpCommands S} {ok : String → Option Int → Bool} {t : ShimTrace}
    (ht : endAs ok t = true) (h : NtpHost S) :
    t.foldlM (NtpHost.answer (commands.only ok)) h = t.foldlM (NtpHost.answer commands) h := by
  induction t generalizing h with
  | nil => rfl
  | cons e t ih =>
    obtain ⟨he, ht⟩ := Bool.and_eq_true_iff.mp ht
    have hanswer : NtpHost.answer (commands.only ok) h e = NtpHost.answer commands h e := by
      obtain ⟨a, r⟩ := e
      cases a with
      | spawnSync command => exact if_pos he
      | _ => rfl
    rw [List.foldlM_cons, List.foldlM_cons, hanswer]
    congr 1
    funext h'
    exact ih ht h'

section Steady
variable {commands : NtpCommands S} {α β : Type} {s : Process} {h : NtpHost S}

theorem safe_steady {a : Act} {f : Ans a → ShimM β}
    {Q : Except Halt (β × Process) → NtpHost S → Prop}
    (hf : ∀ r h', NtpHost.answer commands h ⟨a, r⟩ = some h' →
      (f r).safe (steady commands) s h' Q) :
    (act a >>= f).safe (steady commands) s h Q := by
  rw [act, Proc.safe_act_bind]
  intro h₁ hm
  obtain rfl := hm
  exact ⟨trivial, fun r h' => hf r h'⟩

theorem safe_testExists {path : String} {f : Bool → ShimM β}
    {Q : Except Halt (β × Process) → NtpHost S → Prop}
    (hf : (f (h.file path).isSome).safe (steady commands) s h Q) :
    (act (.testExists path) >>= f).safe (steady commands) s h Q := by
  apply safe_steady
  intro found h' hr
  obtain ⟨hfound, rfl⟩ := Option.ite_some_none_eq_some.mp hr
  rw [hfound]
  exact hf

theorem safe_rename {source target : String} {f : Unit → ShimM β}
    {Q : Except Halt (β × Process) → NtpHost S → Prop}
    (hf : (f ()).safe (steady commands) s (h.rename source target) Q) :
    (act (.rename source target) >>= f).safe (steady commands) s h Q := by
  apply safe_steady
  intro _ h' hr
  obtain rfl := Option.some.inj hr
  exact hf

theorem safe_spawn {command : String} {f : Option Int → ShimM β}
    {Q : Except Halt (β × Process) → NtpHost S → Prop}
    (hf : ∀ exitStatus h', commands.spawn h command exitStatus = some h' →
      (f exitStatus).safe (steady commands) s h' Q) :
    (act (.spawnSync command) >>= f).safe (steady commands) s h Q :=
  safe_steady (fun exitStatus h' hr => hf exitStatus h' hr)

theorem safe_return {a : α} {Q : Except Halt (α × Process) → NtpHost S → Prop}
    (hq : Q (.ok (a, s)) h) : (pure a : ShimM α).safe (steady commands) s h Q := by
  intro h' hm
  obtain rfl := hm
  exact hq

theorem safe_usingNtpdate {f : Bool → ShimM β} {Q : Except Halt (β × Process) → NtpHost S → Prop}
    (hf : (f ((h.file ntpdateAvailable).isSome && (h.file ntpdateEnabled).isSome)).safe
      (steady commands) s h Q) :
    (ntpUnitGetUsingNtpdate >>= f).safe (steady commands) s h Q := by
  unfold ntpUnitGetUsingNtpdate ntpUnitGetCanUseNtpdate
  rw [bind_assoc]
  apply safe_testExists
  cases havailable : (h.file ntpdateAvailable).isSome with
  | true =>
    rw [havailable, Bool.true_and] at hf
    exact safe_testExists hf
  | false =>
    rw [havailable, Bool.false_and] at hf
    exact hf

/-- The service is found running just if it runs, where the command is started. -/
theorem safe_usingNtpd (hc : commands.AsDocumented) (hstarted : commands.Ends isStarted)
    {f : Bool → ShimM β} {Q : Except Halt (β × Process) → NtpHost S → Prop}
    (hf : ∀ h', h.Same h' →
      (f ((h.file ntpdAvailable).isSome && h.running)).safe (steady commands) s h' Q) :
    (ntpUnitGetUsingNtpd >>= f).safe (steady commands) s h Q := by
  unfold ntpUnitGetUsingNtpd ntpUnitGetCanUseNtpd
  rw [bind_assoc]
  apply safe_testExists
  cases havailable : (h.file ntpdAvailable).isSome with
  | true =>
    rw [havailable] at hf
    simp only [if_true, bind_assoc, Bool.true_and] at hf ⊢
    apply safe_spawn
    intro exitStatus h' hspawn
    obtain ⟨n, rfl⟩ := Option.isSome_iff_exists.mp (hstarted hspawn)
    obtain ⟨hstatus, hsame⟩ := hc.status hspawn
    have hrunning : (some n == some (0 : Int)) = h.running := by
      rw [Bool.eq_iff_iff, beq_iff_eq, Option.some.injEq]
      exact hstatus n rfl
    rw [pure_bind, hrunning]
    exact hf h' hsame
  | false =>
    rw [havailable] at hf
    exact hf h (.refl h)

theorem safe_ntpUnitGetState (hc : commands.AsDocumented) (hstarted : commands.Ends isStarted)
    (s : Process) (h : NtpHost S) : ntpUnitGetState.safe (steady commands) s h
      (fun o h' => o = .ok (ascii (if h.usingNtp then "enabled" else "disabled"), s) ∧
        h.Same h') := by
  unfold ntpUnitGetState
  apply safe_usingNtpdate
  unfold NtpHost.usingNtp
  split
  · rename_i hntpdate
    refine safe_return ⟨?_, .refl h⟩
    simp [hntpdate]
  · rename_i hntpdate
    apply safe_usingNtpd hc hstarted
    intro h' hsame
    rw [Bool.not_eq_true] at hntpdate
    split
    · rename_i hntpd
      refine safe_return ⟨?_, hsame⟩
      simp [hntpd]
    · rename_i hntpd
      refine safe_return ⟨?_, hsame⟩
      simp [hntpdate, hntpd]

theorem safe_ntpUnitSwitchNtpdate (hc : commands.AsDocumented) (usingNtp : Bool) (s : Process)
    (h : NtpHost S) : (ntpUnitSwitchNtpdate usingNtp).safe (steady commands) s h
      (fun o h' => o = .ok ((), s) ∧ (h.switchNtpdate usingNtp).SameFiles h') := by
  unfold ntpUnitSwitchNtpdate ntpUnitGetCanUseNtpdate NtpHost.switchNtpdate
  apply safe_testExists
  cases havailable : (h.file ntpdateAvailable).isSome with
  | false => exact safe_return ⟨rfl, by simpa using .refl h⟩
  | true =>
    simp only [if_true, true_and]
    unfold ntpUnitSetUsingNtpdate
    apply safe_usingNtpdate
    rw [havailable, Bool.true_and]
    by_cases hsame : usingNtp = (h.file ntpdateEnabled).isSome
    · rw [if_pos hsame, if_neg (not_not.mpr hsame)]
      exact safe_return ⟨rfl, .refl h⟩
    · rw [if_neg hsame, if_pos hsame]
      cases usingNtp with
      | true =>
        simp only [if_true]
        apply safe_rename
        apply safe_spawn
        intro _ h' hspawn
        exact safe_return ⟨rfl, hc.apart hspawn⟩
      | false =>
        simp only [Bool.false_eq_true, if_false]
        rw [← bind_pure (act _)]
        apply safe_rename
        exact safe_return ⟨rfl, .refl _⟩

/-- The service after its two commands: as switched, where both go through. -/
theorem safe_ntpUnitSwitchNtpd (hc : commands.AsDocumented) {through : Bool}
    (hthrough : through = true → commands.Ends goesThrough) (usingNtp : Bool) (s : Process)
    (h : NtpHost S) : (ntpUnitSwitchNtpd usingNtp).safe (steady commands) s h
      (fun o h' => o = .ok ((), s) ∧ h.SameFiles h' ∧ (through = true →
        (h.file ntpdAvailable).isSome = true → h'.running = usingNtp ∧ h'.atBoot = usingNtp)) := by
  unfold ntpUnitSwitchNtpd ntpUnitGetCanUseNtpd
  apply safe_testExists
  cases havailable : (h.file ntpdAvailable).isSome with
  | false => exact safe_return ⟨rfl, .refl h, nofun⟩
  | true =>
    simp only [if_true]
    apply safe_spawn
    intro atBootStatus h₁ hboot
    apply safe_spawn
    intro runningStatus h₂ hrun
    refine safe_return ⟨rfl, (hc.apart hboot).trans (hc.apart hrun), fun ht _ => ?_⟩
    have hends : atBootStatus = some 0 ∧ runningStatus = some 0 := by
      have h₁ := hthrough ht hboot
      have h₂ := hthrough ht hrun
      cases usingNtp <;> exact ⟨by simpa [goesThrough] using h₁, by simpa [goesThrough] using h₂⟩
    obtain ⟨rfl, rfl⟩ := hends
    cases usingNtp with
    | true =>
      obtain ⟨hrunning, hkept⟩ := hc.restart hrun
      exact ⟨hrunning, hkept.trans (hc.enable hboot)⟩
    | false =>
      obtain ⟨hrunning, hkept⟩ := hc.stop hrun
      exact ⟨hrunning, hkept.trans (hc.disable hboot)⟩

end Steady

/-- The unit can be switched: the hook of an installed ntpdate has one name, and can
be given the other. -/
structure Ready (h : NtpHost S) : Prop where
  hook : (h.file ntpdateAvailable).isSome = true →
    h.writable = true ∧ (h.file ntpdateEnabled).isSome ≠ (h.file ntpdateDisabled).isSome
  installed : h.installed = true

/-- Everything installed is switched the same way; the service, the next boot included,
if its commands went `through`. -/
structure Settled (usingNtp through : Bool) (h : NtpHost S) : Prop where
  hook : (h.file ntpdateAvailable).isSome = true → h.writable = true ∧
    (h.file ntpdateEnabled).isSome = usingNtp ∧ (h.file ntpdateDisabled).isSome = !usingNtp
  service : through = true → (h.file ntpdAvailable).isSome = true →
    h.running = usingNtp ∧ h.atBoot = usingNtp
  installed : h.installed = true

section SameFiles
variable {h h' : NtpHost S} {on through : Bool}

theorem NtpHost.SameFiles.installed (hs : h.SameFiles h') : h'.installed = h.installed := by
  unfold NtpHost.installed
  rw [hs.1 ntpdateAvailable (by simp), hs.1 ntpdAvailable (by simp)]

theorem Ready.sameFiles (hr : Ready h) (hs : h.SameFiles h') : Ready h' where
  hook := by
    rw [hs.1 ntpdateAvailable (by simp), hs.1 ntpdateEnabled (by simp),
      hs.1 ntpdateDisabled (by simp), hs.2.1]
    exact hr.hook
  installed := hs.installed.trans hr.installed

/-- What holds of the files, and of the service by other means. -/
theorem Settled.sameFiles (hf : Settled on through h) (hs : h.SameFiles h') {through' : Bool}
    (hservice : through' = true → (h.file ntpdAvailable).isSome = true →
      h'.running = on ∧ h'.atBoot = on) : Settled on through' h' where
  hook := by
    rw [hs.1 ntpdateAvailable (by simp), hs.1 ntpdateEnabled (by simp),
      hs.1 ntpdateDisabled (by simp), hs.2.1]
    exact hf.hook
  service := by
    rw [hs.1 ntpdAvailable (by simp)]
    exact hservice
  installed := hs.installed.trans hf.installed

theorem Settled.same (hf : Settled on through h) (hs : h.Same h') : Settled on through h' := by
  obtain ⟨hfiles, hrunning, hboot⟩ := hs
  apply hf.sameFiles hfiles
  rw [hrunning, hboot]
  exact hf.service

theorem Settled.ready (hf : Settled on through h) : Ready h where
  hook havailable := by
    obtain ⟨hw, he, hd⟩ := hf.hook havailable
    refine ⟨hw, ?_⟩
    rw [he, hd]
    cases on <;> decide
  installed := hf.installed

theorem Settled.usingNtp (hf : Settled on true h) : h.usingNtp = on := by
  have hin := hf.installed
  unfold NtpHost.installed at hin
  unfold NtpHost.usingNtp
  cases hntpdate : (h.file ntpdateAvailable).isSome with
  | true =>
    rw [(hf.hook hntpdate).2.1]
    cases hntpd : (h.file ntpdAvailable).isSome with
    | true => simp [(hf.service rfl hntpd).1]
    | false => simp
  | false =>
    rw [hntpdate, Bool.false_or] at hin
    simp [hin, (hf.service rfl hin).1]

theorem Settled.boot {commands : NtpCommands S} (hc : commands.AsDocumented)
    (hf : Settled on through h) : Settled on through (commands.boot h) := by
  obtain ⟨hfiles, hrunning, hboot⟩ := hc.boot h
  apply hf.sameFiles hfiles
  intro ht havailable
  rw [hrunning, hboot]
  exact ⟨(hf.service ht havailable).2, (hf.service ht havailable).2⟩

end SameFiles

namespace NtpHost
variable (h : NtpHost S)

@[simp] theorem rename_writable (source target : String) :
    (h.rename source target).writable = h.writable := by
  unfold rename
  repeat' split
  all_goals rfl

/-- The files under other names. -/
theorem rename_other {source target path : String} (hs : path ≠ source) (ht : path ≠ target) :
    (h.rename source target).file path = h.file path := by
  by_cases hstay : h.file source = none ∨ h.writable = false
  · rw [h.rename_stays hstay]
  · rw [not_or] at hstay
    obtain ⟨contents, hcontents⟩ := Option.ne_none_iff_exists'.mp hstay.1
    rw [h.rename_file hcontents (by simpa using hstay.2), if_neg ht, if_neg hs]

theorem switchNtpdate_other (usingNtp : Bool) {path : String} (he : path ≠ ntpdateEnabled)
    (hd : path ≠ ntpdateDisabled) : (h.switchNtpdate usingNtp).file path = h.file path := by
  unfold switchNtpdate
  repeat' split
  · exact h.rename_other hd he
  · exact h.rename_other he hd
  · rfl

@[simp] theorem switchNtpdate_writable (usingNtp : Bool) :
    (h.switchNtpdate usingNtp).writable = h.writable := by
  unfold switchNtpdate
  repeat' split
  · exact h.rename_writable _ _
  · exact h.rename_writable _ _
  · rfl

/-- The hook of an installed ntpdate, after its switch. -/
theorem switchNtpdate_hook {h : NtpHost S} (hr : Ready h) (usingNtp : Bool)
    (havailable : (h.file ntpdateAvailable).isSome = true) :
    ((h.switchNtpdate usingNtp).file ntpdateEnabled).isSome = usingNtp ∧
      ((h.switchNtpdate usingNtp).file ntpdateDisabled).isSome = !usingNtp := by
  obtain ⟨hw, hone⟩ := hr.hook havailable
  unfold switchNtpdate
  by_cases hsame : usingNtp = (h.file ntpdateEnabled).isSome
  · rw [if_neg (fun h => h.2 hsame)]
    subst hsame
    refine ⟨rfl, ?_⟩
    revert hone
    cases (h.file ntpdateEnabled).isSome <;> cases (h.file ntpdateDisabled).isSome <;> simp
  · rw [if_pos ⟨havailable, hsame⟩]
    cases usingNtp with
    | true =>
      have he : (h.file ntpdateEnabled).isSome = false :=
        Bool.eq_false_iff.mpr (Ne.symm hsame)
      have hd : (h.file ntpdateDisabled).isSome = true :=
        Bool.ne_false_iff.mp (fun hd => hone (he.trans hd.symm))
      obtain ⟨contents, hcontents⟩ := Option.isSome_iff_exists.mp hd
      simp only [if_true, h.rename_file hcontents hw, if_neg names_ne.symm]
      exact ⟨rfl, rfl⟩
    | false =>
      have he : (h.file ntpdateEnabled).isSome = true :=
        Bool.ne_false_iff.mp (Ne.symm hsame)
      obtain ⟨contents, hcontents⟩ := Option.isSome_iff_exists.mp he
      simp only [Bool.false_eq_true, if_false, h.rename_file hcontents hw, if_neg names_ne, if_true]
      exact ⟨rfl, rfl⟩

end NtpHost

/-- The renames alone settle the hook. -/
theorem Ready.switchNtpdate {h : NtpHost S} (hr : Ready h) (usingNtp : Bool) :
    Settled usingNtp false (h.switchNtpdate usingNtp) where
  hook havailable := by
    rw [h.switchNtpdate_other _ (by decide) (by decide)] at havailable
    rw [NtpHost.switchNtpdate_writable]
    exact ⟨(hr.hook havailable).1, NtpHost.switchNtpdate_hook hr usingNtp havailable⟩
  service := nofun
  installed := by
    have hin := hr.installed
    unfold NtpHost.installed at hin ⊢
    rw [h.switchNtpdate_other _ (by decide) (by decide),
      h.switchNtpdate_other _ (by decide) (by decide)]
    exact hin

/-- A switch of the unit settles it. -/
theorem safe_ntpUnitSwitch {commands : NtpCommands S} (hc : commands.AsDocumented)
    {through : Bool} (hthrough : through = true → commands.Ends goesThrough) (usingNtp : Bool)
    {s : Process} {h : NtpHost S} (hready : Ready h) :
    (ntpUnitSwitch usingNtp).safe (steady commands) s h
      (fun o h' => o = .ok ((), s) ∧ Settled usingNtp through h') := by
  unfold ntpUnitSwitch
  apply Proc.safe_seq (safe_ntpUnitSwitchNtpdate hc usingNtp s h)
  · intro _ s' h₁ ho
    obtain ⟨ho, hfiles⟩ := ho
    obtain ⟨-, rfl⟩ := Prod.mk.inj (Except.ok.inj ho)
    have hhook : Settled usingNtp false h₁ :=
      (hready.switchNtpdate usingNtp).sameFiles hfiles nofun
    apply Prog.safe_mono (safe_ntpUnitSwitchNtpd hc hthrough usingNtp _ h₁)
    intro o h' ho
    obtain ⟨ho, hfiles, hservice⟩ := ho
    exact ⟨ho, hhook.sameFiles hfiles hservice⟩
  · intro _ _ ho
    cases ho.1

/-! Requests. -/

theorem isNtpName_iff (name : Bytes) : isNtpName name = true ↔
    name = ascii "ntpd.service" ∨ name = ascii "systemd-timesyncd.service" := by
  simp [isNtpName]

theorem unitOfName_isNtpName {name : Bytes} (hname : isNtpName name = true) :
    unitOfName name true = some .ntp := by
  obtain rfl | rfl := (isNtpName_iff name).mp hname
  · rfl
  · rfl

section Requests
variable {commands : NtpCommands S} {h : NtpHost S} {s : Process}

theorem safe_lookupUnit {β : Type} {name : Bytes} {f : Except GError UnitObject → ShimM β}
    {Q : Except Halt (β × Process) → NtpHost S → Prop} (hname : isNtpName name = true)
    (hin : h.installed = true) (hf : (f (.ok .ntp)).safe (steady commands) s h Q) :
    (lookupUnit name >>= f).safe (steady commands) s h Q := by
  have hfound : (f ((unitOfName name true).elim (.error (unknownUnit name)) .ok)).safe
      (steady commands) s h Q := by
    rw [unitOfName_isNtpName hname]
    exact hf
  rw [lookupUnit_bind]
  unfold lookupNtp
  rw [if_pos ((isNtpName_iff name).mp hname)]
  unfold ntpUnitGet ntpUnitGetCanUseNtpdate ntpUnitGetCanUseNtpd
  rw [bind_assoc]
  apply safe_testExists
  split
  · exact hfound
  · rename_i hntpdate
    apply safe_testExists
    rw [NtpHost.installed, Bool.eq_false_iff.mpr hntpdate, Bool.false_or] at hin
    rw [hin]
    exact hfound

/-- A branch that looks the unit up finds it. -/
theorem safe_withUnit {parameters : List Variant} {body : Bytes → UnitObject → ShimM Unit}
    {Q : Except Halt (Option GError × Process) → NtpHost S → Prop}
    (hname : namesNtp parameters = true) (hin : h.installed = true)
    (hbody : ∀ name, (body name .ntp >>= fun _ => pure none).safe (steady commands) s h Q) :
    (withUnit parameters body).safe (steady commands) s h Q := by
  unfold namesNtp at hname
  split at hname
  · rename_i name hparam
    unfold withUnit getChildString
    rw [hparam, pure_bind]
    apply safe_lookupUnit hname hin
    exact hbody name
  · cases hname

variable {I : NtpHost S → Prop}

theorem steady_moves (h h' : NtpHost S) (hm : (steady commands).moves h h') (hh : I h) : I h' := by
  obtain rfl := hm
  exact hh

theorem pieces_steady (hs : StatusKeeps commands I) (ht : ∀ h value, I h → I (h.tell value)) :
    Pieces (fun _ x => Proc.Preserves (steady commands) I x) :=
  pieces_host rfl steady_moves (fun _ _ _ => trivial) hs ht

/-- What only goes by what the unit looks at. -/
theorem statusKeeps (hc : commands.AsDocumented) (hsame : ∀ h h', I h → h.Same h' → I h') :
    StatusKeeps commands I :=
  fun h _ h' hspawn hh => hsame h h' hh (hc.status hspawn).2

theorem Settled.tell {on through : Bool} (h : NtpHost S) (value : List Arg)
    (hs : Settled on through h) : Settled on through (h.tell value) :=
  ⟨hs.hook, hs.service, hs.installed⟩

theorem Ready.tell (h : NtpHost S) (value : List Arg) (hr : Ready h) : Ready (h.tell value) :=
  ⟨hr.hook, hr.installed⟩

/-- After the branch that a method call goes to, only the timer is left to do. -/
theorem safe_shimMethodCall {sender : Bytes} {methodName : String} {parameters : List Variant}
    {Q : NtpHost S → Prop}
    (hbranch : (shimMethodBranch sender methodName parameters).safe (steady commands) s h
      (fun o h' => Q h' ∧ ∀ error s', o = .ok (error, s') → error = none)) :
    (shimMethodCall sender methodName parameters).safe (steady commands) s h
      (fun _ h' => Q h') := by
  unfold shimMethodCall
  apply Proc.safe_seq hbranch
  · intro error s' h' ho
    obtain ⟨hq, herror⟩ := ho
    obtain rfl := herror _ _ rfl
    exact preserves_apart (I := Q) rfl steady_moves (fun _ _ _ => trivial) footprint_hadActivity
      (by simp) s' h' hq
  · exact fun _ _ ho => ho.1

theorem safe_switched (hc : commands.AsDocumented) {on through : Bool}
    (hthrough : through = true → commands.Ends goesThrough) {rest : ShimM Unit}
    (hrest : Proc.Preserves (steady commands) (Settled on through) rest) (hready : Ready h) :
    ((ntpUnitSwitch on >>= fun _ => rest) >>= fun _ =>
      (pure none : ShimM (Option GError))).safe (steady commands) s h
        (fun o h' => Settled on through h' ∧ ∀ error s', o = .ok (error, s') → error = none) := by
  have hbody : (ntpUnitSwitch on >>= fun _ => rest).safe (steady commands) s h
      (fun _ h' => Settled on through h') := by
    apply Proc.safe_seq (safe_ntpUnitSwitch hc hthrough on hready)
    · intro _ s' h' ho
      exact hrest s' _ ho.2
    · intro _ _ ho
      cases ho.1
  apply Proc.safe_seq hbody
  · intro _ s' h' hs
    refine safe_return ⟨hs, fun error s'' ho => ?_⟩
    exact (Prod.mk.inj (Except.ok.inj ho)).1.symm
  · intro _ _ hs
    exact ⟨hs, fun _ _ ho => by cases ho⟩

theorem switchesNtp_manager {sender : Bytes} {methodName : String} {parameters : List Variant}
    {on : Bool} (h : (Request.manager sender methodName parameters).switchesNtp = some on) :
    namesNtp parameters = true ∧
      (methodName = "StartUnit" ∧ on = true ∨ methodName = "StopUnit" ∧ on = false) := by
  simp only [Request.switchesNtp] at h
  split at h
  · cases h
  · rename_i hname
    refine ⟨by simpa using hname, ?_⟩
    split at h
    · rename_i hmethod
      exact .inl ⟨hmethod, (Option.some.inj h).symm⟩
    · split at h
      · rename_i hmethod
        exact .inr ⟨hmethod, (Option.some.inj h).symm⟩
      · cases h

/-- Starting or stopping the unit settles it. -/
theorem safe_switches (hc : commands.AsDocumented) {systemdVersion : Nat} {r : Request}
    {on through : Bool} (hthrough : through = true → commands.Ends goesThrough)
    (hr : r.switchesNtp = some on) (hready : Ready h) :
    (r.handle systemdVersion).safe (steady commands) s h
      (fun _ h' => Settled on through h') := by
  have hP := pieces_steady (I := Settled on through)
    (statusKeeps hc (fun _ _ hs hsame => hs.same hsame)) Settled.tell
  cases r with
  | manager sender methodName parameters =>
    obtain ⟨hname, ⟨rfl, rfl⟩ | ⟨rfl, rfl⟩⟩ := switchesNtp_manager hr
    · apply safe_shimMethodCall
      show (startUnit sender parameters).safe (steady commands) s h _
      apply safe_withUnit hname hready.installed
      intro name
      exact safe_switched hc hthrough
        (hP.bind (hP.returnValue _) (fun _ => hP.emitSignal _ _ _)) hready
    · apply safe_shimMethodCall
      show (stopUnit parameters).safe (steady commands) s h _
      apply safe_withUnit hname hready.installed
      intro name
      exact safe_switched hc hthrough
        (hP.bind (hP.returnValue _) (fun _ => hP.emitSignal _ _ _)) hready
  | _ => cases hr

/-- The calls that ask for the state of the unit. -/
def Request.asksNtpState : Request → Bool
  | .manager _ methodName parameters => methodName == "GetUnitFileState" && namesNtp parameters
  | _ => false

/-- Asking for the state tells it, where the command for it is started. -/
theorem safe_asks (hc : commands.AsDocumented) (hstarted : commands.Ends isStarted)
    {systemdVersion : Nat} {r : Request} (hr : r.asksNtpState = true)
    (hin : h.installed = true) :
    (r.handle systemdVersion).safe (steady commands) s h (fun _ h' =>
      h'.told = h.told ++ [[.s (ascii (if h.usingNtp then "enabled" else "disabled"))]]) := by
  cases r with
  | manager sender methodName parameters =>
    obtain ⟨hmethod, hname⟩ := (Bool.and_eq_true _ _).mp hr
    obtain rfl := eq_of_beq hmethod
    apply safe_shimMethodCall
    show (getUnitFileState parameters).safe (steady commands) s h _
    apply safe_withUnit hname hin
    intro name
    rw [bind_assoc]
    apply Proc.safe_seq (safe_ntpUnitGetState hc hstarted s h)
    · intro state s' h' ho
      obtain ⟨ho, hsame⟩ := ho
      obtain ⟨rfl, rfl⟩ := Prod.mk.inj (Except.ok.inj ho)
      have htold : h'.told = h.told := hsame.1.2.2
      apply safe_steady
      intro _ h'' hr
      obtain rfl := Option.some.inj hr
      refine safe_return ⟨?_, fun _ _ ho => (Prod.mk.inj (Except.ok.inj ho)).1.symm⟩
      rw [← htold]
      rfl
    · intro _ _ ho
      cases ho.1
  | _ => cases hr

end Requests

/-! Requests, processes and boots. -/

structure NtpState (S : Type) where
  process : Process
  host : NtpHost S

/-- What may happen. -/
inductive NtpStep (S : Type) where
  /-- a request is handled, and the process goes on -/
  | request (r : Request) (t : ShimTrace)
  /-- a request ends the process, and leaves a state file -/
  | fatal (r : Request) (t : ShimTrace) (stateFile : Option KeyFile)
  | restart
  | reboot
  /-- others change the machine -/
  | others (host : NtpHost S)

def ntpStep (commands : NtpCommands S) (systemdVersion : Nat) (s : NtpState S) :
    NtpStep S → Option (NtpState S)
  | .request r t =>
    match ((r.handle systemdVersion).run s.process).replay t,
        t.foldlM (NtpHost.answer commands) s.host with
    | some (.ok (_, p)), some h => some ⟨p, h⟩
    | _, _ => none
  | .fatal r t stateFile =>
    match ((r.handle systemdVersion).run s.process).replay t,
        t.foldlM (NtpHost.answer commands) s.host with
    | some (.error _), some h => some ⟨{ stateFile := stateFile }, h⟩
    | _, _ => none
  | .restart => some ⟨s.process.restart, s.host⟩
  | .reboot => some ⟨s.process.restart, commands.boot s.host⟩
  | .others h => if s.host.Same h then some ⟨s.process, h⟩ else none

namespace NtpStep

/-- The request of a step, and the acts of its handling. -/
def request? : NtpStep S → Option (Request × ShimTrace)
  | .request r t => some (r, t)
  | .fatal r t _ => some (r, t)
  | _ => none

/-- Which way a step switches the unit, and whether the commands for it went through. -/
def switches (l : NtpStep S) : Option (Bool × Bool) :=
  l.request?.bind (fun rt => rt.1.switchesNtp.map (fun on => (on, endAs goesThrough rt.2)))

end NtpStep

/-- The last switch of the unit, if there was one. -/
def lastSwitch (ls : List (NtpStep S)) : Option (Bool × Bool) :=
  ls.reverse.findSome? NtpStep.switches

theorem lastSwitch_snoc (ls : List (NtpStep S)) (l : NtpStep S) :
    lastSwitch (ls ++ [l]) = l.switches.or (lastSwitch ls) := by
  unfold lastSwitch
  rw [List.reverse_append, List.reverse_singleton, List.singleton_append, List.findSome?_cons]
  cases l.switches <;> rfl

theorem NtpStep.switches_eq_some {l : NtpStep S} {on through : Bool}
    (h : l.switches = some (on, through)) : ∃ r t, l.request? = some (r, t) ∧
      r.switchesNtp = some on ∧ endAs goesThrough t = through := by
  obtain ⟨⟨r, t⟩, hreq, h⟩ := Option.bind_eq_some_iff.mp h
  obtain ⟨on', hon, h⟩ := Option.map_eq_some_iff.mp h
  obtain ⟨rfl, rfl⟩ := Prod.mk.inj h
  exact ⟨r, t, hreq, hon, rfl⟩

section Runs
variable {commands : NtpCommands S} {systemdVersion : Nat} {s s' : NtpState S}

/-- The run of a handler behind a step, whether it returns or not. -/
theorem ntpStep_handled {l : NtpStep S} {r : Request} {t : ShimTrace}
    (hl : l.request? = some (r, t)) (h : ntpStep commands systemdVersion s l = some s') :
    (∃ o, ((r.handle systemdVersion).run s.process).replay t = some o) ∧
      t.foldlM (NtpHost.answer commands) s.host = some s'.host := by
  cases l with
  | request r t =>
    obtain ⟨rfl, rfl⟩ := Prod.mk.inj (Option.some.inj hl)
    simp only [ntpStep] at h
    split at h
    · rename_i hrun hhost
      obtain rfl := Option.some.inj h
      exact ⟨⟨_, hrun⟩, hhost⟩
    · cases h
  | fatal r t stateFile =>
    obtain ⟨rfl, rfl⟩ := Prod.mk.inj (Option.some.inj hl)
    simp only [ntpStep] at h
    split at h
    · rename_i hrun hhost
      obtain rfl := Option.some.inj h
      exact ⟨⟨_, hrun⟩, hhost⟩
    · cases h
  | _ => cases hl

/-- A step that handles a request leaves the machine as every run of it does. -/
theorem ntpStep_request {l : NtpStep S} {r : Request} {t : ShimTrace} {Q : NtpHost S → Prop}
    (hl : l.request? = some (r, t)) (h : ntpStep commands systemdVersion s l = some s')
    (hr : (r.handle systemdVersion).safe (steady commands) s.process s.host (fun _ h' => Q h')) :
    Q s'.host := by
  obtain ⟨⟨o, hrun⟩, hhost⟩ := ntpStep_handled hl h
  exact Prog.safe_replay hr hrun hhost

/-- Where its commands end as `ok` says, only such runs count. -/
theorem ntpStep_request_only {ok : String → Option Int → Bool} {l : NtpStep S} {r : Request}
    {t : ShimTrace} {Q : NtpHost S → Prop} (hl : l.request? = some (r, t))
    (ht : endAs ok t = true) (h : ntpStep commands systemdVersion s l = some s')
    (hr : (r.handle systemdVersion).safe (steady (commands.only ok)) s.process s.host
      (fun _ h' => Q h')) : Q s'.host := by
  obtain ⟨⟨o, hrun⟩, hhost⟩ := ntpStep_handled hl h
  rw [← foldlM_only ht] at hhost
  exact Prog.safe_replay hr hrun hhost

/-- A step that switches the unit settles it. -/
theorem ntpStep_switches (hc : commands.AsDocumented) {l : NtpStep S} {on through : Bool}
    (hl : l.switches = some (on, through)) (h : ntpStep commands systemdVersion s l = some s')
    (hready : Ready s.host) : Settled on through s'.host := by
  obtain ⟨r, t, hreq, hon, ht⟩ := NtpStep.switches_eq_some hl
  cases through with
  | true =>
    exact ntpStep_request_only hreq ht h
      (safe_switches (hc.only _) (fun _ => NtpCommands.only_ends) hon hready)
  | false => exact ntpStep_request hreq h (safe_switches hc nofun hon hready)

/-- What requests that do not switch the unit keep, and the other steps keep too. -/
theorem ntpStep_keeps (hc : commands.AsDocumented) {I : NtpHost S → Prop}
    (ht : ∀ h value, I h → I (h.tell value)) (hboot : ∀ h, I h → I (commands.boot h))
    (hsame : ∀ h h', I h → h.Same h' → I h') {l : NtpStep S} (hl : l.switches = none)
    (h : ntpStep commands systemdVersion s l = some s') (hI : I s.host) : I s'.host := by
  cases hr : l.request? with
  | some rt =>
    obtain ⟨r, t⟩ := rt
    have hnone : r.switchesNtp = none := by
      unfold NtpStep.switches at hl
      rw [hr] at hl
      exact Option.map_eq_none_iff.mp hl
    apply ntpStep_request hr h
    apply (preserves_request rfl steady_moves (fun _ _ _ => trivial) (statusKeeps hc hsame) ht
      systemdVersion r _) _ _ hI
    intro usingNtp hswitch
    cases hnone.symm.trans hswitch
  | none =>
    cases l with
    | request r t => cases hr
    | fatal r t stateFile => cases hr
    | restart =>
      obtain rfl := Option.some.inj h
      exact hI
    | reboot =>
      obtain rfl := Option.some.inj h
      exact hboot _ hI
    | others host =>
      obtain ⟨hs, he⟩ := Option.ite_none_right_eq_some.mp h
      obtain rfl := Option.some.inj he
      exact hsame _ _ hI hs

theorem ntp_invariant (hc : commands.AsDocumented) {p : Process} {h : NtpHost S}
    (hready : Ready h) (ls : List (NtpStep S)) (s : NtpState S)
    (hrun : Runs.run (ntpStep commands systemdVersion) ⟨p, h⟩ ls = some s) :
    Ready s.host ∧ ∀ on through, lastSwitch ls = some (on, through) →
      Settled on through s.host := by
  refine Runs.run_induct (P := fun ls s => Ready s.host ∧
    ∀ on through, lastSwitch ls = some (on, through) → Settled on through s.host) ?_ ?_ ls s hrun
  · exact ⟨hready, nofun⟩
  · intro ls s l s' _ ih hl
    obtain ⟨hr, hsettled⟩ := ih
    rw [lastSwitch_snoc]
    cases hswitch : l.switches with
    | some onThrough =>
      have hs := ntpStep_switches hc hswitch hl hr
      refine ⟨hs.ready, fun on through he => ?_⟩
      obtain rfl := Option.some.inj he
      exact hs
    | none =>
      rw [Option.none_or]
      refine ⟨?_, fun on through hlast => ?_⟩
      · exact ntpStep_keeps hc Ready.tell (fun h hr => hr.sameFiles (hc.boot h).1)
          (fun _ _ hr hsame => hr.sameFiles hsame.1) hswitch hl hr
      · exact ntpStep_keeps hc Settled.tell (fun _ hs => hs.boot hc)
          (fun _ _ hs hsame => hs.same hsame) hswitch hl (hsettled on through hlast)

end Runs

/-- From a machine that can be switched, over requests of any kind, processes and
boots: the hook is as the last switch left it, and the service if the commands of that
switch went through. The state given is that of the machine, wherever the command for
it is started: the last switch, if that went through. -/
theorem ntp_follows_last_switch (commands : NtpCommands S) (hc : commands.AsDocumented)
    (systemdVersion : Nat) (p : Process) (h : NtpHost S) (ls : List (NtpStep S))
    (s : NtpState S) (on through : Bool) (hready : Ready h)
    (hrun : Runs.run (ntpStep commands systemdVersion) ⟨p, h⟩ ls = some s)
    (hlast : lastSwitch ls = some (on, through)) :
    Settled on through s.host ∧ (through = true → s.host.usingNtp = on) ∧
      ∀ r t s', r.asksNtpState = true → endAs isStarted t = true →
        ntpStep commands systemdVersion s (.request r t) = some s' →
        s'.host.told =
          s.host.told ++ [[.s (ascii (if s.host.usingNtp then "enabled" else "disabled"))]] := by
  obtain ⟨-, hsettled⟩ := ntp_invariant hc hready ls s hrun
  have hs := hsettled on through hlast
  refine ⟨hs, ?_, ?_⟩
  · rintro rfl
    exact hs.usingNtp
  · intro r t s' hasks hstarted hstep
    exact ntpStep_request_only rfl hstarted hstep
      (safe_asks (hc.only _) NtpCommands.only_ends hasks hs.installed)

/-- Commands that do what they are asked if they exit with 0, and nothing otherwise. -/
def plainCommands : NtpCommands Unit where
  spawn h command exitStatus :=
    if command = "/usr/sbin/service ntp status" then
      if (exitStatus == some 0) = h.running then some h else none
    else if exitStatus ≠ some 0 then some h
    else if command = "/usr/sbin/update-rc.d ntp enable" then some { h with atBoot := true }
    else if command = "/usr/sbin/update-rc.d ntp disable" then some { h with atBoot := false }
    else if command = "/usr/sbin/service ntp restart" then some { h with running := true }
    else if command = "/usr/sbin/service ntp stop" then some { h with running := false }
    else some h
  boot h := { h with running := h.atBoot }

theorem plainCommands_asDocumented : plainCommands.AsDocumented where
  apart {h command exitStatus h'} hspawn := by
    simp only [plainCommands] at hspawn
    repeat' split at hspawn
    all_goals cases hspawn
    all_goals exact ⟨fun _ _ => rfl, rfl, rfl⟩
  status {h exitStatus h'} hspawn := by
    obtain ⟨hrunning, he⟩ := Option.ite_none_right_eq_some.mp hspawn
    obtain rfl := Option.some.inj he
    refine ⟨fun n hn => ?_, .refl h⟩
    rw [← hrunning, hn]
    simp
  enable hspawn := by
    obtain rfl := Option.some.inj hspawn
    rfl
  disable hspawn := by
    obtain rfl := Option.some.inj hspawn
    rfl
  restart hspawn := by
    obtain rfl := Option.some.inj hspawn
    exact ⟨rfl, rfl⟩
  stop hspawn := by
    obtain rfl := Option.some.inj hspawn
    exact ⟨rfl, rfl⟩
  boot h := ⟨⟨fun _ _ => rfl, rfl, rfl⟩, rfl, rfl⟩

/-- ntpd installed as well. -/
def bothInstalled : NtpHost Unit :=
  { disabledHook with file := fun path =>
      if path = ntpdAvailable then some [] else disabledHook.file path }

theorem ready_bothInstalled : Ready bothInstalled := ⟨fun _ => ⟨rfl, by decide⟩, by decide⟩

/-- A start, with this exit status of the commands of the service. -/
def startBoth (exitStatus : Option Int) : NtpStep Unit :=
  .request (.manager [] "StartUnit" [.string (ascii "ntpd.service")])
    [⟨.testExists ntpdateAvailable, true⟩, ⟨.testExists ntpdateAvailable, true⟩,
      ⟨.testExists ntpdateAvailable, true⟩, ⟨.testExists ntpdateEnabled, false⟩,
      ⟨.rename ntpdateDisabled ntpdateEnabled, ()⟩,
      ⟨.spawnSync "/etc/network/if-up.d/ntpdate", some (1 : Int)⟩,
      ⟨.testExists ntpdAvailable, true⟩,
      ⟨.spawnSync "/usr/sbin/update-rc.d ntp enable", exitStatus⟩,
      ⟨.spawnSync "/usr/sbin/service ntp restart", exitStatus⟩,
      ⟨.returnValue [.o (ascii "/")], ()⟩,
      ⟨.emitSignal (some []) "JobRemoved" [.u 0, .o (ascii "/"), .s [], .s []], ()⟩,
      ⟨.timeoutAdd 10000, (1 : Nat)⟩]

/-- A start, and then another process and another boot. -/
def startAndReboot : List (NtpStep Unit) := [startBoth (some 0), .restart, .reboot]

theorem ntp_follows_last_switch_start : ∃ s,
    Runs.run (ntpStep plainCommands 204) ⟨{}, bothInstalled⟩ startAndReboot = some s ∧
      Settled true true s.host := by
  refine ⟨⟨{}, _⟩, rfl, ?_⟩
  exact (ntp_follows_last_switch plainCommands plainCommands_asDocumented 204 {} bothInstalled
    startAndReboot ⟨{}, _⟩ true true ready_bothInstalled rfl rfl).1

-- a start whose commands fail leaves the service as it was, and says nothing of it
example : (Runs.run (ntpStep plainCommands 204) ⟨{}, bothInstalled⟩
    [startBoth (some 256), .restart, .reboot]).map (fun s => (s.host.running, s.host.usingNtp)) =
      some (false, true) ∧
    lastSwitch [startBoth (some 256), .restart, .reboot] = some (true, false) := ⟨rfl, rfl⟩

end Shim
