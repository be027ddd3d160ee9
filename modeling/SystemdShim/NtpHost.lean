import SystemdShim.Footprint
import SystemdShim.Lib.Rely

/- The machine that ntp-unit.c works on: the files it asks for, and the ntp
   service. The commands that the unit runs are other packages' code; what they are
   relied on for is `AsDocumented`, and where they fail that is nothing for the
   service. The hook of ntpdate is one file under one of two names, and no request
   loses it, whatever the commands and others do meanwhile to anything but these
   names (`hook_kept`). -/
namespace Shim
open Effects

structure NtpHost (S : Type) where
  /-- the contents under each path -/
  file : String → Option Bytes
  /-- whether a rename in /etc/network/if-up.d goes through -/
  writable : Bool
  /-- the ntp service now, and at the next boot -/
  running : Bool
  atBoot : Bool
  /-- all else that a command may go by -/
  rest : S
  /-- the values that requests have been answered with -/
  told : List (List Arg) := []

/-- The commands that the unit runs, and the boot. -/
structure NtpCommands (S : Type) where
  /-- The machine after a command that ends with this exit status, if it can; without
  one where the command cannot be started. -/
  spawn : NtpHost S → String → Option Int → Option (NtpHost S)
  boot : NtpHost S → NtpHost S

variable {S : Type}

namespace NtpHost

/-- rename(2): what was under the other name is gone. -/
def rename (h : NtpHost S) (source target : String) : NtpHost S :=
  match h.file source with
  | some contents =>
    if h.writable then
      { h with file := fun path =>
          if path = target then some contents else if path = source then none else h.file path }
    else h
  | none => h

def tell (h : NtpHost S) (value : List Arg) : NtpHost S := { h with told := h.told ++ [value] }

/-- The machine after an act, if the answer can come. -/
def answer (commands : NtpCommands S) (h : NtpHost S) : Event Ans → Option (NtpHost S)
  | ⟨.testExists path, found⟩ => if found = (h.file path).isSome then some h else none
  | ⟨.rename source target, _⟩ => some (h.rename source target)
  | ⟨.spawnSync command, exitStatus⟩ => commands.spawn h command exitStatus
  | ⟨.returnValue value, _⟩ => some (h.tell value)
  | _ => some h

/-- What ntp_unit_start and ntp_unit_stop do to the hook. -/
def switchNtpdate (h : NtpHost S) (usingNtp : Bool) : NtpHost S :=
  if (h.file ntpdateAvailable).isSome ∧ usingNtp ≠ (h.file ntpdateEnabled).isSome then
    if usingNtp then h.rename ntpdateDisabled ntpdateEnabled
    else h.rename ntpdateEnabled ntpdateDisabled
  else h

/-- What ntp_unit_get_state comes to. -/
def usingNtp (h : NtpHost S) : Bool :=
  (h.file ntpdateAvailable).isSome && (h.file ntpdateEnabled).isSome ||
    (h.file ntpdAvailable).isSome && h.running

def installed (h : NtpHost S) : Bool :=
  (h.file ntpdateAvailable).isSome || (h.file ntpdAvailable).isSome

/-- The packages and the names of the hook are the same, and nothing was answered. -/
def SameFiles (h h' : NtpHost S) : Prop :=
  (∀ path ∈ [ntpdateAvailable, ntpdAvailable, ntpdateEnabled, ntpdateDisabled],
    (h'.file path).isSome = (h.file path).isSome) ∧
  h'.writable = h.writable ∧ h'.told = h.told

/-- Nothing that the unit looks at is another. -/
def Same (h h' : NtpHost S) : Prop :=
  h.SameFiles h' ∧ h'.running = h.running ∧ h'.atBoot = h.atBoot

instance (h h' : NtpHost S) : Decidable (h.SameFiles h') := inferInstanceAs (Decidable (_ ∧ _))
instance (h h' : NtpHost S) : Decidable (h.Same h') := inferInstanceAs (Decidable (_ ∧ _))

theorem SameFiles.refl (h : NtpHost S) : h.SameFiles h := ⟨fun _ _ => rfl, rfl, rfl⟩

theorem SameFiles.trans {h h₁ h₂ : NtpHost S} (h₁₂ : h.SameFiles h₁) (h₂₃ : h₁.SameFiles h₂) :
    h.SameFiles h₂ :=
  ⟨fun path hpath => (h₂₃.1 path hpath).trans (h₁₂.1 path hpath), h₂₃.2.1.trans h₁₂.2.1,
    h₂₃.2.2.trans h₁₂.2.2⟩

theorem Same.refl (h : NtpHost S) : h.Same h := ⟨.refl h, rfl, rfl⟩

end NtpHost

/-- What the commands are relied on for. One that fails may have done anything to the
service. -/
structure NtpCommands.AsDocumented (commands : NtpCommands S) : Prop where
  /-- no command installs or removes a package, or renames the hook -/
  apart : ∀ {h command exitStatus h'}, commands.spawn h command exitStatus = some h' →
    h.SameFiles h'
  /-- the status of the service is 0 just if it runs, and to ask changes nothing -/
  status : ∀ {h exitStatus h'},
    commands.spawn h "/usr/sbin/service ntp status" exitStatus = some h' →
      (∀ n, exitStatus = some n → (n = 0 ↔ h.running = true)) ∧ h.Same h'
  enable : ∀ {h h'}, commands.spawn h "/usr/sbin/update-rc.d ntp enable" (some 0) = some h' →
    h'.atBoot = true
  disable : ∀ {h h'}, commands.spawn h "/usr/sbin/update-rc.d ntp disable" (some 0) = some h' →
    h'.atBoot = false
  restart : ∀ {h h'}, commands.spawn h "/usr/sbin/service ntp restart" (some 0) = some h' →
    h'.running = true ∧ h'.atBoot = h.atBoot
  stop : ∀ {h h'}, commands.spawn h "/usr/sbin/service ntp stop" (some 0) = some h' →
    h'.running = false ∧ h'.atBoot = h.atBoot
  /-- a boot starts the service just if it is enabled -/
  boot : ∀ h, h.SameFiles (commands.boot h) ∧ (commands.boot h).running = h.atBoot ∧
    (commands.boot h).atBoot = h.atBoot

/-- The acts that the machine is about. -/
def isHostAct : Act → Bool
  | .testExists _ => true
  | .rename _ _ => true
  | .spawnSync _ => true
  | .returnValue _ => true
  | _ => false

theorem NtpHost.answer_apart {commands : NtpCommands S} {h h' : NtpHost S} {a : Act} {r : Ans a}
    (ha : isHostAct a = false) (hr : NtpHost.answer commands h ⟨a, r⟩ = some h') : h' = h := by
  cases a <;> first | exact (Option.some.inj hr).symm | cases ha

theorem footprint_hadActivity : Proc.Footprint (fun a => !isHostAct a) TimerChange hadActivity :=
  .bind .get (fun _ => .bind (.ite (.act rfl) (.pure _)) (fun _ => .bind (.act rfl)
    (fun _ => .modify (fun _ => rfl))))

/-- To ask for the status of the service keeps `I`. -/
def StatusKeeps (commands : NtpCommands S) (I : NtpHost S → Prop) : Prop :=
  ∀ h exitStatus h', commands.spawn h "/usr/sbin/service ntp status" exitStatus = some h' →
    I h → I h'

section Kept
variable {commands : NtpCommands S} {W : Surroundings Ans (NtpHost S)} {I : NtpHost S → Prop}
  {α : Type} (hW : W.answer = NtpHost.answer commands) (hI : ∀ h h', W.moves h h' → I h → I h')
  (hp : ∀ h a, I h → W.permits h a)
include hW hI hp

/-- Nothing but the ntp unit has to do with the machine. -/
theorem preserves_apart {allowed : Act → Bool} {changes : Process → Process → Prop} {x : ShimM α}
    (hx : Proc.Footprint allowed changes x) (ha : ∀ a, allowed a = true → isHostAct a = false) :
    Proc.Preserves W I x := by
  apply Proc.Preserves.of_footprint hI hx (fun h a _ => hp h a)
  intro h a r h' hal hh hr
  rw [hW] at hr
  rw [NtpHost.answer_apart (ha a hal) hr]
  exact hh

/-- An act that leaves `I` alone. -/
theorem preserves_act {a : Act}
    (ha : ∀ h r h', I h → NtpHost.answer commands h ⟨a, r⟩ = some h' → I h') :
    Proc.Preserves W I (act a) := by
  apply Proc.Preserves.act hI (fun h => hp h a)
  intro h r h' hh hr
  rw [hW] at hr
  exact ha h r h' hh hr

theorem preserves_testExists (path : String) : Proc.Preserves W I (act (.testExists path)) := by
  apply preserves_act hW hI hp
  intro h r h' hh hr
  obtain ⟨-, he⟩ := Option.ite_some_none_eq_some.mp hr
  exact he ▸ hh

/-- What holds of the machine and is kept by others, every piece keeps. -/
theorem pieces_host (hs : StatusKeeps commands I) (ht : ∀ h value, I h → I (h.tell value)) :
    Pieces (fun _ x => Proc.Preserves W I x) where
  pure := .pure hI
  bind := .bind
  halt _ := .halt hI _
  ntpUnitGet := .bind (preserves_testExists hW hI hp _) (fun _ => .ite (.pure hI _)
    (preserves_testExists hW hI hp _))
  ntpUnitGetState := by
    refine .bind (.bind (preserves_testExists hW hI hp _) (fun _ => .ite
      (preserves_testExists hW hI hp _) (.pure hI _))) (fun _ => .ite (.pure hI _)
      (.bind ?_ (fun _ => .ite (.pure hI _) (.pure hI _))))
    exact .bind (preserves_testExists hW hI hp _) (fun _ => .ite
      (.bind (preserves_act hW hI hp (fun h r h' hh hr => hs h r h' hr hh)) (fun _ => .pure hI _))
      (.pure hI _))
  detectVirtualization := preserves_act hW hI hp (fun _ _ _ h hr => Option.some.inj hr ▸ h)
  hadActivity := preserves_apart hW hI hp footprint_hadActivity (by simp)
  cgroup hx := preserves_apart hW hI hp hx (fun a ha => by cases a <;> first | rfl | cases ha)
  returnValue _ := preserves_act hW hI hp (fun _ _ _ h hr => Option.some.inj hr ▸ ht _ _ h)
  returnGError _ := preserves_act hW hI hp (fun _ _ _ h hr => Option.some.inj hr ▸ h)
  emitSignal _ _ _ := preserves_act hW hI hp (fun _ _ _ h hr => Option.some.inj hr ▸ h)

/-- What is kept by others too, every request keeps that does not switch the unit,
and one that does if the switch keeps it. -/
theorem preserves_request (hs : StatusKeeps commands I)
    (ht : ∀ h value, I h → I (h.tell value)) (systemdVersion : Nat) (r : Request)
    (hN : ∀ usingNtp, r.switchesNtp = some usingNtp → Proc.Preserves W I (ntpUnitSwitch usingNtp)) :
    Proc.Preserves W I (r.handle systemdVersion) := by
  apply (pieces_host hW hI hp hs ht).handle r _ hN
  intro action _
  apply preserves_apart hW hI hp (PowerWork.powerUnitStart action)
  intro a ha
  cases a <;> first | rfl | cases ha

end Kept

/-! The hook, whatever others do. -/

/-- The hook has the contents `c`, under one of its names; `none` where there is no
hook. -/
def HookIs (c : Option Bytes) (h : NtpHost S) : Prop :=
  h.file ntpdateEnabled = c ∧ h.file ntpdateDisabled = none ∨
    h.file ntpdateEnabled = none ∧ h.file ntpdateDisabled = c

/-- Commands that end any way, and do what others do. -/
def anyCommands : NtpCommands S where
  spawn h _ _ := some h
  boot h := h

/-- Others, and the commands, do what they like, but leave the two names alone. -/
def amidOthers (c : Option Bytes) : Surroundings Ans (NtpHost S) where
  moves h h' := h'.file ntpdateEnabled = h.file ntpdateEnabled ∧
    h'.file ntpdateDisabled = h.file ntpdateDisabled
  answer := NtpHost.answer anyCommands
  permits h _ := HookIs c h
  refl _ := ⟨rfl, rfl⟩
  trans h h' := ⟨h'.1.trans h.1, h'.2.trans h.2⟩

theorem NtpHost.rename_file (h : NtpHost S) {source target : String} {contents : Bytes}
    (hs : h.file source = some contents) (hw : h.writable = true) (path : String) :
    (h.rename source target).file path =
      if path = target then some contents else if path = source then none else h.file path := by
  unfold NtpHost.rename
  rw [hs]
  simp only [hw, if_true]

theorem NtpHost.rename_stays (h : NtpHost S) {source target : String}
    (hs : h.file source = none ∨ h.writable = false) : h.rename source target = h := by
  unfold NtpHost.rename
  cases hfile : h.file source with
  | none => rfl
  | some contents =>
    obtain hs | hw := hs
    · rw [hfile] at hs
      cases hs
    · simp [hw]

theorem names_ne : ntpdateEnabled ≠ ntpdateDisabled := by decide

/-- Nothing is under the name that the hook moves to. -/
theorem HookIs.enable {c : Option Bytes} {h : NtpHost S} (hc : HookIs c h) :
    HookIs c (h.rename ntpdateDisabled ntpdateEnabled) := by
  by_cases hstay : h.file ntpdateDisabled = none ∨ h.writable = false
  · rw [h.rename_stays hstay]
    exact hc
  · rw [not_or] at hstay
    obtain ⟨contents, hcontents⟩ := Option.ne_none_iff_exists'.mp hstay.1
    have hw : h.writable = true := by simpa using hstay.2
    obtain ⟨-, hd⟩ | ⟨-, hd⟩ := hc
    · exact absurd hd hstay.1
    · refine .inl ⟨?_, ?_⟩
      · rw [h.rename_file hcontents hw, if_pos rfl, ← hcontents, hd]
      · rw [h.rename_file hcontents hw, if_neg names_ne.symm, if_pos rfl]

theorem HookIs.disable {c : Option Bytes} {h : NtpHost S} (hc : HookIs c h) :
    HookIs c (h.rename ntpdateEnabled ntpdateDisabled) := by
  by_cases hstay : h.file ntpdateEnabled = none ∨ h.writable = false
  · rw [h.rename_stays hstay]
    exact hc
  · rw [not_or] at hstay
    obtain ⟨contents, hcontents⟩ := Option.ne_none_iff_exists'.mp hstay.1
    have hw : h.writable = true := by simpa using hstay.2
    obtain ⟨he, -⟩ | ⟨he, -⟩ := hc
    · refine .inr ⟨?_, ?_⟩
      · rw [h.rename_file hcontents hw, if_neg names_ne, if_pos rfl]
      · rw [h.rename_file hcontents hw, if_pos rfl, ← hcontents, he]
    · exact absurd he hstay.1

section Hook
variable {c : Option Bytes}

theorem hookIs_moves (h h' : NtpHost S) (hm : (amidOthers c).moves h h') (hc : HookIs c h) :
    HookIs c h' := by
  obtain ⟨he, hd⟩ := hm
  unfold HookIs
  rw [he, hd]
  exact hc

theorem preserves_hook {a : Act}
    (ha : ∀ (h : NtpHost S) r h', HookIs c h → NtpHost.answer anyCommands h ⟨a, r⟩ = some h' →
      HookIs c h') : Proc.Preserves (amidOthers c) (HookIs (S := S) c) (act a) :=
  preserves_act rfl hookIs_moves (fun _ _ hc => hc) ha

theorem preserves_exists (path : String) :
    Proc.Preserves (amidOthers c) (HookIs (S := S) c) (act (.testExists path)) :=
  preserves_testExists rfl hookIs_moves (fun _ _ hc => hc) path

theorem preserves_spawn (command : String) :
    Proc.Preserves (amidOthers c) (HookIs (S := S) c) (act (.spawnSync command)) :=
  preserves_hook (fun _ _ _ hc hr => Option.some.inj hr ▸ hc)

theorem preserves_ntpUnitSwitch (usingNtp : Bool) :
    Proc.Preserves (amidOthers c) (HookIs (S := S) c) (ntpUnitSwitch usingNtp) := by
  have done : Proc.Preserves (amidOthers c) (HookIs (S := S) c) (pure () : ShimM Unit) :=
    .pure hookIs_moves ()
  refine .bind (.bind (preserves_exists _) (fun _ => .ite ?_ done)) (fun _ =>
    .bind (preserves_exists _) (fun _ => .ite ?_ done))
  · refine .bind (.bind (preserves_exists _) (fun _ => .ite (preserves_exists _)
      (.pure hookIs_moves _))) (fun _ => .ite done (.ite (.bind ?_ (fun _ =>
        .bind (preserves_spawn _) (fun _ => done))) ?_))
    · exact preserves_hook (fun h _ _ hc hr => Option.some.inj hr ▸ hc.enable)
    · exact preserves_hook (fun h _ _ hc hr => Option.some.inj hr ▸ hc.disable)
  · exact .bind (preserves_spawn _) (fun _ => .bind (preserves_spawn _) (fun _ => done))

end Hook

/-- Requests of any kind, whatever others and the commands do to the packages, the
services and all other files between any two acts: a hook that has one name keeps its
contents and one of its two names, at every act and at the end. -/
theorem hook_kept (systemdVersion : Nat) (c : Option Bytes) (rs : List Request) (p : Process)
    (h : NtpHost S) (hc : HookIs c h) :
    (serve systemdVersion rs).safe (amidOthers c) p h (fun _ h' => HookIs c h') := by
  induction rs generalizing p h with
  | nil => exact Proc.Preserves.pure hookIs_moves () p h hc
  | cons r rs ih =>
    have hr : Proc.Preserves (amidOthers c) (HookIs (S := S) c) (r.handle systemdVersion) :=
      preserves_request rfl hookIs_moves (fun _ _ hc => hc)
        (fun _ _ _ hspawn hc => Option.some.inj hspawn ▸ hc) (fun _ _ hc => hc) systemdVersion r
        (fun usingNtp _ => preserves_ntpUnitSwitch usingNtp)
    exact Proc.Preserves.bind hr (fun _ p h => ih p h) p h hc

/-- A disabled hook, and ntpdate installed. -/
def disabledHook : NtpHost Unit where
  file path :=
    if path = ntpdateDisabled then some (ascii "#!/bin/sh")
    else if path = ntpdateAvailable then some []
    else none
  writable := true
  running := false
  atBoot := false
  rest := ()

theorem hook_kept_disabled : (serve 204 [.manager [] "StartUnit" [.string (ascii "ntpd.service")],
    .manager [] "StopUnit" [.string (ascii "ntpd.service")]]).safe
      (amidOthers (some (ascii "#!/bin/sh"))) {} disabledHook
      (fun _ h' => HookIs (some (ascii "#!/bin/sh")) h') :=
  hook_kept 204 _ _ {} disabledHook (.inr ⟨by decide, by decide⟩)

end Shim
