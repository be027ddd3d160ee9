import SystemdShim.Footprint

/- What the shim does to cgroups and to the recorded state is `core` of its
   trace: the cgmanager calls, the signals and the saves. Everything around a
   cgroup operation (looking the unit up, answering, re-arming the timer) and
   every other unit is `Quiet`. `Does` is the specification of a program by its core trace and the
   files it leaves; quiet programs before and after do not change it. -/
namespace Shim
open Effects

def core (t : ShimTrace) : ShimTrace := t.filter (fun e => isCgroupAct e.1)

@[simp] theorem core_append (t t' : ShimTrace) : core (t ++ t') = core t ++ core t' :=
  List.filter_append ..

/-- Any act but those on cgroups and the state, and no change to the files. -/
def Quiet {α : Type} (x : ShimM α) : Prop :=
  Proc.Footprint (fun a => !isCgroupAct a) (fun s s' : Process => s'.files = s.files) x

namespace Quiet
variable {α : Type}

theorem wp {x : ShimM α} (hx : Quiet x) (s : Process) :
    Proc.wp x s (fun t o => ∃ a s', o = .ok (a, s') ∧ core t = [] ∧ s'.files = s.files) := by
  refine Proc.wp_mono (Proc.Footprint.wp hx (rfl : (fun s' : Process => s'.files = s.files) s)
    (fun _ _ h hs => h.trans hs)) ?_
  intro t o h
  obtain ⟨a, s', rfl, hs', ht⟩ := h
  refine ⟨a, s', rfl, ?_, hs'⟩
  unfold core
  rw [List.filter_eq_nil_iff]
  intro e he
  simpa using ht e he

theorem housekeeping {x : ShimM α} (hx : Housekeeping x) : Quiet x :=
  hx.mono (fun a ha => by cases a <;> first | rfl | cases ha) (fun _ _ h => by rw [h]; rfl)

theorem inquiry {x : ShimM α} (hx : Inquiry x) : Quiet x := housekeeping hx.housekeeping

theorem powerWork {x : ShimM α} (hx : PowerWork x) : Quiet x :=
  hx.mono (fun a ha => by cases a <;> first | rfl | cases ha) (fun _ _ h => by rw [h.1]; rfl)

end Quiet

/-! Specifications by core trace and files. -/

def Does {α : Type} (x : ShimM α) (s : Process)
    (P : ShimTrace → Files → Prop) : Prop :=
  Proc.wp x s (fun t o => ∃ a s', o = .ok (a, s') ∧ P (core t) s'.files)

namespace Does
variable {α β : Type} {s : Process} {P : ShimTrace → Files → Prop}

theorem quiet {x : ShimM α} (hx : Quiet x) (h : P [] s.files) : Does x s P := by
  apply Proc.wp_mono (hx.wp s)
  intro t o ho
  obtain ⟨a, s', rfl, ht, hs'⟩ := ho
  exact ⟨a, s', rfl, by rw [ht, hs']; exact h⟩

theorem after {x : ShimM α} {f : α → ShimM β} (hx : Quiet x)
    (hf : ∀ a s', s'.files = s.files → Does (f a) s' P) : Does (x >>= f) s P := by
  apply Proc.wp_seq_ok (hx.wp s)
  intro t a s' h
  obtain ⟨ht, hs'⟩ := h
  apply Proc.wp_mono (hf a s' hs')
  intro t' o h
  obtain ⟨b, s'', rfl, hP⟩ := h
  exact ⟨b, s'', rfl, by rw [core_append, ht]; exact hP⟩

theorem before {x : ShimM α} {f : α → ShimM β} (hx : Does x s P) (hf : ∀ a, Quiet (f a)) :
    Does (x >>= f) s P := by
  apply Proc.wp_seq_ok hx
  intro t a s' hP
  apply Proc.wp_mono ((hf a).wp s')
  intro t' o h
  obtain ⟨b, s'', rfl, ht', hs''⟩ := h
  exact ⟨b, s'', rfl, by rw [core_append, ht', List.append_nil, hs'']; exact hP⟩

end Does

end Shim
