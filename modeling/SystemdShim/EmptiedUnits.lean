import Mathlib.Data.List.Infix
import SystemdShim.AskedActs
import SystemdShim.ReleasedUnits

/- From the last task to the forgotten unit. A cgroup that notifies on release and has
   something in it stays so, whoever does what, until it is removed or released
   (`Kernel.Follows`); so a unit whose cgroup was occupied and is empty is off record,
   or a release of it is on its way, if none has been lost (`emptied_is_forgotten`). A
   task that exits before the shim has set notify_on_release is not noticed, and its
   unit stays on record: the run at the end. -/
namespace Shim
open Effects History

namespace Kernel

/-- The cgroup notifies, and has a task or a cgroup below. -/
def Occupied (k : Kernel) (cg : Place) : Prop := k.notifies cg = true ∧ k.isEmpty cg = false

/-- Every cgroup is in one. -/
def Rooted (k : Kernel) : Prop := ∀ x ∈ k.cgroups, k.isCgroup x.1.dropLast = true

/-- An occupied cgroup stays so, is removed or is released. -/
def Follows (cg : Place) (k k' : Kernel) : Prop :=
  k'.Occupied cg ∨ k'.isCgroup cg = false ∨
    ∃ xs id, k'.log = k.log ++ xs ∧ .released id cg ∈ xs

variable {k k' : Kernel} {pid : Int32} {cg q : Place}

theorem isEmpty_iff : k.isEmpty cg = true ↔
    (∀ pid, k.tasks.lookup pid ≠ some cg) ∧ ∀ x ∈ k.cgroups, cg <+: x.1 → cg = x.1 := by
  simp only [isEmpty, Bool.and_eq_true, List.all_eq_true, Bool.not_eq_true', decide_eq_true_eq,
    Bool.and_eq_false_iff, decide_eq_false_iff_not, not_not]
  refine and_congr ⟨fun h pid hl => ?_, fun h t ht he => ?_⟩ (forall₂_congr fun x _ => ?_)
  · exact h _ (AList.mem_lookup_iff.mp hl) rfl
  · obtain ⟨pid, q⟩ := t
    obtain rfl : q = cg := he
    exact h pid (AList.mem_lookup_iff.mpr ht)
  · exact ⟨fun h hp => h.resolve_left (not_not.mpr hp), fun h => or_iff_not_imp_left.mpr
      (fun hp => h (not_not.mp hp))⟩

theorem not_isEmpty_iff : k.isEmpty cg = false ↔
    (∃ pid, k.tasks.lookup pid = some cg) ∨ ∃ x ∈ k.cgroups, cg <+: x.1 ∧ cg ≠ x.1 := by
  rw [← Bool.not_eq_true, isEmpty_iff, not_and_or]
  push Not
  rfl

theorem notifies_iff : k.notifies cg = true ↔ (cg, true) ∈ k.cgroups := by
  simp only [notifies, List.any_eq_true, Bool.and_eq_true, decide_eq_true_eq]
  constructor
  · intro h
    obtain ⟨⟨q, b⟩, hx, rfl, rfl⟩ := h
    exact hx
  · exact fun h => ⟨_, h, rfl, rfl⟩

/-- Nothing in the cgroup leaves, and no cgroup is removed. -/
theorem Occupied.grows (h : k.Occupied cg) (hc : k.cgroups ⊆ k'.cgroups)
    (ht : ∀ pid, k.tasks.lookup pid = some cg → k'.tasks.lookup pid = some cg) :
    k'.Occupied cg := by
  refine ⟨notifies_iff.mpr (hc (notifies_iff.mp h.1)), not_isEmpty_iff.mpr ?_⟩
  obtain ⟨pid, hl⟩ | ⟨x, hx, hp⟩ := not_isEmpty_iff.mp h.2
  · exact .inl ⟨pid, ht pid hl⟩
  · exact .inr ⟨x, hc hx, hp⟩

@[simp] theorem checkForRelease_cgroups : (k.checkForRelease q).cgroups = k.cgroups := by
  unfold checkForRelease
  split <;> rfl

@[simp] theorem checkForRelease_tasks : (k.checkForRelease q).tasks = k.tasks := by
  unfold checkForRelease
  split <;> rfl

theorem Occupied.checkForRelease (h : k.Occupied cg) : (k.checkForRelease q).Occupied cg :=
  h.grows (by simp) (by simp)

theorem follows_checkForRelease (hn : k.notifies cg = true) :
    Follows cg k (k.checkForRelease cg) := by
  cases he : k.isEmpty cg with
  | false => exact .inl (Occupied.checkForRelease ⟨hn, he⟩)
  | true =>
    refine .inr (.inr ⟨[.released k.releases cg], k.releases, ?_, List.mem_singleton_self _⟩)
    simp [checkForRelease, hn, he]

/-- After an entry in the log. -/
theorem Follows.after {k₁ : Kernel} {ys : List Happening} (h : Follows cg k₁ k')
    (hlog : k₁.log = k.log ++ ys) : Follows cg k k' := by
  obtain h | h | ⟨xs, id, hx, hm⟩ := h
  · exact .inl h
  · exact .inr (.inl h)
  · have hall : k'.log = k.log ++ (ys ++ xs) := by rw [hx, hlog, List.append_assoc]
    exact .inr (.inr ⟨ys ++ xs, id, hall, List.mem_append_right _ hm⟩)

/-- A task leaves `q`, which is then checked. -/
theorem follows_leave {k₁ : Kernel} {ys : List Happening} (h : k.Occupied cg)
    (hc : k₁.cgroups = k.cgroups) (hlog : k₁.log = k.log ++ ys)
    (ht : cg ≠ q → ∀ pid, k.tasks.lookup pid = some cg → k₁.tasks.lookup pid = some cg) :
    Follows cg k (k₁.checkForRelease q) := by
  by_cases hq : cg = q
  · subst hq
    have hn : k₁.notifies cg = true := notifies_iff.mpr (hc ▸ notifies_iff.mp h.1)
    exact (follows_checkForRelease hn).after hlog
  · exact .inl (Occupied.checkForRelease (h.grows (by rw [hc]; exact List.Subset.refl _) (ht hq)))

/-- An operation of the kernel, as far as occupied cgroups go. -/
def Tracks (k k' : Kernel) : Prop :=
  k.Rooted → k'.Rooted ∧ ∀ cg, k.Occupied cg → Follows cg k k'

theorem Tracks.refl (k : Kernel) : k.Tracks k := fun hr => ⟨hr, fun _ h => .inl h⟩

theorem isCgroup_grows (hc : k.cgroups ⊆ k'.cgroups) (h : k.isCgroup q = true) :
    k'.isCgroup q = true := by
  obtain h | ⟨x, hx, h⟩ := isCgroup_iff.mp h
  · exact isCgroup_iff.mpr (.inl h)
  · exact isCgroup_iff.mpr (.inr ⟨x, hc hx, h⟩)

theorem Rooted.congr (hr : k.Rooted) (hc : k'.cgroups = k.cgroups) : k'.Rooted := by
  intro x hx
  rw [hc] at hx
  exact isCgroup_grows (by rw [hc]; exact List.Subset.refl _) (hr x hx)

theorem mkdir_grows : k.cgroups ⊆ (k.mkdir q).cgroups := by
  unfold mkdir
  split
  · exact List.Subset.refl _
  · exact List.subset_append_left _ _

theorem isCgroup_mkdir : (k.mkdir q).isCgroup q = true := by
  unfold mkdir
  split
  · assumption
  · exact isCgroup_iff.mpr (.inr ⟨_, List.mem_append_right _ (List.mem_singleton_self _), rfl⟩)

theorem mkdir_tasks : (k.mkdir q).tasks = k.tasks := by
  unfold mkdir
  split <;> rfl

theorem Rooted.mkdir (hr : k.Rooted) (hq : k.isCgroup q.dropLast = true) : (k.mkdir q).Rooted := by
  intro x hx
  have hgrows : k.cgroups ⊆ (k.mkdir q).cgroups := mkdir_grows
  by_cases hold : x ∈ k.cgroups
  · exact isCgroup_grows hgrows (hr x hold)
  · obtain rfl : x.1 = q := by
      unfold Kernel.mkdir at hx
      split at hx
      · exact absurd hx hold
      · rw [List.mem_singleton.mp ((List.mem_append.mp hx).resolve_left hold)]
    exact isCgroup_grows hgrows hq

theorem tracks_mkdir (hq : k.isCgroup q.dropLast = true) : k.Tracks (k.mkdir q) := fun hr =>
  ⟨hr.mkdir hq, fun _ h => .inl (h.grows mkdir_grows (by rw [mkdir_tasks]; exact fun _ => id))⟩

/-- From the root down, each in the one before. -/
theorem mkdirs_spec (hr : k.Rooted) : (k.mkdirs q).Rooted ∧ (k.mkdirs q).isCgroup q = true ∧
    k.cgroups ⊆ (k.mkdirs q).cgroups ∧ (k.mkdirs q).tasks = k.tasks := by
  induction q using List.reverseRecOn with
  | nil =>
    have hnil : k.mkdirs [] = k := by simp [mkdirs, mkdir, isCgroup]
    rw [hnil]
    exact ⟨hr, by simp [isCgroup], List.Subset.refl _, rfl⟩
  | append_singleton q a ih =>
    obtain ⟨hrooted, hin, hgrows, htasks⟩ := ih
    have hstep : k.mkdirs (q ++ [a]) = (k.mkdirs q).mkdir (q ++ [a]) := by
      simp [mkdirs, List.inits_append]
    rw [hstep]
    exact ⟨hrooted.mkdir (by rw [List.dropLast_concat]; exact hin), isCgroup_mkdir,
      List.Subset.trans hgrows mkdir_grows, mkdir_tasks.trans htasks⟩

theorem tracks_mkdirs : k.Tracks (k.mkdirs q) := by
  intro hr
  obtain ⟨hrooted, -, hgrows, htasks⟩ := mkdirs_spec hr (q := q)
  exact ⟨hrooted, fun _ h => .inl (h.grows hgrows (by rw [htasks]; exact fun _ => id))⟩

/-- To let a cgroup notify takes nothing away. -/
theorem tracks_setNotify : k.Tracks (k.setNotify q true) := by
  have hname : ∀ x : Place × Bool, (if x.1 = q then (q, true) else x).1 = x.1 := by
    intro x
    split
    · rename_i h; exact h.symm
    · rfl
  intro hr
  refine ⟨fun y hy => ?_, fun cg h => .inl ⟨notifies_iff.mpr ?_, not_isEmpty_iff.mpr ?_⟩⟩
  · obtain ⟨x, hx, rfl⟩ := List.mem_map.mp hy
    rw [hname]
    obtain hroot | ⟨z, hz, hparent⟩ := isCgroup_iff.mp (hr x hx)
    · exact isCgroup_iff.mpr (.inl hroot)
    · exact isCgroup_iff.mpr (.inr ⟨_, List.mem_map_of_mem hz, (hname z).trans hparent⟩)
  · refine List.mem_map.mpr ⟨(cg, true), notifies_iff.mp h.1, ?_⟩
    split
    · rename_i hq
      exact Prod.ext hq.symm rfl
    · rfl
  · obtain hl | ⟨x, hx, hp⟩ := not_isEmpty_iff.mp h.2
    · exact .inl hl
    · exact .inr ⟨_, List.mem_map_of_mem hx, by rw [hname]; exact hp⟩

theorem tracks_enter : k.Tracks (k.enter pid q) := by
  intro hr
  unfold enter
  split
  · rename_i hnone
    refine ⟨hr.congr rfl, fun cg h => .inl (h.grows (List.Subset.refl _) (fun p hp => ?_))⟩
    have hne : p ≠ pid := by
      rintro rfl
      rw [hnone] at hp
      cases hp
    exact (AList.lookup_insert_ne hne).trans hp
  · rename_i old hold
    split
    · exact ⟨hr, fun _ h => .inl h⟩
    · refine ⟨hr.congr checkForRelease_cgroups, fun cg h => follows_leave h rfl rfl ?_⟩
      intro hcg p hp
      have hne : p ≠ pid := by
        rintro rfl
        exact hcg (Option.some.inj (hp.symm.trans hold))
      exact (AList.lookup_insert_ne hne).trans hp

theorem tracks_exit (h : k.exit pid = some k') : k.Tracks k' := by
  intro hr
  unfold exit at h
  split at h
  · rename_i old hold
    obtain rfl := Option.some.inj h
    refine ⟨hr.congr checkForRelease_cgroups, fun cg h => follows_leave h rfl rfl ?_⟩
    intro hcg p hp
    have hne : p ≠ pid := by
      rintro rfl
      exact hcg (Option.some.inj (hp.symm.trans hold))
    exact (AList.lookup_erase_ne hne).trans hp
  · cases h

theorem tracks_fork {child : Int32} (h : k.fork pid child = some k') : k.Tracks k' := by
  unfold fork at h
  split at h
  · obtain rfl := Option.some.inj h
    exact tracks_enter
  · cases h

/-- Above a cgroup there is another, or the root. -/
theorem Rooted.above {name : Bytes} (hr : k.Rooted) (hq : k.isCgroup (q ++ [name]) = true)
    (hne : q ≠ []) : ∃ x ∈ k.cgroups, x.1 = q := by
  obtain hnil | ⟨x, hx, hxq⟩ := isCgroup_iff.mp hq
  · exact absurd hnil (List.concat_ne_nil name q)
  · have hin := hr x hx
    rw [hxq, List.dropLast_concat] at hin
    exact (isCgroup_iff.mp hin).resolve_left hne

/-- Without the cgroup and those below. -/
def without (k : Kernel) (q : Place) : Kernel :=
  { k with cgroups := k.cgroups.filter (fun x => !(q <+: x.1)) }

theorem mem_without {x : Place × Bool} :
    x ∈ (k.without q).cgroups ↔ x ∈ k.cgroups ∧ ¬ q <+: x.1 := by
  simp [without]

theorem Rooted.without (hr : k.Rooted) : (k.without q).Rooted := by
  intro x hx
  obtain ⟨hx, hno⟩ := mem_without.mp hx
  obtain hroot | ⟨y, hy, hparent⟩ := isCgroup_iff.mp (hr x hx)
  · exact isCgroup_iff.mpr (.inl hroot)
  · refine isCgroup_iff.mpr (.inr ⟨y, mem_without.mpr ⟨hy, fun hp => hno ?_⟩, hparent⟩)
    rw [hparent] at hp
    exact hp.trans (List.dropLast_prefix _)

theorem not_isCgroup_without (hq : q ≠ []) (hbelow : q <+: cg) :
    (k.without q).isCgroup cg = false := by
  rw [← Bool.not_eq_true, isCgroup_iff]
  intro h
  obtain rfl | ⟨x, hx, rfl⟩ := h
  · exact hq (List.prefix_nil.mp hbelow)
  · exact (mem_without.mp hx).2 hbelow

/-- A cgroup further up has the one above the removed one in or below it. -/
theorem Occupied.without (h : k.Occupied cg) (hr : k.Rooted) (hq : q ≠ [])
    (hin : k.isCgroup q = true) (hbelow : ¬ q <+: cg) (habove : cg ≠ q.dropLast) :
    (k.without q).Occupied cg := by
  refine ⟨notifies_iff.mpr (mem_without.mpr ⟨notifies_iff.mp h.1, hbelow⟩), not_isEmpty_iff.mpr ?_⟩
  obtain hl | ⟨x, hx, hp, hne⟩ := not_isEmpty_iff.mp h.2
  · exact .inl hl
  · right
    by_cases hgone : q <+: x.1
    · have hpre : cg <+: q := (List.prefix_or_prefix_of_prefix hp hgone).resolve_right hbelow
      obtain ⟨above, name, rfl⟩ := (List.eq_nil_or_concat' q).resolve_left hq
      rw [List.dropLast_concat] at habove
      obtain rfl | hpre := List.prefix_concat_iff.mp hpre
      · exact absurd (List.prefix_refl _) hbelow
      · have hne : above ≠ [] := fun hnil => by
          subst hnil
          exact habove (List.prefix_nil.mp hpre)
        obtain ⟨y, hy, rfl⟩ := hr.above hin hne
        refine ⟨y, mem_without.mpr ⟨hy, fun hp => ?_⟩, hpre, habove⟩
        have := hp.length_le
        rw [List.length_append, List.length_singleton] at this
        omega
    · exact ⟨x, mem_without.mpr ⟨hx, hgone⟩, hp, hne⟩

theorem tracks_rmdir {recursive : Bool} (h : k.rmdir q recursive = some k') : k.Tracks k' := by
  unfold rmdir at h
  obtain ⟨⟨hq, hin, -, -⟩, he⟩ := Option.ite_none_right_eq_some.mp h
  obtain rfl : (k.without q).checkForRelease q.dropLast = k' := Option.some.inj he
  intro hr
  refine ⟨hr.without.congr checkForRelease_cgroups, fun cg h => ?_⟩
  by_cases hbelow : q <+: cg
  · have hgone : (k.without q).isCgroup cg = false := not_isCgroup_without hq hbelow
    rw [isCgroup, ← checkForRelease_cgroups (q := q.dropLast)] at hgone
    exact .inr (.inl hgone)
  · by_cases habove : cg = q.dropLast
    · subst habove
      have hn : (k.without q).notifies q.dropLast = true :=
        notifies_iff.mpr (mem_without.mpr ⟨notifies_iff.mp h.1, hbelow⟩)
      exact (follows_checkForRelease hn).after (List.append_nil _).symm
    · exact .inl (h.without hr hq hin hbelow habove).checkForRelease

/-- The shim sets nothing but 1. -/
def SetsOne : Event Ans → Prop
  | ⟨.cgmanagerCall (.setValue _ _ _ value), _⟩ => value = ascii "1"
  | _ => True

theorem tracks_answer {e : Event Ans} (he : SetsOne e) (h : k.answer e = some k') :
    k.Tracks k' := by
  unfold answer at h
  split at h
  · obtain rfl := Option.some.inj h
    exact tracks_mkdirs
  · obtain ⟨-, h⟩ := Option.ite_none_right_eq_some.mp h
    obtain rfl := Option.some.inj h
    exact tracks_enter
  · obtain ⟨-, h⟩ := Option.ite_none_right_eq_some.mp h
    split at h
    · obtain rfl := Option.some.inj h
      obtain rfl : _ = ascii "1" := he
      rw [decide_eq_true rfl]
      exact tracks_setNotify
    · obtain rfl := Option.some.inj h
      exact .refl k
  · exact tracks_rmdir h
  · obtain ⟨-, h⟩ := Option.ite_none_right_eq_some.mp h
    obtain rfl := Option.some.inj h
    exact .refl k
  · obtain rfl := Option.some.inj h
    exact .refl k

end Kernel
/-! The parties. -/

/-- An act of the shim sets nothing but 1. -/
theorem setsOne_did {w : World} (hi : w.Inv) {e : Event Ans} (he : .did e ∈ w.kernel.log) :
    Kernel.SetsOne e := by
  obtain ⟨n, hn⟩ := List.mem_iff_getElem?.mp he
  obtain ⟨⟨c, s, t, t', f', -, hop⟩, -⟩ := hi.law n _ hn
  rw [core_append] at hop
  obtain ⟨a, reply⟩ := e
  cases a with
  | cgmanagerCall call =>
    cases call with
    | setValue controllers path key value =>
      have hcall : CgCall.setValue controllers path key value ∈
          cgCalls (core t ++ ⟨.cgmanagerCall (.setValue controllers path key value), reply⟩ ::
            core t') := mem_cgCalls.mpr ⟨reply, List.mem_append_right _ (List.mem_cons_self ..)⟩
      obtain ⟨unit, path', uid, pids, -, hmem⟩ | ⟨unit, path', -, -, hmem⟩ |
        ⟨unit, path', -, -, hmem⟩ := hop.calls hcall
      · obtain h | ⟨-, h⟩ | ⟨_, -, h⟩ | h := mem_createCalls.mp hmem
        · cases h
        · cases h
        · cases h
        · exact (CgCall.setValue.inj h).2.2.2
      · simp [roundCalls] at hmem
      · cases hmem
    | _ => trivial
  | _ => trivial

namespace Kernel

/-- A move of a task, or an edit of the cgroups, that is not the shim's. -/
inductive Elsewhere (k : Kernel) : Kernel → Prop
  | fork {parent child : Int32} {k' : Kernel} (h : k.fork parent child = some k') : Elsewhere k k'
  | exit {pid : Int32} {k' : Kernel} (h : k.exit pid = some k') : Elsewhere k k'
  | enter (pid : Int32) (cg : Place) : Elsewhere k (k.enter pid cg)
  | mkdir {cg : Place} (h : k.isCgroup cg.dropLast = true) : Elsewhere k (k.mkdir cg)
  | rmdir {cg : Place} {k' : Kernel} (h : k.rmdir cg false = some k') : Elsewhere k k'

variable {k k' : Kernel}

theorem Elsewhere.reports (h : k.Elsewhere k') : k.Reports k' := by
  cases h with
  | fork h => exact reports_fork h
  | exit h => exact reports_exit h
  | enter pid cg => exact reports_enter
  | mkdir h => exact reports_mkdir
  | rmdir h => exact reports_rmdir h

theorem Elsewhere.tracks (h : k.Elsewhere k') : k.Tracks k' := by
  cases h with
  | fork h => exact tracks_fork h
  | exit h => exact tracks_exit h
  | enter pid cg => exact tracks_enter
  | mkdir h => exact tracks_mkdir h
  | rmdir h => exact tracks_rmdir h

theorem Tracks.note {x : Happening} (h : k.Tracks k') : k.Tracks (k'.note x) := by
  intro hr
  obtain ⟨hr', hf⟩ := h hr
  refine ⟨hr', fun cg ho => ?_⟩
  obtain h | h | ⟨xs, id, hlog, hm⟩ := hf cg ho
  · exact .inl h
  · exact .inr (.inl h)
  · refine .inr (.inr ⟨xs ++ [x], id, ?_, List.mem_append_left _ hm⟩)
    rw [← List.append_assoc, ← hlog]
    rfl

end Kernel

variable {w w' : World}

/-- What a step of the parties does to the kernel. -/
theorem worldStep_kernel {m : Move} (hs : worldStep w m = some w') :
    (∃ pending xs, w'.kernel = { w.kernel with pending := pending, log := w.kernel.log ++ xs }) ∨
    (∃ e k, w.kernel.answer e = some k ∧ w'.kernel = k.note (.did e)) ∨
    w.kernel.Elsewhere w'.kernel := by
  have elsewhere : ∀ {k : Option Kernel}, w.runKernel k = some w' →
      (∀ k', k = some k' → w.kernel.Elsewhere k') → w.kernel.Elsewhere w'.kernel := by
    intro k hk h
    obtain ⟨k', hk', rfl⟩ := Option.map_eq_some_iff.mp hk
    exact h k' hk'
  cases m with
  | send c =>
    obtain rfl := Option.some.inj hs
    exact .inl ⟨_, [], by rw [List.append_nil]⟩
  | agent id =>
    obtain ⟨x, -, -, rfl⟩ := worldStep_agent hs
    exact .inl ⟨_, [], by rw [List.append_nil]⟩
  | agentFails id =>
    obtain ⟨x, -, -, rfl⟩ := worldStep_agentFails hs
    exact .inl ⟨_, _, rfl⟩
  | deliver i =>
    obtain ⟨m, -, rfl⟩ := worldStep_deliver hs
    exact .inl ⟨_, [], by rw [List.append_nil]⟩
  | handle i =>
    obtain ⟨origin, c, -, -, rfl⟩ := worldStep_handle hs
    exact .inl ⟨_, _, rfl⟩
  | act e =>
    simp only [worldStep, Option.bind_eq_bind, Option.bind_eq_some_iff] at hs
    obtain ⟨h, -, th, -, k, hk, hs⟩ := hs
    obtain rfl := Option.some.inj hs
    exact .inr (.inl ⟨e, k, hk, rfl⟩)
  | finish =>
    simp only [worldStep] at hs
    split at hs
    · split at hs
      · obtain rfl := Option.some.inj hs
        exact .inl ⟨_, [], by rw [List.append_nil]⟩
      · cases hs
    · cases hs
  | restart =>
    obtain ⟨-, rfl⟩ := worldStep_restart hs
    exact .inl ⟨_, _, rfl⟩
  | fork parent child => exact .inr (.inr (elsewhere hs (fun _ h => .fork h)))
  | exit pid => exact .inr (.inr (elsewhere hs (fun _ h => .exit h)))
  | enter pid cg =>
    refine .inr (.inr (elsewhere hs (fun k' h => ?_)))
    obtain ⟨-, h⟩ := Option.ite_none_right_eq_some.mp h
    obtain rfl := Option.some.inj h
    exact .enter pid cg
  | mkdir cg =>
    refine .inr (.inr (elsewhere hs (fun k' h => ?_)))
    obtain ⟨hcg, h⟩ := Option.ite_none_right_eq_some.mp h
    obtain rfl := Option.some.inj h
    exact .mkdir hcg
  | rmdir cg => exact .inr (.inr (elsewhere hs (fun _ h => .rmdir h)))

theorem log_worldStep {m : Move} (hs : worldStep w m = some w') :
    w.kernel.log <+: w'.kernel.log := by
  obtain ⟨pending, xs, hk⟩ | ⟨e, k, ha, hk⟩ | h := worldStep_kernel hs
  · rw [hk]
    exact List.prefix_append ..
  · obtain ⟨xs, hlog, -⟩ := Kernel.reports_answer ha
    rw [hk]
    exact ⟨xs ++ [.did e], by rw [← List.append_assoc, ← hlog]; rfl⟩
  · obtain ⟨xs, hlog, -⟩ := h.reports
    exact ⟨xs, hlog.symm⟩

theorem tracks_worldStep {m : Move} (hi : w.Inv) (hs : worldStep w m = some w') :
    w.kernel.Tracks w'.kernel := by
  have hi' := inv_worldStep hi hs
  obtain ⟨pending, xs, hk⟩ | ⟨e, k, ha, hk⟩ | h := worldStep_kernel hs
  · rw [hk]
    exact fun hr => ⟨hr, fun _ h => .inl h⟩
  · have hone : Kernel.SetsOne e :=
      setsOne_did hi' (hk ▸ List.mem_append_right _ (List.mem_singleton_self _))
    rw [hk]
    exact (Kernel.tracks_answer hone ha).note
  · exact h.tracks

theorem log_worldRun {ms : List Move} (hrun : Runs.run worldStep w ms = some w') :
    w.kernel.log <+: w'.kernel.log :=
  Runs.run_invariant (I := fun w' => w.kernel.log <+: w'.kernel.log) (List.prefix_refl _)
    (fun _ _ _ h hs => h.trans (log_worldStep hs)) ms w' hrun

/-- A cgroup that is there all along, occupied first and empty in the end, has been
released. -/
theorem released_when_emptied {ms : List Move} {cg : Place} (hi : w.Inv) (hr : w.kernel.Rooted)
    (hocc : w.kernel.Occupied cg) (hrun : Runs.run worldStep w ms = some w')
    (hthere : ∀ x ∈ Runs.trail worldStep w ms, x.1.kernel.isCgroup cg = true)
    (hend : w'.kernel.isCgroup cg = true) (hempty : w'.kernel.isEmpty cg = true) :
    ∃ xs id, w'.kernel.log = w.kernel.log ++ xs ∧ .released id cg ∈ xs := by
  induction ms generalizing w with
  | nil =>
    obtain rfl := Option.some.inj hrun
    cases hocc.2.symm.trans hempty
  | cons m ms ih =>
    simp only [Runs.run] at hrun
    obtain ⟨w₁, hs, hrun⟩ := Option.bind_eq_some_iff.mp hrun
    simp only [Runs.trail, hs, List.forall_mem_cons] at hthere
    obtain ⟨hr₁, hf⟩ := tracks_worldStep hi hs hr
    obtain ⟨ys, hlog⟩ := log_worldStep hs
    obtain h | h | ⟨xs, id, hx, hm⟩ := hf cg hocc
    · obtain ⟨xs, id, hx, hm⟩ := ih (inv_worldStep hi hs) hr₁ h hrun hthere.2
      exact ⟨ys ++ xs, id, by rw [hx, ← hlog, List.append_assoc], List.mem_append_right _ hm⟩
    · -- it is there after the step
      exfalso
      cases ms with
      | nil =>
        obtain rfl := Option.some.inj hrun
        rw [h] at hend
        cases hend
      | cons m' ms =>
        have := hthere.2 (w₁, m') (List.mem_cons_self ..)
        rw [h] at this
        cases this
    · obtain ⟨zs, hz⟩ := log_worldRun hrun
      exact ⟨xs ++ zs, id, by rw [← hz, hx, List.append_assoc], List.mem_append_left _ hm⟩

theorem rooted_worldRun (ms : List Move) (w : World)
    (hrun : Runs.run worldStep bootWorld ms = some w) : w.kernel.Rooted := by
  have hboth : w.Inv ∧ w.kernel.Rooted := by
    refine Runs.run_invariant (I := fun w => w.Inv ∧ w.kernel.Rooted) ⟨inv_bootWorld, nofun⟩ ?_
      ms w hrun
    intro w m w' h hs
    exact ⟨inv_worldStep h.1 hs, (tracks_worldStep h.1 hs h.2).1⟩
  exact hboth.2

/-- The scope has been started and has its task. -/
def startedScope : List Move :=
  [.send (startScope 100), .deliver 0, .handle 0] ++
  (callExec allGood bootProcess (startScope 100)).map .act ++ [.finish]

/-- The task exits, and the agent has run. -/
def leftScope : List Move := [.exit 100, .agent 0]

theorem startedScope_emptied : (Runs.run worldStep bootWorld startedScope).bind (fun w =>
    (Runs.run worldStep w leftScope).map (fun w' =>
      (w.kernel.notifies scope && !w.kernel.isEmpty scope) &&
      (Runs.trail worldStep w leftScope).all (fun x => x.1.kernel.isCgroup scope) &&
      (w'.kernel.isCgroup scope && w'.kernel.isEmpty scope) &&
      (w'.kernel.log.drop w.kernel.log.length).all
        (fun x => !x.starts (ascii "x.scope") && !x.loses (ascii "x.scope")) &&
      w'.kernel.log.all (fun x => !x.failsToSave))) = some true := by
  decide +kernel

/-- The task exits between MovePid and SetValue. -/
def exitBeforeNotify : List Move :=
  [.send (startScope 100), .deliver 0, .handle 0] ++
  ((callExec allGood bootProcess (startScope 100)).take 2).map .act ++ [.exit 100] ++
  ((callExec allGood bootProcess (startScope 100)).drop 2).map .act ++ [.finish]

-- nothing is under way any more, and the unit is on record
example : (Runs.run worldStep bootWorld exitBeforeNotify).map (fun w =>
    (w.process.recorded (ascii "x.scope"), w.kernel.isEmpty scope, w.kernel.pending.isEmpty,
      w.inFlight.isEmpty, w.handling.isNone)) = some (some scopePath, true, true, true, true) := by
  decide +kernel

end Shim
