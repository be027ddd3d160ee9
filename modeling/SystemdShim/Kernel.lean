import SystemdShim.SlicePaths
import SystemdShim.Lib.Since

/- The kernel's side: which cgroups there are, which of them notify on release,
   and where each task is. A task enters a cgroup by a fork or a move and stays
   until it moves on or exits. When a cgroup that notifies is left without
   tasks and children, a release event is emitted. The log keeps what has
   happened, with what the other parties did in between, so that properties of
   a run are statements about its log. -/
namespace Shim
open Effects History

/-- A cgroup, by the names from the top down; the root is `[]`. -/
abbrev Place := List Bytes

/-- The cgroup that a path sent to cgmanager means. -/
def place (path : Bytes) : Place := (components path).filter (· ≠ [])

/-- The path that a release event carries. -/
def kernelPath (cg : Place) : Bytes :=
  if cg = [] then ascii "/" else cg.flatMap (chr '/' :: ·)

inductive Happening where
  | entered (pid : Int32) (cg : Place)
  | exited (pid : Int32)
  | released (id : Nat) (cg : Place)
  /-- The shim takes up a message, in this state; `origin` is the release event
  it comes from, if it comes from one. -/
  | began (origin : Option Nat) (c : Call) (s : Process)
  /-- The shim's next act, with its answer. -/
  | did (e : Event Ans)
  /-- Messages that will not be handled. -/
  | lost (messages : List (Option Nat × Call))

structure Kernel where
  /-- the cgroups below the root, with their notify_on_release -/
  cgroups : List (Place × Bool) := []
  tasks : AList (fun _ : Int32 => Place) := ∅
  /-- the release events for which no agent has run yet -/
  pending : List (Nat × Place) := []
  releases : Nat := 0
  log : List Happening := []

namespace Kernel

def note (k : Kernel) (x : Happening) : Kernel := { k with log := k.log ++ [x] }

def isCgroup (k : Kernel) (cg : Place) : Bool := cg = [] || k.cgroups.any (fun x => x.1 = cg)

def notifies (k : Kernel) (cg : Place) : Bool := k.cgroups.any (fun x => x.1 = cg && x.2)

/-- No task, and no cgroup below. -/
def isEmpty (k : Kernel) (cg : Place) : Bool :=
  k.tasks.entries.all (fun t => t.2 ≠ cg) && k.cgroups.all (fun x => !(cg <+: x.1 && cg ≠ x.1))

def checkForRelease (k : Kernel) (cg : Place) : Kernel :=
  if k.notifies cg && k.isEmpty cg then
    { k with
      pending := k.pending ++ [(k.releases, cg)]
      releases := k.releases + 1
      log := k.log ++ [.released k.releases cg] }
  else k

/-- A new cgroup notifies if its parent does. -/
def mkdir (k : Kernel) (cg : Place) : Kernel :=
  if k.isCgroup cg then k
  else { k with cgroups := k.cgroups ++ [(cg, k.notifies cg.dropLast)] }

/-- The cgroup, and those above it that are missing. -/
def mkdirs (k : Kernel) (cg : Place) : Kernel := cg.inits.foldl mkdir k

def setNotify (k : Kernel) (cg : Place) (value : Bool) : Kernel :=
  { k with cgroups := k.cgroups.map (fun x => if x.1 = cg then (cg, value) else x) }

/-- The task enters the cgroup, unless it is there already; then the one it
left is checked. -/
def enter (k : Kernel) (pid : Int32) (cg : Place) : Kernel :=
  match k.tasks.lookup pid with
  | none => { k with tasks := k.tasks.insert pid cg, log := k.log ++ [.entered pid cg] }
  | some old =>
    -- to attach a task where it is changes nothing
    if old = cg then k
    else checkForRelease
      { k with tasks := k.tasks.insert pid cg, log := k.log ++ [.entered pid cg] } old

def exit (k : Kernel) (pid : Int32) : Option Kernel :=
  match k.tasks.lookup pid with
  | some cg =>
    some (checkForRelease { k with tasks := k.tasks.erase pid, log := k.log ++ [.exited pid] } cg)
  | none => none

/-- The child enters the parent's cgroup. -/
def fork (k : Kernel) (parent child : Int32) : Option Kernel :=
  match k.tasks.lookup parent, k.tasks.lookup child with
  | some cg, none => some (k.enter child cg)
  | _, _ => none

/-- The tasks of the cgroup and of those below it. -/
def tasksBelow (k : Kernel) (cg : Place) : List Int32 :=
  (k.tasks.entries.filter (fun t => cg <+: t.2)).map Sigma.fst

/-- An rmdir, or with `recursive` one of the whole tree: no task may be left,
and no child either in the first case. The parent is checked. -/
def rmdir (k : Kernel) (cg : Place) (recursive : Bool) : Option Kernel :=
  if cg ≠ [] ∧ k.isCgroup cg ∧ k.tasksBelow cg = [] ∧ (recursive ∨ k.isEmpty cg) then
    some (checkForRelease { k with cgroups := k.cgroups.filter (fun x => !(cg <+: x.1)) }
      cg.dropLast)
  else none

/-- The same tasks, in whatever order. -/
def sameTasks (xs ys : List Int32) : Bool := xs.all ys.contains && ys.all xs.contains

/-- What an act of the shim does, if its answer is one that cgmanager and the
kernel can give. A call that fails changes nothing. -/
def answer (k : Kernel) : Event Ans → Option Kernel
  | ⟨.cgmanagerCall (.create _ path), some _⟩ => some (k.mkdirs (place path))
  | ⟨.cgmanagerCall (.movePid _ path pid), some _⟩ =>
    if k.isCgroup (place path) then some (k.enter pid (place path)) else none
  | ⟨.cgmanagerCall (.setValue _ path key value), some _⟩ =>
    if k.isCgroup (place path) then
      if key = ascii "notify_on_release" then some (k.setNotify (place path) (value = ascii "1"))
      else some k
    else none
  | ⟨.cgmanagerCall (.remove _ path recursive), some _⟩ => k.rmdir (place path) (recursive = 1)
  | ⟨.cgmanagerCall (.getTasksRecursive _ path), some pids⟩ =>
    if k.isCgroup (place path) && sameTasks pids (k.tasksBelow (place path)) then some k else none
  | _ => some k

end Kernel

/-! Where a log says that a task is. -/

/-- Whether the task comes, moves on or goes. -/
def Happening.moves (pid : Int32) : Happening → Bool
  | .entered p _ => p = pid
  | .exited p => p = pid
  | _ => false

def Happening.byKernel : Happening → Bool
  | .entered _ _ => true
  | .exited _ => true
  | .released _ _ => true
  | _ => false

/-- The cgroup is the last that the task has entered, and it is alive. -/
def Located (log : List Happening) (pid : Int32) (cg : Place) : Prop :=
  Since (fun x => x = .entered pid cg) (fun x => x.moves pid = false) log

theorem located_snoc {log : List Happening} {x : Happening} {pid : Int32} {cg : Place} :
    Located (log ++ [x]) pid cg ↔
      x = .entered pid cg ∨ (Located log pid cg ∧ x.moves pid = false) := since_snoc

/-- A release event is a new one, for a cgroup with no task in or below it. -/
def ReleaseLaw (past : List Happening) : Happening → Prop
  | .released id cg => (∀ cg', .released id cg' ∉ past) ∧ ∀ pid q, cg <+: q → ¬ Located past pid q
  | _ => True

namespace Kernel

/-- The invariant of the kernel's state and the log. -/
structure Inv (k : Kernel) : Prop where
  located : ∀ pid cg, k.tasks.lookup pid = some cg ↔ Located k.log pid cg
  housed : ∀ pid cg, k.tasks.lookup pid = some cg → k.isCgroup cg = true
  numbered : ∀ id cg, .released id cg ∈ k.log → id < k.releases
  pending : ∀ x ∈ k.pending, .released x.1 x.2 ∈ k.log
  law : Along ReleaseLaw k.log

/-- What an operation of the kernel adds to the log. -/
def Grows (k k' : Kernel) : Prop :=
  ∃ xs, k'.log = k.log ++ xs ∧ ∀ x ∈ xs, x.byKernel = true

/-- An operation of the kernel: it keeps the invariant, and logs what it does. -/
def Moves (k k' : Kernel) : Prop := (k.Inv → k'.Inv) ∧ k.Grows k'

variable {k k' : Kernel} {pid : Int32} {cg : Place}

theorem Grows.refl (k : Kernel) : k.Grows k := ⟨[], by simp, by simp⟩

theorem Grows.trans {k'' : Kernel} (h : k.Grows k') (h' : k'.Grows k'') : k.Grows k'' := by
  obtain ⟨xs, hx, hxs⟩ := h
  obtain ⟨ys, hy, hys⟩ := h'
  refine ⟨xs ++ ys, by rw [hy, hx, List.append_assoc], fun x hm => ?_⟩
  exact (List.mem_append.mp hm).elim (hxs x) (hys x)

theorem Moves.refl (k : Kernel) : k.Moves k := ⟨id, .refl k⟩

theorem Moves.trans {k'' : Kernel} (h : k.Moves k') (h' : k'.Moves k'') : k.Moves k'' :=
  ⟨fun hi => h'.1 (h.1 hi), h.2.trans h'.2⟩

theorem mem_tasksBelow : pid ∈ k.tasksBelow cg ↔
    ∃ q, k.tasks.lookup pid = some q ∧ cg <+: q := by
  simp only [tasksBelow, List.mem_map, List.mem_filter, decide_eq_true_eq]
  constructor
  · intro h
    obtain ⟨⟨p, q⟩, ⟨hm, hq⟩, rfl⟩ := h
    exact ⟨q, AList.mem_lookup_iff.mpr hm, hq⟩
  · intro h
    obtain ⟨q, hl, hq⟩ := h
    exact ⟨⟨pid, q⟩, ⟨AList.mem_lookup_iff.mp hl, hq⟩, rfl⟩

theorem mem_of_sameTasks {xs ys : List Int32} (h : sameTasks xs ys = true) (pid : Int32) :
    pid ∈ xs ↔ pid ∈ ys := by
  simp only [sameTasks, Bool.and_eq_true, List.all_eq_true, List.contains_iff_mem] at h
  exact ⟨h.1 pid, h.2 pid⟩

theorem isCgroup_iff : k.isCgroup cg = true ↔ cg = [] ∨ ∃ x ∈ k.cgroups, x.1 = cg := by
  simp [isCgroup]

theorem inv_empty : ({} : Kernel).Inv where
  located _ _ := by simp [Located, Since]
  housed _ _ h := by simp at h
  numbered _ _ h := by cases h
  pending _ h := by cases h
  law := along_nil

/-- Nothing is in or below an empty cgroup. -/
theorem not_located_of_isEmpty (hi : k.Inv) (h : k.isEmpty cg = true) (q : Place) (hq : cg <+: q) :
    ¬ Located k.log pid q := by
  intro hl
  have hlookup := (hi.located pid q).mpr hl
  simp only [isEmpty, Bool.and_eq_true, List.all_eq_true, Bool.not_eq_true', decide_eq_true_eq,
    Bool.and_eq_false_iff, decide_eq_false_iff_not, not_not] at h
  -- it is not in the cgroup itself, and there is no cgroup below for it to be in
  have hne : q ≠ cg := h.1 _ (AList.mem_lookup_iff.mp hlookup)
  rcases isCgroup_iff.mp (hi.housed pid q hlookup) with rfl | ⟨x, hx, rfl⟩
  · exact hne (List.prefix_nil.mp hq).symm
  · rcases h.2 x hx with hn | rfl
    · exact hn hq
    · exact hne rfl

theorem inv_note {x : Happening} (hi : k.Inv) (hx : x.byKernel = false) : (k.note x).Inv where
  located pid cg := by
    show _ ↔ Located (k.log ++ [x]) pid cg
    rw [located_snoc, ← hi.located]
    cases x <;> simp_all [Happening.byKernel, Happening.moves, note]
  housed := hi.housed
  numbered id cg h := by
    rcases List.mem_append.mp h with h | h
    · exact hi.numbered id cg h
    · obtain rfl := List.mem_singleton.mp h
      cases hx
  pending y hy := List.mem_append_left _ (hi.pending y hy)
  law := along_snoc hi.law (by cases x <;> trivial)

theorem moves_checkForRelease : k.Moves (k.checkForRelease cg) := by
  unfold checkForRelease
  split
  · rename_i h
    rw [Bool.and_eq_true] at h
    refine ⟨fun hi => ⟨fun pid q => ?_, hi.housed, fun id q hm => ?_, fun x hx => ?_,
      along_snoc hi.law ⟨?_, ?_⟩⟩, [.released k.releases cg], rfl, by simp [Happening.byKernel]⟩
    · rw [located_snoc, ← hi.located]
      simp [Happening.moves]
    · rcases List.mem_append.mp hm with hm | hm
      · exact (hi.numbered id q hm).trans (Nat.lt_succ_self _)
      · obtain ⟨rfl, -⟩ := Happening.released.inj (List.mem_singleton.mp hm)
        exact Nat.lt_succ_self _
    · rcases List.mem_append.mp hx with hx | hx
      · exact List.mem_append_left _ (hi.pending x hx)
      · rw [List.mem_singleton.mp hx]
        simp
    · -- the number is a new one
      exact fun cg' hm => Nat.lt_irrefl _ (hi.numbered _ cg' hm)
    · exact fun pid q hq => not_located_of_isEmpty hi h.2 q hq
  · exact .refl k

/-- An edit of the cgroups that keeps those with tasks. -/
theorem moves_cgroups {cgroups : List (Place × Bool)}
    (h : ∀ pid x, k.tasks.lookup pid = some x.1 → x ∈ k.cgroups → ∃ y ∈ cgroups, y.1 = x.1) :
    k.Moves { k with cgroups := cgroups } := by
  refine ⟨fun hi => ⟨hi.located, fun pid cg hl => ?_, hi.numbered, hi.pending, hi.law⟩, .refl k⟩
  rcases isCgroup_iff.mp (hi.housed pid cg hl) with hroot | ⟨x, hx, rfl⟩
  · exact isCgroup_iff.mpr (.inl hroot)
  · exact isCgroup_iff.mpr (.inr (h pid x hl hx))

theorem moves_mkdir : k.Moves (k.mkdir cg) := by
  unfold mkdir
  split
  · exact .refl k
  · exact moves_cgroups (fun _ x _ hx => ⟨x, List.mem_append_left _ hx, rfl⟩)

theorem moves_mkdirs : k.Moves (k.mkdirs cg) := by
  unfold mkdirs
  induction cg.inits generalizing k with
  | nil => exact .refl k
  | cons q qs ih => exact moves_mkdir.trans ih

theorem moves_setNotify {value : Bool} : k.Moves (k.setNotify cg value) := by
  refine moves_cgroups (fun pid x _ hx => ⟨_, List.mem_map_of_mem hx, ?_⟩)
  split
  · rename_i h; exact h.symm
  · rfl

theorem moves_entered (hcg : k.Inv → k.isCgroup cg = true) : k.Moves
    { k with tasks := k.tasks.insert pid cg, log := k.log ++ [.entered pid cg] } := by
  refine ⟨fun hi => ⟨fun p q => ?_, fun p q hl => ?_, fun id q hm => ?_,
    fun x hx => List.mem_append_left _ (hi.pending x hx), along_snoc hi.law trivial⟩,
    [.entered pid cg], rfl, by simp [Happening.byKernel]⟩
  · rw [located_snoc, ← hi.located]
    by_cases hp : p = pid
    · subst hp
      simp [AList.lookup_insert, Happening.moves]
    · simp [AList.lookup_insert_ne hp, Happening.moves, Ne.symm hp]
  · by_cases hp : p = pid
    · subst hp
      rw [AList.lookup_insert] at hl
      obtain rfl := Option.some.inj hl
      exact hcg hi
    · rw [AList.lookup_insert_ne hp] at hl
      exact hi.housed p q hl
  · rcases List.mem_append.mp hm with hm | hm
    · exact hi.numbered id q hm
    · cases List.mem_singleton.mp hm

theorem moves_enter (hcg : k.Inv → k.isCgroup cg = true) : k.Moves (k.enter pid cg) := by
  unfold enter
  split
  · exact moves_entered hcg
  · split
    · exact .refl k
    · exact (moves_entered hcg).trans moves_checkForRelease

theorem moves_exited :
    k.Moves { k with tasks := k.tasks.erase pid, log := k.log ++ [.exited pid] } := by
  refine ⟨fun hi => ⟨fun p q => ?_, fun p q hl => ?_, fun id q hm => ?_,
    fun x hx => List.mem_append_left _ (hi.pending x hx), along_snoc hi.law trivial⟩,
    [.exited pid], rfl, by simp [Happening.byKernel]⟩
  · rw [located_snoc, ← hi.located]
    by_cases hp : p = pid
    · subst hp
      simp [AList.lookup_erase, Happening.moves]
    · simp [AList.lookup_erase_ne hp, Happening.moves, Ne.symm hp]
  · by_cases hp : p = pid
    · subst hp
      rw [AList.lookup_erase] at hl
      cases hl
    · rw [AList.lookup_erase_ne hp] at hl
      exact hi.housed p q hl
  · rcases List.mem_append.mp hm with hm | hm
    · exact hi.numbered id q hm
    · cases List.mem_singleton.mp hm

theorem moves_exit (h : k.exit pid = some k') : k.Moves k' := by
  unfold exit at h
  split at h
  · obtain rfl := Option.some.inj h
    exact moves_exited.trans moves_checkForRelease
  · cases h

theorem moves_fork {child : Int32} (h : k.fork pid child = some k') : k.Moves k' := by
  unfold fork at h
  split at h
  · rename_i q hq _
    obtain rfl := Option.some.inj h
    exact moves_enter (fun hi => hi.housed pid q hq)
  · cases h

theorem moves_rmdir {recursive : Bool} (h : k.rmdir cg recursive = some k') : k.Moves k' := by
  unfold rmdir at h
  split at h
  · rename_i hg
    obtain rfl := Option.some.inj h
    refine (moves_cgroups (fun pid x hl hx => ⟨x, List.mem_filter.mpr ⟨hx, ?_⟩, rfl⟩)).trans
      moves_checkForRelease
    -- a cgroup that is removed with it has no task
    simp only [Bool.not_eq_true', decide_eq_false_iff_not]
    intro hp
    have : pid ∈ k.tasksBelow cg := mem_tasksBelow.mpr ⟨x.1, hl, hp⟩
    rw [hg.2.2.1] at this
    cases this
  · cases h

theorem moves_answer {e : Event Ans} (h : k.answer e = some k') : k.Moves k' := by
  unfold answer at h
  split at h
  · obtain rfl := Option.some.inj h
    exact moves_mkdirs
  · split at h
    · rename_i hcg
      obtain rfl := Option.some.inj h
      exact moves_enter (fun _ => hcg)
    · cases h
  · split at h
    · split at h
      · obtain rfl := Option.some.inj h
        exact moves_setNotify
      · obtain rfl := Option.some.inj h
        exact .refl k
    · cases h
  · exact moves_rmdir h
  · split at h
    · obtain rfl := Option.some.inj h
      exact .refl k
    · cases h
  · obtain rfl := Option.some.inj h
    exact .refl k

/-- The tasks that GetTasksRecursive reports are in or below the cgroup. -/
theorem answer_report {controllers path : Bytes} {pids : List Int32} (hi : k.Inv)
    (h : k.answer ⟨.cgmanagerCall (.getTasksRecursive controllers path), some pids⟩ = some k') :
    k' = k ∧ ∀ pid, pid ∈ pids ↔ ∃ q, place path <+: q ∧ Located k.log pid q := by
  simp only [answer] at h
  split at h
  · rename_i hg
    refine ⟨(Option.some.inj h).symm, fun pid => ?_⟩
    rw [Bool.and_eq_true] at hg
    have hmem : pid ∈ pids ↔ pid ∈ k.tasksBelow (place path) := mem_of_sameTasks hg.2 pid
    rw [hmem, mem_tasksBelow]
    exact exists_congr (fun q => by rw [hi.located, and_comm])
  · cases h

end Kernel

end Shim
