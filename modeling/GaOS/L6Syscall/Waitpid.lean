import GaOS.L4Sched.QueueInv
import GaOS.L6Syscall.UserMemory
import Mathlib.Algebra.Order.BigOperators.Group.List
import Mathlib.Logic.Relation

/-!
# Waiting for descendants

Runs in which tasks are created and forked, the scheduler does what it does, and tasks call
`sys_waitpid`. A call is one step up to the point where it starts to sleep; the sleep is
the steps of the others. `sys_fork` is a step as far as families are concerned: the new
task and its `ppid`.

The walk to the ancestors has no set of tasks it has seen. It ends because a task is
younger than its parent: `last_id` only goes up, so `ppid < id` (`Family.older`). It finds
every ancestor because tasks are never removed from the queues (`Family.parent`), and
`get_pid` looks through all of them (`getPid_spec`).

`waitpid_accepts_once`: a call is accepted exactly for a descendant of the caller that
nobody has waited for, and for one task at most one call is.
-/
namespace GaOS.L6.FileTable

open GaOS.L1 GaOS.L1.PageAllocator GaOS.L2.TableManager GaOS.L4.RoundRobin

/-! ## Runs -/

section
variable {σ : Type} (P : PageSource σ) (image : Image)

/-- The child, with its parent.
mirrors kernel/src/syscalls/sys_fork.c:17-25 -/
def forkChild (own parent : Nat) (simd : SimdState) (s : Scheduler σ) :
    Option (Nat × Scheduler σ) := do
  let (_, child, s) ← create P own (s.tasks parent).name simd s
  return (child, s.modify child fun task => { task with ppid := (s.tasks parent).id })

/-- Enough for every search and every walk. -/
def searchBound (s : Scheduler σ) : Nat :=
  (s.contexts.map fun context => context.running.count).sum + s.lastId + 1

inductive FamilyEvent where
  | sched (e : Event)
  | fork (parent child : Nat)
  | waitpid (caller : Nat) (pid : Int) (accepted : Bool)

/-- A task that makes system calls: idle tasks, which have the number 0, do not. -/
def Caller (s : Scheduler σ) (task : Nat) : Prop := s.Linked task ∧ (s.tasks task).id ≠ 0

def familyLTS : LTS (Scheduler σ) FamilyEvent where
  init s := (schedulerLTS P image).init s
  step s e t := match e with
    | .sched e => (schedulerLTS P image).step s e t
    | .fork parent child => Caller s parent ∧ ∃ own simd,
        forkChild P own parent simd s = some (child, t)
    | .waitpid caller pid accepted => Caller s caller ∧ -2 ^ 63 ≤ pid ∧ pid < 2 ^ 63 ∧
        ∃ fuel statLoc m answer, searchBound s ≤ fuel ∧ accepted = answer.toBool ∧
          sysWaitpid P fuel some caller pid statLoc m s = some (answer, t)

end

/-! ## What should be accepted -/

section
variable {σ : Type}

def Parent (s : Scheduler σ) (child parent : Nat) : Prop :=
  s.Linked parent ∧ (s.tasks child).ppid ≠ 0 ∧ (s.tasks parent).id = (s.tasks child).ppid

/-- Along one or more `ppid` links. -/
def Ancestor (s : Scheduler σ) (task ancestor : Nat) : Prop :=
  Relation.TransGen (Parent s) task ancestor

/-- `task` has this number, and `caller` may wait for it. -/
structure Waitable (P : PageSource σ) (m : Machine σ) (caller : Nat) (pid : Int) (statLoc : Nat)
    (s : Scheduler σ) (task : Nat) : Prop where
  pos : 0 < pid
  exist : s.Linked task
  named : ((s.tasks task).id : Int) = pid
  fresh : (s.tasks task).isWaited = false
  memory : isUserMemory P m statLoc (s.tasks caller) = true
  ancestor : Ancestor s task caller

/-! ## Searching the queues -/

variable {P : PageSource σ} {image : Image} {s s' : Scheduler σ} {L : Nat → List Nat}
  {pid fuel caller t : Nat}

theorem findInQueue_chain {tasks : Nat → Task} {head last : Nat} {m : List Nat} {a : Nat}
    (hc : (a :: m).IsChain fun a b => (tasks a).next = b) (hback : (a :: m).getLast? = some last)
    (hclose : (tasks last).next = 0 ∨ (tasks last).next = head)
    (hm : ∀ x ∈ m, x ≠ 0 ∧ x ≠ head) (hf : m.length < fuel) :
    findInQueue tasks head pid fuel a = some ((a :: m).find? fun x => (tasks x).id = pid) := by
  induction m generalizing a fuel with
  | nil =>
    obtain ⟨n, rfl⟩ : ∃ n, fuel = n + 1 := ⟨fuel - 1, by omega⟩
    obtain rfl : a = last := by simpa using hback
    rw [findInQueue]
    by_cases hid : (tasks a).id = pid
    · simp [hid]
    · have hstop : ¬((tasks a).next ≠ 0 ∧ (tasks a).next ≠ head) := by tauto
      simp only [hid, if_false, if_neg hstop]
      simp [hid]
  | cons b m ih =>
    obtain ⟨n, rfl⟩ : ∃ n, fuel = n + 1 := ⟨fuel - 1, by simp at hf; omega⟩
    obtain ⟨hab, hbm⟩ := List.isChain_cons_cons.mp hc
    rw [findInQueue]
    by_cases hid : (tasks a).id = pid
    · simp [hid]
    · rw [if_neg hid]
      simp only [hab]
      rw [if_pos (hm b (List.mem_cons_self ..)), List.find?_cons_of_neg (by simpa using hid)]
      exact ih hbm (by rwa [List.getLast?_cons_cons] at hback)
        (fun x hx => hm x (List.mem_cons_of_mem _ hx)) (by simpa using hf)

/-- The search of one queue meets all of its tasks. -/
theorem findInQueue_spec {c : Nat} {q : Queue} {l : List Nat} (h : Holds s.tasks c q l)
    (pid : Nat) (hpos : ∀ x ∈ l, 0 < x) (hf : l.length ≤ fuel) :
    findInQueue s.tasks q.head pid fuel q.head =
      some (l.find? fun x => (s.tasks x).id = pid) := by
  have hring := h.ring
  cases l with
  | nil => cases hring.front
  | cons a m =>
    obtain rfl : a = q.head := by simpa using hring.front
    refine findInQueue_chain hring.chain hring.back hring.close (fun x hx => ⟨?_, ?_⟩) hf
    · have := hpos x (List.mem_cons_of_mem _ hx)
      omega
    · exact fun he => (List.nodup_cons.mp hring.nodup).1 (he ▸ hx)

theorem linked_iff (h : Represents P s L) : s.Linked t ↔ ∃ c, t ∈ L c := by
  constructor
  · rintro ⟨c, q, hq, ht⟩
    exact ⟨c, h.tasks_eq hq ▸ ht⟩
  · rintro ⟨c, hc⟩
    cases hq : s.queue c with
    | none =>
      rw [h.absent c hq] at hc
      cases hc
    | some q => exact ⟨c, q, hq, h.tasks_eq hq ▸ hc⟩

theorem queue_of_mem {context : Context} (h : context ∈ s.contexts) :
    ∃ c, s.queue c = some context.running := by
  obtain ⟨c, hc, he⟩ := List.getElem_of_mem h
  exact ⟨c, by rw [Scheduler.queue, List.getElem?_eq_getElem hc, he]; rfl⟩

theorem mem_of_queue {c : Nat} {q : Queue} (h : s.queue c = some q) :
    ∃ context ∈ s.contexts, context.running = q := by
  rw [Scheduler.queue, Option.map_eq_some_iff] at h
  obtain ⟨context, hc, he⟩ := h
  exact ⟨context, List.mem_of_getElem? hc, he⟩

theorem findInContexts_spec (h : Represents P s L) (pid : Nat) {contexts : List Context}
    (hsub : ∀ context ∈ contexts, context ∈ s.contexts) (hf : searchBound s ≤ fuel) :
    ∃ r, findInContexts s.tasks pid fuel contexts = some r ∧
      (∀ t, r = some t → s.Linked t ∧ (s.tasks t).id = pid) ∧
      (r = none → ∀ context ∈ contexts, ∀ t ∈ s.queueTasks context.running,
        (s.tasks t).id ≠ pid) := by
  induction contexts with
  | nil => exact ⟨none, rfl, nofun, nofun⟩
  | cons context rest ih =>
    obtain ⟨hmem, hrest⟩ := List.forall_mem_cons.mp hsub
    obtain ⟨c, hq⟩ := queue_of_mem hmem
    have hh := h.holds c _ hq
    have hcount : context.running.count ≤ fuel := by
      have := List.le_sum_of_mem
        (List.mem_map_of_mem (f := fun context : Context => context.running.count) hmem)
      unfold searchBound at hf
      omega
    have hscan := findInQueue_spec hh pid (fun x hx => (h.page c x hx).pos) (hh.count ▸ hcount)
    rw [findInContexts, hscan, Option.bind_eq_bind, Option.bind_some]
    rw [h.tasks_eq hq]
    cases hfind : (s.queueTasks context.running).find? fun x => (s.tasks x).id = pid with
    | some t =>
      refine ⟨some t, rfl, fun u hu => ?_, nofun⟩
      cases hu
      exact ⟨⟨c, _, hq, List.mem_of_find?_eq_some hfind⟩, by simpa using List.find?_some hfind⟩
    | none =>
      obtain ⟨r, hr, hsome, hnone⟩ := ih hrest
      refine ⟨r, hr, hsome, fun he => List.forall_mem_cons.mpr ⟨fun t ht => ?_, hnone he⟩⟩
      simpa using List.find?_eq_none.mp hfind t ht

/-- **`get_pid` finds every task.** -/
theorem getPid_spec (h : Represents P s L) (hf : searchBound s ≤ fuel) (hp : pid ≠ 0) :
    ∃ r, getPid fuel pid s = some r ∧ (∀ t, r = some t → s.Linked t ∧ (s.tasks t).id = pid) ∧
      (r = none → ∀ t, s.Linked t → (s.tasks t).id ≠ pid) := by
  obtain ⟨r, hr, hsome, hnone⟩ := 
    findInContexts_spec h pid (fun context hc => List.mem_reverse.mp hc) hf
  refine ⟨r, by rw [getPid, if_neg hp, hr], hsome, fun he t ht => ?_⟩
  obtain ⟨c, q, hq, hm⟩ := ht
  obtain ⟨context, hc, rfl⟩ := mem_of_queue hq
  exact hnone he context (List.mem_reverse.mpr hc) t hm

/-! ## Families -/

structure Family (s : Scheduler σ) : Prop where
  ids : ∀ t, s.Linked t → (s.tasks t).id ≤ s.lastId
  unique : ∀ t u, s.Linked t → s.Linked u → (s.tasks t).id = (s.tasks u).id →
    (s.tasks t).id ≠ 0 → t = u
  older : ∀ t, s.Linked t → (s.tasks t).ppid ≠ 0 → (s.tasks t).ppid < (s.tasks t).id
  parent : ∀ t, s.Linked t → (s.tasks t).ppid ≠ 0 → ∃ p, Parent s t p

/-- With numbers that are unique `get_pid` finds the task itself. -/
theorem getPid_linked (h : Represents P s L) (hfam : Family s) (hf : searchBound s ≤ fuel)
    (ht : s.Linked t) (h0 : (s.tasks t).id ≠ 0) : getPid fuel (s.tasks t).id s = some (some t) := by
  obtain ⟨r, hr, hsome, hnone⟩ := getPid_spec h hf h0
  cases r with
  | none => exact absurd rfl (hnone rfl t ht)
  | some u =>
    obtain ⟨hu, hid⟩ := hsome u rfl
    rw [hr, hfam.unique u t hu ht hid (hid ▸ h0)]

/-- **The walk ends, and finds the caller exactly when it is an ancestor.** -/
theorem descendsFrom_spec (h : Represents P s L) (hfam : Family s) (hf : searchBound s ≤ fuel)
    (hcaller : Caller s caller) {rounds : Nat} (ht : s.Linked t) (hr : (s.tasks t).id < rounds) :
    ∃ b, descendsFrom fuel (s.tasks caller).id s rounds t = some b ∧
      (b = true ↔ Ancestor s t caller) := by
  induction rounds generalizing t with
  | zero => omega
  | succ rounds ih =>
    rw [descendsFrom]
    by_cases hpar : (s.tasks t).ppid = (s.tasks caller).id
    · rw [if_pos hpar]
      refine ⟨true, rfl, iff_of_true rfl (Relation.TransGen.single ⟨hcaller.1, ?_, hpar.symm⟩)⟩
      rw [hpar]
      exact hcaller.2
    rw [if_neg hpar]
    by_cases h0 : (s.tasks t).ppid = 0
    · -- nobody's child
      refine ⟨false, by rw [h0, getPid, if_pos rfl]; rfl, iff_of_false (by simp) fun ha => ?_⟩
      obtain ⟨p, hp, -⟩ := Relation.TransGen.head'_iff.mp ha
      exact hp.2.1 h0
    · obtain ⟨p, hp⟩ := hfam.parent t ht h0
      have hpid : (s.tasks p).id ≠ 0 := by
        rw [hp.2.2]
        exact h0
      have hfind := getPid_linked h hfam hf hp.1 hpid
      rw [hp.2.2] at hfind
      obtain ⟨b, hb, hiff⟩ := ih hp.1 (by have := hfam.older t ht h0; rw [hp.2.2]; omega)
      refine ⟨b, by rw [hfind]; exact hb, hiff.trans ⟨fun ha => ?_, fun ha => ?_⟩⟩
      · exact Relation.TransGen.head hp ha
      · obtain ⟨p', hp', hrest⟩ := Relation.TransGen.head'_iff.mp ha
        have hsame : p' = p := hfam.unique p' p hp'.1 hp.1 (hp'.2.2.trans hp.2.2.symm) (by
          rw [hp'.2.2]
          exact h0)
        subst hsame
        rcases Relation.reflTransGen_iff_eq_or_transGen.mp hrest with he | ha
        · exact absurd (by rw [he]; exact hp'.2.2.symm) hpar
        · exact ha

/-! ## Steps -/

/-- What no step does to a task: give it another number or parent, or forget that it is
waited for. -/
structure Kin (a b : Task) : Prop where
  id : b.id = a.id
  ppid : b.ppid = a.ppid
  waited : a.isWaited = true → b.isWaited = true

theorem Kin.of_unlinked {a b : Task} (h : b.unlinked = a.unlinked) : Kin a b where
  id := id_eq_of_unlinked h
  ppid := by
    have : b.unlinked.ppid = a.unlinked.ppid := by rw [h]
    exact this
  waited ha := by
    have : b.unlinked.isWaited = a.unlinked.isWaited := by rw [h]
    exact Eq.trans this ha

/-- The same tasks. -/
structure Still (s s' : Scheduler σ) : Prop where
  linked : ∀ t, s'.Linked t ↔ s.Linked t
  kin : ∀ t, s.Linked t → Kin (s.tasks t) (s'.tasks t)
  lastId : s'.lastId = s.lastId

/-- One task more. -/
structure Born (s s' : Scheduler σ) (new : Nat) : Prop where
  linked : ∀ t, s'.Linked t ↔ t = new ∨ s.Linked t
  fresh : ¬s.Linked new
  kin : ∀ t, s.Linked t → Kin (s.tasks t) (s'.tasks t)
  waited : (s'.tasks new).isWaited = false

/-- An idle task. -/
structure Idle (s s' : Scheduler σ) (new : Nat) : Prop extends Born s s' new where
  lastId : s'.lastId = s.lastId
  id : (s'.tasks new).id = 0
  ppid : (s'.tasks new).ppid = 0

/-- A task with the next number. -/
structure Numbered (s s' : Scheduler σ) (new ppid : Nat) : Prop extends Born s s' new where
  lastId : s'.lastId = s.lastId + 1
  id : (s'.tasks new).id = s.lastId + 1
  ppid : (s'.tasks new).ppid = ppid

theorem born_of_made {c : Nat} {task : Task} (h : Represents P s L)
    (hm : Made P s s' L c t task) (hw : task.isWaited = false) : Born s s' t := by
  have hnew := Kin.of_unlinked hm.new.symm
  refine ⟨fun x => ?_, ?_, fun x hx => ?_, ?_⟩
  · rw [linked_iff h, linked_iff hm.represents]
    constructor
    · rintro ⟨d, hd⟩
      by_cases hdc : d = c
      · subst hdc
        rw [Function.update_self, List.mem_append, List.mem_singleton] at hd
        exact hd.symm.imp_right fun hx => ⟨d, hx⟩
      · rw [Function.update_of_ne hdc] at hd
        exact .inr ⟨d, hd⟩
    · rintro (rfl | ⟨d, hd⟩)
      · exact ⟨c, by simp⟩
      · refine ⟨d, ?_⟩
        by_cases hdc : d = c
        · subst hdc
          rw [Function.update_self]
          exact List.mem_append_left _ hd
        · rwa [Function.update_of_ne hdc]
  · rw [linked_iff h]
    rintro ⟨d, hd⟩
    exact hm.fresh d hd
  · rw [linked_iff h] at hx
    obtain ⟨d, hd⟩ := hx
    exact Kin.of_unlinked (hm.old x fun he => hm.fresh d (he ▸ hd))
  · have : (s'.tasks t).unlinked.isWaited = task.unlinked.isWaited := by rw [hm.new]
    exact Eq.trans this hw

theorem push_lastId {c : Nat} (h : push c t s = some s') : s'.lastId = s.lastId := by
  unfold push at h
  simp only [Option.bind_eq_bind, Option.bind_eq_some_iff] at h
  obtain ⟨q, -, he⟩ := h
  cases he
  rfl

theorem create_numbered {own c : Nat} {name : String} {simd : SimdState} (h : Represents P s L)
    (hs : create P own name simd s = some (c, t, s')) : Numbered s s' t 0 := by
  obtain ⟨-, stack, fds, hm⟩ := create_spec h hs
  have hborn := born_of_made h hm rfl
  have hkin := Kin.of_unlinked hm.new
  refine ⟨hborn, ?_, hkin.id, hkin.ppid⟩
  unfold create at hs
  simp only [Option.bind_eq_bind, Option.bind_eq_some_iff, Option.ite_none_left_eq_some] at hs
  obtain ⟨_, -, _, -, -, _, -, s₂, hpush, he⟩ := hs
  cases he
  exact push_lastId hpush

theorem install_idle {cpuId : Nat} {simd : SimdState} (h : Represents P s L)
    (hs : installContext P image cpuId simd s = some (t, s')) : Idle s s' t := by
  obtain ⟨-, stack, hm⟩ := installContext_spec h hs
  have hkin := Kin.of_unlinked hm.new
  refine ⟨born_of_made h hm rfl, ?_, hkin.id, hkin.ppid⟩
  unfold installContext at hs
  simp only [Option.bind_eq_bind, Option.bind_eq_some_iff] at hs
  obtain ⟨_, -, _, -, s₂, hpush, he⟩ := hs
  cases he
  have hlast := push_lastId hpush
  exact hlast

/-- Writes to a task's data. -/
theorem modify_still {f : Task → Task} (h : Represents P s L)
    (hf : ∀ task, (f task).next = task.next ∧ (f task).parentQueue = task.parentQueue)
    (hk : ∀ task, Kin task (f task)) : Still s (s.modify t f) := by
  refine ⟨fun x => ?_, fun x _ => ?_, rfl⟩
  · rw [linked_iff h, linked_iff (h.modify hf)]
  · by_cases hx : x = t
    · rw [hx, tasks_modify_self]
      exact hk _
    · rw [tasks_modify_of_ne hx]
      exact ⟨rfl, rfl, id⟩

theorem pop_still {c : Nat} (h : Represents P s L) (hp : pop c s = some (t, s')) : Still s s' := by
  obtain ⟨m, hm⟩ := pop_spec h hp
  refine ⟨fun x => ?_, fun x _ => Kin.of_unlinked (hm.same x), ?_⟩
  · rw [linked_iff h, linked_iff hm.represents]
    refine exists_congr fun d => ?_
    by_cases hdc : d = c
    · subst hdc
      rw [Function.update_self, hm.first]
      simp [or_comm]
    · rw [Function.update_of_ne hdc]
  · unfold pop at hp
    simp only [Option.bind_eq_bind, Option.bind_eq_some_iff] at hp
    obtain ⟨q, -, ⟨t', tasks', q'⟩, -, he⟩ := hp
    cases he
    rfl

/-- What the scheduler does to families. -/
theorem sched_step {e : Event} (h : Represents P s L) (hst : (schedulerLTS P image).step s e s') :
    Still s s' ∨ ∃ new, Idle s s' new ∨ Numbered s s' new 0 := by
  cases step_effect hst with
  | install hs => exact .inr ⟨_, .inl (install_idle h hs)⟩
  | create hs => exact .inr ⟨_, .inr (create_numbered h hs)⟩
  | fill _ => exact .inl (modify_still h (fun _ => ⟨rfl, rfl⟩) fun _ => ⟨rfl, rfl, id⟩)
  | start _ => exact .inl (modify_still h (fun _ => ⟨rfl, rfl⟩) fun _ => ⟨rfl, rfl, id⟩)
  | exit _ => exact .inl (modify_still h (fun _ => ⟨rfl, rfl⟩) fun _ => ⟨rfl, rfl, id⟩)
  | interrupt _ => exact .inl (modify_still h (fun _ => ⟨rfl, rfl⟩) fun _ => ⟨rfl, rfl, id⟩)
  | enable hp => exact .inl (pop_still h hp)
  | skip hp _ => exact .inl (pop_still h hp)
  | resume hp _ => exact .inl (pop_still h hp)
  | memory _ => exact .inl ⟨fun _ => Iff.rfl, fun _ _ => ⟨rfl, rfl, id⟩, rfl⟩

theorem Parent.kin {p : Nat} (h : Parent s t p) (ht : s.Linked t) (hl : ∀ x, s.Linked x → s'.Linked x)
    (hk : ∀ x, s.Linked x → Kin (s.tasks x) (s'.tasks x)) : Parent s' t p := by
  obtain ⟨hp, h0, hid⟩ := h
  rw [← (hk t ht).ppid] at h0 hid
  exact ⟨hl p hp, h0, (hk p hp).id.trans hid⟩

theorem Family.still (hf : Family s) (h : Still s s') : Family s' := by
  have hl : ∀ x, s.Linked x → s'.Linked x := fun x hx => (h.linked x).mpr hx
  refine ⟨fun t ht => ?_, fun t u ht hu he h0 => ?_, fun t ht h0 => ?_, fun t ht h0 => ?_⟩
  · rw [h.linked] at ht
    rw [(h.kin t ht).id, h.lastId]
    exact hf.ids t ht
  · rw [h.linked] at ht hu
    rw [(h.kin t ht).id] at he h0
    rw [(h.kin u hu).id] at he
    exact hf.unique t u ht hu he h0
  · rw [h.linked] at ht
    rw [(h.kin t ht).ppid] at h0 ⊢
    rw [(h.kin t ht).id]
    exact hf.older t ht h0
  · rw [h.linked] at ht
    rw [(h.kin t ht).ppid] at h0
    obtain ⟨p, hp⟩ := hf.parent t ht h0
    exact ⟨p, hp.kin ht hl h.kin⟩

/-- A new task is an idle task, or the youngest one. -/
theorem Family.born {new : Nat} (hf : Family s) (h : Born s s' new)
    (hlast : s.lastId ≤ s'.lastId) (hid : (s'.tasks new).id ≤ s'.lastId)
    (hnew : (s'.tasks new).id ≠ 0 → s.lastId < (s'.tasks new).id)
    (hppid : (s'.tasks new).ppid ≠ 0 → (s'.tasks new).ppid < (s'.tasks new).id ∧
      ∃ p, s.Linked p ∧ (s.tasks p).id = (s'.tasks new).ppid) : Family s' := by
  have hl : ∀ x, s.Linked x → s'.Linked x := fun x hx => (h.linked x).mpr (.inr hx)
  refine ⟨fun t ht => ?_, fun t u ht hu he h0 => ?_, fun t ht h0 => ?_, fun t ht h0 => ?_⟩
  · rcases (h.linked t).mp ht with rfl | ht
    · exact hid
    · rw [(h.kin t ht).id]
      exact Nat.le_trans (hf.ids t ht) hlast
  · rcases (h.linked t).mp ht with rfl | ht <;> rcases (h.linked u).mp hu with rfl | hu
    · rfl
    · have h1 := hf.ids u hu
      have h2 := hnew h0
      rw [(h.kin u hu).id] at he
      omega
    · have h1 := hf.ids t ht
      have h2 := hnew (he ▸ h0)
      rw [(h.kin t ht).id] at he
      omega
    · rw [(h.kin t ht).id] at he h0
      rw [(h.kin u hu).id] at he
      exact hf.unique t u ht hu he h0
  · rcases (h.linked t).mp ht with rfl | ht
    · exact (hppid h0).1
    · rw [(h.kin t ht).ppid] at h0 ⊢
      rw [(h.kin t ht).id]
      exact hf.older t ht h0
  · rcases (h.linked t).mp ht with rfl | ht
    · obtain ⟨p, hp, he⟩ := (hppid h0).2
      exact ⟨p, hl p hp, h0, (h.kin p hp).id.trans he⟩
    · rw [(h.kin t ht).ppid] at h0
      obtain ⟨p, hp⟩ := hf.parent t ht h0
      exact ⟨p, hp.kin ht hl h.kin⟩

theorem Family.idle {new : Nat} (hf : Family s) (h : Idle s s' new) : Family s' := by
  refine hf.born h.toBorn (Nat.le_of_eq h.lastId.symm) ?_ (fun h0 => absurd h.id h0)
    fun h0 => absurd h.ppid h0
  rw [h.id]
  exact Nat.zero_le _

theorem Family.numbered {new ppid : Nat} (hf : Family s) (h : Numbered s s' new ppid)
    (hp : ppid ≠ 0 → ∃ p, s.Linked p ∧ (s.tasks p).id = ppid) : Family s' := by
  refine hf.born h.toBorn (by rw [h.lastId]; omega) (by rw [h.lastId, h.id])
    (fun _ => by rw [h.id]; omega) fun h0 => ?_
  rw [h.ppid] at h0 ⊢
  obtain ⟨p, hl, he⟩ := hp h0
  have := hf.ids p hl
  exact ⟨by rw [h.id]; omega, p, hl, he⟩

/-- A fork: the child has the next number, and the caller as its parent. -/
theorem fork_numbered {own parent child : Nat} {simd : SimdState} (h : Represents P s L)
    (hp : s.Linked parent) (hs : forkChild P own parent simd s = some (child, s')) :
    (∃ L', Represents P s' L') ∧ Numbered s s' child (s.tasks parent).id := by
  simp only [forkChild, Option.bind_eq_bind, Option.bind_eq_some_iff, Prod.exists,
    Option.pure_def, Option.some.injEq, Prod.mk.injEq] at hs
  obtain ⟨c, t, s₁, hcreate, rfl, rfl⟩ := hs
  have hnum := create_numbered h hcreate
  obtain ⟨-, _, _, hm⟩ := create_spec h hcreate
  have hlinks : ∀ task : Task, ({ task with ppid := (s₁.tasks parent).id } : Task).next = task.next ∧
      ({ task with ppid := (s₁.tasks parent).id } : Task).parentQueue = task.parentQueue :=
    fun _ => ⟨rfl, rfl⟩
  have hr := hm.represents.modify (t := t) hlinks
  have hpid := (hnum.kin parent hp).id
  refine ⟨⟨_, hr⟩, ⟨fun x => ?_, hnum.fresh, fun x hx => ?_, ?_⟩, hnum.lastId, ?_, ?_⟩
  · rw [← hnum.linked, linked_iff hr, linked_iff hm.represents]
  · have hne : x ≠ t := fun he => hnum.fresh (he ▸ hx)
    rw [tasks_modify_of_ne hne]
    exact hnum.kin x hx
  · rw [tasks_modify_self]
    exact hnum.waited
  · rw [tasks_modify_self]
    exact hnum.id
  · rw [tasks_modify_self]
    exact hpid

/-! ## One call -/

/-- The flag that a call sets before it sleeps. -/
def markWaited (task : Nat) (s : Scheduler σ) : Scheduler σ :=
  s.modify task fun task => { task with isWaited := true }

section
variable {m : Machine σ} {pid : Int} {statLoc : Nat} {wait : Scheduler σ → Option (Scheduler σ)}

theorem sysWaitpid_accepts (h : Represents P s L) (hfam : Family s) (hf : searchBound s ≤ fuel)
    (hcaller : Caller s caller) (hpid : pid < 2 ^ 63) (hw : Waitable P m caller pid statLoc s t) :
    sysWaitpid P fuel wait caller pid statLoc m s = (wait (markWaited t s)).map fun s' =>
      (.ok (pid, ⟨statLoc, ((s'.tasks t).exitCode % 256).toNat⟩), s') := by
  have hnat : (pid % 2 ^ 64).toNat = (s.tasks t).id := by
    have := hw.named
    have := hw.pos
    omega
  have h0 : (s.tasks t).id ≠ 0 := by
    have := hw.named
    have := hw.pos
    omega
  have hfind := getPid_linked h hfam hf hw.exist h0
  have hrounds : (s.tasks t).id < fuel := by
    have := hfam.ids t hw.exist
    unfold searchBound at hf
    omega
  obtain ⟨b, hwalk, hiff⟩ := descendsFrom_spec h hfam hf hcaller hw.exist hrounds
  rw [hiff.mpr hw.ancestor] at hwalk
  have hneg : ¬pid < 0 := by
    have := hw.pos
    omega
  rw [sysWaitpid, hnat, hfind]
  simp only [Option.bind_eq_bind, Option.bind_some, hneg, hw.fresh, hw.memory, hwalk, false_or,
    Bool.false_eq_true, if_false, not_true_eq_false, markWaited, Option.pure_def]
  cases wait (s.modify t fun task => { task with isWaited := true }) with
  | none => rfl
  | some s' => rfl

theorem sysWaitpid_rejects (wait : Scheduler σ → Option (Scheduler σ)) (h : Represents P s L)
    (hfam : Family s) (hf : searchBound s ≤ fuel) (hcaller : Caller s caller)
    (hlow : -2 ^ 63 ≤ pid) (hpid : pid < 2 ^ 63)
    (hw : ∀ t, ¬Waitable P m caller pid statLoc s t) :
    ∃ e, e < 0 ∧ sysWaitpid P fuel wait caller pid statLoc m s = some (.error e, s) := by
  obtain ⟨p, hp⟩ : ∃ p, p = (pid % 2 ^ 64).toNat := ⟨_, rfl⟩
  rw [sysWaitpid, ← hp]
  by_cases h0 : p = 0
  · exact ⟨-ECHILD, by decide, by rw [getPid, if_pos h0]; rfl⟩
  obtain ⟨r, hr, hsome, -⟩ := getPid_spec h hf h0
  rw [hr]
  cases r with
  | none => exact ⟨-ECHILD, by decide, rfl⟩
  | some t =>
    obtain ⟨ht, hid⟩ := hsome t rfl
    simp only [Option.bind_eq_bind, Option.bind_some, Option.pure_def]
    by_cases hbad : pid < 0 ∨ (s.tasks t).isWaited = true
    · exact ⟨-ECHILD, by decide, if_pos hbad⟩
    rw [if_neg hbad]
    rw [not_or, Bool.not_eq_true] at hbad
    by_cases hmem : isUserMemory P m statLoc (s.tasks caller) = true
    · have hrounds : (s.tasks t).id < fuel := by
        have := hfam.ids t ht
        unfold searchBound at hf
        omega
      obtain ⟨b, hwalk, hiff⟩ := descendsFrom_spec h hfam hf hcaller ht hrounds
      have hb : b = false := by
        rw [← Bool.not_eq_true, hiff]
        exact fun ha => hw t ⟨by omega, ht, by omega, hbad.2, hmem, ha⟩
      refine ⟨-ECHILD, by decide, ?_⟩
      rw [if_neg (not_not.mpr hmem), hwalk, hb]
      rfl
    · exact ⟨-EFAULT, by decide, if_pos hmem⟩

end

/-! ## Runs -/

/-- The call for this number was accepted. -/
def FamilyEvent.accepts (pid : Int) : FamilyEvent → Bool
  | .waitpid _ pid' accepted => decide (pid' = pid) && accepted
  | _ => false

/-- At most one call was accepted, and then the task is marked. -/
def AcceptedOnce (es : List FamilyEvent) (s : Scheduler σ) : Prop :=
  ∀ pid, es.countP (FamilyEvent.accepts pid) = 0 ∨ es.countP (FamilyEvent.accepts pid) = 1 ∧
    ∃ t, s.Linked t ∧ ((s.tasks t).id : Int) = pid ∧ (s.tasks t).isWaited = true

theorem markWaited_still (h : Represents P s L) (task : Nat) : Still s (markWaited task s) :=
  modify_still h (fun _ => ⟨rfl, rfl⟩) fun _ => ⟨rfl, rfl, fun _ => rfl⟩

theorem markWaited_represents (h : Represents P s L) (task : Nat) :
    Represents P (markWaited task s) L := h.modify fun _ => ⟨rfl, rfl⟩

/-- A number that the event is not about. -/
theorem AcceptedOnce.other {es : List FamilyEvent} {e : FamilyEvent} (h : AcceptedOnce es s)
    (hl : ∀ t, s.Linked t → s'.Linked t ∧ Kin (s.tasks t) (s'.tasks t)) {pid : Int}
    (he : e.accepts pid = false) :
    (es ++ [e]).countP (FamilyEvent.accepts pid) = 0 ∨
      (es ++ [e]).countP (FamilyEvent.accepts pid) = 1 ∧
        ∃ t, s'.Linked t ∧ ((s'.tasks t).id : Int) = pid ∧ (s'.tasks t).isWaited = true := by
  rw [List.countP_append, List.countP_singleton, he]
  rcases h pid with h0 | ⟨h1, t, ht, hid, hw⟩
  · exact .inl h0
  · obtain ⟨ht', hk⟩ := hl t ht
    exact .inr ⟨h1, t, ht', by rw [hk.id]; exact hid, hk.waited hw⟩

theorem AcceptedOnce.step {es : List FamilyEvent} {e : FamilyEvent} (h : AcceptedOnce es s)
    (hl : ∀ t, s.Linked t → s'.Linked t ∧ Kin (s.tasks t) (s'.tasks t))
    (he : ∀ pid, e.accepts pid = false) : AcceptedOnce (es ++ [e]) s' :=
  fun pid => h.other hl (he pid)

/-- A call that is accepted marks its task. -/
theorem AcceptedOnce.accept {es : List FamilyEvent} {m : Machine σ} {pid : Int} {statLoc : Nat}
    (honce : AcceptedOnce es s) (hfam : Family s) (h : Represents P s L)
    (hw : Waitable P m caller pid statLoc s t) :
    AcceptedOnce (es ++ [.waitpid caller pid true]) (markWaited t s) := by
  have hstill := markWaited_still h t
  intro p
  by_cases hp : p = pid
  · -- it was not accepted before, because it was not marked
    subst hp
    refine .inr ⟨?_, t, (hstill.linked t).mpr hw.exist, ?_, ?_⟩
    · rw [List.countP_append, List.countP_singleton]
      rcases honce p with h0 | ⟨-, u, hu, hid, hmarked⟩
      · simp [h0, FamilyEvent.accepts]
      · have hsame : u = t := hfam.unique u t hu hw.exist
          (by have := hw.named; omega) (by have := hw.pos; omega)
        rw [hsame, hw.fresh] at hmarked
        cases hmarked
    · rw [(hstill.kin t hw.exist).id]
      exact hw.named
    · rw [markWaited, tasks_modify_self]
  · exact honce.other (fun u hu => ⟨(hstill.linked u).mpr hu, hstill.kin u hu⟩)
      (by simp [FamilyEvent.accepts, Ne.symm hp])

/-- Queues, families and accepted calls. -/
def FamilyInv (P : PageSource σ) (es : List FamilyEvent) (s : Scheduler σ) : Prop :=
  (∃ L, Represents P s L) ∧ Family s ∧ AcceptedOnce es s

theorem FamilyInv.still {es : List FamilyEvent} {e : FamilyEvent} (h : FamilyInv P es s)
    (hr : ∃ L, Represents P s' L) (hst : Still s s') (he : ∀ pid, e.accepts pid = false) :
    FamilyInv P (es ++ [e]) s' :=
  ⟨hr, h.2.1.still hst, h.2.2.step (fun t ht => ⟨(hst.linked t).mpr ht, hst.kin t ht⟩) he⟩

theorem FamilyInv.init {s₀ : Scheduler σ} (h₀ : (schedulerLTS P image).init s₀) :
    FamilyInv P [] s₀ := by
  have hrep : Represents P s₀ fun _ => [] := represents_init h₀
  have hnone : ∀ t, ¬s₀.Linked t := fun t ht => by
    rw [linked_iff hrep] at ht
    obtain ⟨c, hc⟩ := ht
    cases hc
  exact ⟨⟨_, hrep⟩, ⟨fun t ht => absurd ht (hnone t), fun t _ ht => absurd ht (hnone t),
    fun t ht => absurd ht (hnone t), fun t ht => absurd ht (hnone t)⟩, fun _ => .inl rfl⟩

theorem FamilyInv.step {es : List FamilyEvent} {e : FamilyEvent} (hi : FamilyInv P es s)
    (hst : (familyLTS P image).step s e s') : FamilyInv P (es ++ [e]) s' := by
  obtain ⟨⟨L, h⟩, hfam, honce⟩ := hi
  cases e with
  | sched e =>
    have hrep := step_represents h hst
    rcases sched_step h hst with hstill | ⟨new, hidle | hnum⟩
    · exact FamilyInv.still ⟨⟨L, h⟩, hfam, honce⟩ ⟨_, hrep⟩ hstill fun _ => rfl
    · exact ⟨⟨_, hrep⟩, hfam.idle hidle, honce.step
        (fun t ht => ⟨(hidle.linked t).mpr (.inr ht), hidle.kin t ht⟩) fun _ => rfl⟩
    · exact ⟨⟨_, hrep⟩, hfam.numbered hnum fun h0 => absurd rfl h0, honce.step
        (fun t ht => ⟨(hnum.linked t).mpr (.inr ht), hnum.kin t ht⟩) fun _ => rfl⟩
  | fork parent child =>
    obtain ⟨hparent, own, simd, hfork⟩ := hst
    obtain ⟨hrep, hnum⟩ := fork_numbered h hparent.1 hfork
    exact ⟨hrep, hfam.numbered hnum fun _ => ⟨parent, hparent.1, rfl⟩, honce.step
      (fun t ht => ⟨(hnum.linked t).mpr (.inr ht), hnum.kin t ht⟩) fun _ => rfl⟩
  | waitpid caller pid accepted =>
    obtain ⟨hcaller, hlow, hhigh, fuel, statLoc, m, answer, hf, rfl, hcall⟩ := hst
    by_cases hw : ∃ t, Waitable P m caller pid statLoc s t
    · obtain ⟨t, hw⟩ := hw
      rw [sysWaitpid_accepts h hfam hf hcaller hhigh hw] at hcall
      simp only [Option.map_some, Option.some.injEq, Prod.mk.injEq] at hcall
      obtain ⟨rfl, rfl⟩ := hcall
      exact ⟨⟨L, markWaited_represents h t⟩, hfam.still (markWaited_still h t),
        honce.accept hfam h hw⟩
    · obtain ⟨e, -, hrej⟩ := sysWaitpid_rejects some h hfam hf hcaller hlow hhigh
        fun t ht => hw ⟨t, ht⟩
      rw [hrej] at hcall
      simp only [Option.some.injEq, Prod.mk.injEq] at hcall
      obtain ⟨rfl, rfl⟩ := hcall
      refine FamilyInv.still ⟨⟨L, h⟩, hfam, honce⟩ ⟨L, h⟩
        ⟨fun _ => Iff.rfl, fun _ _ => ⟨rfl, rfl, id⟩, rfl⟩ fun p => ?_
      simp [FamilyEvent.accepts, Except.toBool]

theorem family_inv {s₀ : Scheduler σ} {es : List FamilyEvent} (h₀ : (familyLTS P image).init s₀)
    (hr : (familyLTS P image).Run s₀ es s) : FamilyInv P es s :=
  hr.history (I := FamilyInv P) (FamilyInv.init (show (schedulerLTS P image).init s₀ from h₀))
    fun _ _ _ _ hi hst => hi.step hst

/-- **A call of `waitpid` is accepted exactly for a descendant that nobody waits for.** In
every run of creations, forks, calls and whatever the scheduler does: the searches and the
walk end; a call is accepted, and marks the task before it sleeps, exactly when the number
is that of a task which is not marked, the pointer is the user's, and the caller is an
ancestor of the task; otherwise it answers with an error and changes nothing. For one
number at most one call was accepted. -/
theorem waitpid_accepts_once {s₀ : Scheduler σ} {es : List FamilyEvent}
    (h₀ : (familyLTS P image).init s₀) (hr : (familyLTS P image).Run s₀ es s) :
    (∀ caller, Caller s caller → ∀ (pid : Int) (statLoc : Nat) (m : Machine σ),
      -2 ^ 63 ≤ pid → pid < 2 ^ 63 →
      ∃ n, ∀ fuel, n ≤ fuel → ∀ wait : Scheduler σ → Option (Scheduler σ),
        (∀ t, Waitable P m caller pid statLoc s t →
          sysWaitpid P fuel wait caller pid statLoc m s = (wait (markWaited t s)).map fun s' =>
            (.ok (pid, ⟨statLoc, ((s'.tasks t).exitCode % 256).toNat⟩), s')) ∧
        ((∀ t, ¬Waitable P m caller pid statLoc s t) →
          ∃ e, e < 0 ∧ sysWaitpid P fuel wait caller pid statLoc m s = some (.error e, s))) ∧
    ∀ pid, es.countP (FamilyEvent.accepts pid) ≤ 1 := by
  obtain ⟨⟨L, h⟩, hfam, honce⟩ := family_inv h₀ hr
  refine ⟨fun caller hcaller pid statLoc m hlow hhigh =>
    ⟨searchBound s, fun fuel hf wait => ⟨fun t hw => ?_, fun hw => ?_⟩⟩, fun pid => ?_⟩
  · exact sysWaitpid_accepts h hfam hf hcaller hhigh hw
  · exact sysWaitpid_rejects wait h hfam hf hcaller hlow hhigh hw
  · rcases honce pid with h0 | ⟨h1, -⟩ <;> omega

/-- A processor, /init.elf and a child of it. -/
def initAndChild : Option (Nat × Nat × Scheduler Nat) := do
  let (_, s) ← installContext bootSource bootImage 0 (fun _ => 0) bootScheduler
  let (_, init, s) ← create bootSource 0 "/init.elf" (fun _ => 0) s
  let (child, s) ← forkChild bootSource 0 init (fun _ => 0) s
  return (init, child, s)

theorem initAndChild_run {init child : Nat} {s : Scheduler Nat}
    (h : initAndChild = some (init, child, s)) :
    (∃ es, (familyLTS bootSource bootImage).Run bootScheduler es s) ∧ Caller s init ∧
      s.Linked child ∧ (s.tasks child).id = 2 ∧ (s.tasks child).isWaited = false ∧
      Parent s child init := by
  simp only [initAndChild, Option.bind_eq_bind, Option.bind_eq_some_iff, Prod.exists,
    Option.pure_def, Option.some.injEq, Prod.mk.injEq] at h
  obtain ⟨idle, s₁, hinstall, c, _, s₂, hcreate, _, s₃, hfork, rfl, rfl, rfl⟩ := h
  have h₀ : Represents bootSource bootScheduler fun _ => [] :=
    represents_init (show (schedulerLTS bootSource bootImage).init bootScheduler from rfl)
  have hstep₁ : (schedulerLTS bootSource bootImage).step bootScheduler
      (.install bootScheduler.contexts.length idle (s₁.tasks idle).registers) s₁ :=
    .inl ⟨.install 0 fun _ => 0, by simp only [perform, hinstall]; rfl⟩
  have h₁ := step_represents h₀ hstep₁
  have hidle := install_idle h₀ hinstall
  rename_i init child
  have hstep₂ : (schedulerLTS bootSource bootImage).step s₁
      (.create c init (s₂.tasks init).registers) s₂ :=
    .inl ⟨.create 0 "/init.elf" fun _ => 0, by simp only [perform, hcreate]; rfl⟩
  have h₂ := step_represents h₁ hstep₂
  have hinit := create_numbered h₁ hcreate
  have hlinked₂ : s₂.Linked init := (hinit.linked init).mpr (.inl rfl)
  have hlast : s₁.lastId = 0 := hidle.lastId
  have hid₂ : (s₂.tasks init).id = 1 := by rw [hinit.id, hlast]
  have hchild := (fork_numbered h₂ hlinked₂ hfork).2
  have hlinked : s₃.Linked init := (hchild.linked init).mpr (.inr hlinked₂)
  have hid : (s₃.tasks init).id = 1 := (hchild.kin init hlinked₂).id.trans hid₂
  have hppid : (s₃.tasks child).ppid = 1 := hchild.ppid.trans hid₂
  have hfork₁ : (familyLTS bootSource bootImage).step bootScheduler (.sched _) s₁ := hstep₁
  have hfork₂ : (familyLTS bootSource bootImage).step s₁ (.sched _) s₂ := hstep₂
  have hfork₃ : (familyLTS bootSource bootImage).step s₂ (.fork init child) s₃ :=
    ⟨⟨hlinked₂, by rw [hid₂]; decide⟩, 0, _, hfork⟩
  refine ⟨⟨_, .cons hfork₁ (.cons hfork₂ (.cons hfork₃ (.nil s₃)))⟩,
    ⟨hlinked, by rw [hid]; decide⟩, (hchild.linked child).mpr (.inl rfl), ?_, hchild.waited,
    hlinked, by rw [hppid]; decide, hid.trans hppid.symm⟩
  rw [hchild.id, hinit.lastId, hlast]

/-- /init.elf waits for its child. -/
theorem init_waits_for_child : ∃ (init child : Nat) (s : Scheduler Nat) (fuel : Nat),
    initAndChild = some (init, child, s) ∧
      sysWaitpid bootSource fuel some init 2 0x8000001000 ⟨fun _ => 0x1003, 0⟩ s =
        some (.ok (2, ⟨0x8000001000, (((markWaited child s).tasks child).exitCode % 256).toNat⟩),
          markWaited child s) := by
  have hmem : initAndChild.map (fun r => isUserMemory bootSource ⟨fun _ => 0x1003, 0⟩ 0x8000001000
      (r.2.2.tasks r.1)) = some true := by decide +kernel
  obtain ⟨⟨init, child, s⟩, hrun, hmem⟩ := Option.map_eq_some_iff.mp hmem
  obtain ⟨⟨es, hr⟩, hcaller, hlinked, hid, hfresh, hparent⟩ := initAndChild_run hrun
  have hw : Waitable bootSource ⟨fun _ => 0x1003, 0⟩ init 2 0x8000001000 s child :=
    ⟨by decide, hlinked, by rw [hid]; rfl, hfresh, hmem, Relation.TransGen.single hparent⟩
  have h₀ : (familyLTS bootSource bootImage).init bootScheduler := rfl
  obtain ⟨n, hn⟩ := (waitpid_accepts_once h₀ hr).1 init hcaller 2 0x8000001000 ⟨fun _ => 0x1003, 0⟩
    (by decide) (by decide)
  exact ⟨init, child, s, n, hrun, (hn n (Nat.le_refl n) some).1 child hw⟩

end

end GaOS.L6.FileTable
