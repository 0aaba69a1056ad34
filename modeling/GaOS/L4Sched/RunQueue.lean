import GaOS.Core.Ring
import GaOS.L4Sched.RoundRobin
import Mathlib.Data.List.Perm.Subperm

/-!
# The run queues as lists

What a running queue is for is a list of tasks, the next one first: a pop moves
the first to the end, a push appends. `queues` computes these lists from the
events of a run alone, and `Represents` relates them to the links, heads and
counts that the kernel keeps. Each of the scheduler's operations has a lemma here
that says what it does in these terms: `pop_spec`, `create_spec` and
`installContext_spec`.
-/
namespace GaOS.L4.RoundRobin

open GaOS.L1 GaOS.L1.PageAllocator

/-! ## The lists -/

/-- The tasks of each context after one event. -/
def queuesAfter (L : Nat → List Nat) : Event → Nat → List Nat
  | .install c task _ | .create c task _ => Function.update L c (L c ++ [task])
  | .enable c _ _ | .skip c _ | .resume c _ _ =>
    Function.update L c ((L c).tail ++ (L c).head?.toList)
  | _ => L

def queues (es : List Event) : Nat → List Nat := es.foldl queuesAfter fun _ => []

theorem queues_append (es : List Event) (e : Event) :
    queues (es ++ [e]) = queuesAfter (queues es) e := List.foldl_append ..

/-- The task that an event brings into being. -/
def Event.made : Event → Option Nat
  | .install _ task _ | .create _ task _ => some task
  | _ => none

/-- The task that an event pops off the queue of `c`. -/
def Event.popped (c : Nat) : Event → Option Nat
  | .enable d task _ | .skip d task | .resume d task _ => if d = c then some task else none
  | _ => none

/-- An event leaves a list alone, appends a new task, or rotates it. -/
theorem queuesAfter_cases (L : Nat → List Nat) (e : Event) (c : Nat) :
    (e.popped c = none ∧ queuesAfter L e c = L c) ∨
    (e.popped c = none ∧ ∃ t r, (e = .install c t r ∨ e = .create c t r) ∧
      queuesAfter L e c = L c ++ [t]) ∨
    ∃ t, e.popped c = some t ∧ queuesAfter L e c = (L c).tail ++ (L c).head?.toList := by
  cases e with
  | install d t r =>
    by_cases hd : c = d
    · subst hd; exact .inr (.inl ⟨rfl, t, r, .inl rfl, Function.update_self ..⟩)
    · exact .inl ⟨rfl, Function.update_of_ne hd ..⟩
  | create d t r =>
    by_cases hd : c = d
    · subst hd; exact .inr (.inl ⟨rfl, t, r, .inr rfl, Function.update_self ..⟩)
    · exact .inl ⟨rfl, Function.update_of_ne hd ..⟩
  | enable d t r =>
    by_cases hd : c = d
    · subst hd; exact .inr (.inr ⟨t, if_pos rfl, Function.update_self ..⟩)
    · exact .inl ⟨if_neg (Ne.symm hd), Function.update_of_ne hd ..⟩
  | skip d t =>
    by_cases hd : c = d
    · subst hd; exact .inr (.inr ⟨t, if_pos rfl, Function.update_self ..⟩)
    · exact .inl ⟨if_neg (Ne.symm hd), Function.update_of_ne hd ..⟩
  | resume d t r =>
    by_cases hd : c = d
    · subst hd; exact .inr (.inr ⟨t, if_pos rfl, Function.update_self ..⟩)
    · exact .inl ⟨if_neg (Ne.symm hd), Function.update_of_ne hd ..⟩
  | _ => exact .inl ⟨rfl, rfl⟩

theorem mem_queuesAfter {L : Nat → List Nat} {c t : Nat} (h : t ∈ L c) (e : Event) :
    t ∈ queuesAfter L e c := by
  rcases queuesAfter_cases L e c with ⟨-, he⟩ | ⟨-, a, r, -, he⟩ | ⟨a, -, he⟩
  · rwa [he]
  · rw [he]; exact List.mem_append_left _ h
  · rw [he]
    cases hl : L c with
    | nil => rw [hl] at h; cases h
    | cons b l => rw [hl] at h; simpa [or_comm] using h

theorem mem_foldl_queuesAfter {es : List Event} {L : Nat → List Nat} {c t : Nat} (h : t ∈ L c) :
    t ∈ es.foldl queuesAfter L c := by
  induction es generalizing L with
  | nil => exact h
  | cons e es ih => exact ih (mem_queuesAfter h e)

/-- Once made, a task stays in a queue. -/
theorem mem_queues_of_made {es : List Event} {t : Nat} (h : t ∈ es.filterMap Event.made) :
    ∃ c, t ∈ queues es c := by
  suffices ∀ L, ∃ c, t ∈ es.foldl queuesAfter L c from this _
  induction es with
  | nil => cases h
  | cons e es ih =>
    intro L
    have hnew : ∀ c, t ∈ queuesAfter L e c → ∃ c, t ∈ (e :: es).foldl queuesAfter L c :=
      fun c hc => ⟨c, by rw [List.foldl_cons]; exact mem_foldl_queuesAfter hc⟩
    rw [List.filterMap_cons] at h
    cases e with
    | install c a r =>
      cases h with
      | head => exact hnew c (by simp [queuesAfter])
      | tail _ h => exact ih h _
    | create c a r =>
      cases h with
      | head => exact hnew c (by simp [queuesAfter])
      | tail _ h => exact ih h _
    | _ => exact ih h _

/-! ## Representation -/

/-- The queue `q` of context `c` holds the tasks `l`. -/
structure Holds (tasks : Nat → Task) (c : Nat) (q : Queue) (l : List Nat) : Prop where
  ring : Ring 0 (fun t => (tasks t).next) q.head q.last l
  count : q.count = l.length
  current : q.current ∈ l
  owner : ∀ t ∈ l, (tasks t).parentQueue = some c

/-- The page of a task: in use, and where a page can be. -/
structure TaskPage {σ : Type} (P : PageSource σ) (src : σ) (t : Nat) : Prop where
  aligned : t % PAGE = 0
  pos : 0 < t
  lt : t < 2 ^ 64
  used : ¬P.Free src t

structure Represents {σ : Type} (P : PageSource σ) (s : Scheduler σ) (L : Nat → List Nat) :
    Prop where
  holds : ∀ c q, s.queue c = some q → Holds s.tasks c q (L c)
  absent : ∀ c, s.queue c = none → L c = []
  page : ∀ c, ∀ t ∈ L c, TaskPage P s.src t

variable {tasks tasks' : Nat → Task} {q q' : Queue} {c t : Nat} {l : List Nat}

theorem Holds.congr (h : Holds tasks c q l)
    (ht : ∀ t ∈ l, (tasks' t).next = (tasks t).next ∧
      (tasks' t).parentQueue = (tasks t).parentQueue) : Holds tasks' c q l where
  ring := h.ring.congr fun t hm => (ht t hm).1
  count := h.count
  current := h.current
  owner t hm := (ht t hm).2.trans (h.owner t hm)

theorem Holds.tasks_eq (h : Holds tasks c q l) :
    l = List.iterate (fun t => (tasks t).next) q.head q.count := h.count ▸ h.ring.iterate

/-- A task without its place in a queue. -/
def Task.unlinked (task : Task) : Task := { task with next := 0, parentQueue := none }

/-- Two task tables that differ in links only. -/
def SameTasks (tasks tasks' : Nat → Task) : Prop :=
  ∀ t, (tasks' t).unlinked = (tasks t).unlinked

/-! ## Pop and push -/

theorem modify_self (tasks : Nat → Task) (t : Nat) (f : Task → Task) :
    modify tasks t f t = f (tasks t) := Function.update_self ..

theorem modify_of_ne (tasks : Nat → Task) {t x : Nat} (f : Task → Task) (h : x ≠ t) :
    modify tasks t f x = tasks x := Function.update_of_ne h ..

theorem setNext_next (tasks : Nat → Task) (t n x : Nat) :
    (setNext tasks t n x).next = if x = t then n else (tasks x).next := by
  unfold setNext
  by_cases h : x = t
  · rw [h, modify_self, if_pos rfl]
  · rw [modify_of_ne _ _ h, if_neg h]

theorem setNext_parentQueue (tasks : Nat → Task) (t n x : Nat) :
    (setNext tasks t n x).parentQueue = (tasks x).parentQueue := by
  unfold setNext
  by_cases h : x = t
  · rw [h, modify_self]
  · rw [modify_of_ne _ _ h]

theorem SameTasks.setNext (tasks : Nat → Task) (t n : Nat) :
    SameTasks tasks (setNext tasks t n) := by
  intro x
  unfold RoundRobin.setNext
  by_cases h : x = t
  · rw [h, modify_self]; rfl
  · rw [modify_of_ne _ _ h]

theorem SameTasks.trans {tasks'' : Nat → Task} (h : SameTasks tasks tasks')
    (h' : SameTasks tasks' tasks'') : SameTasks tasks tasks'' := fun x => (h' x).trans (h x)

/-- One pop: the first task goes to the end and becomes the current one. -/
theorem popFromQueue_spec (h : Holds tasks c q l)
    (hp : popFromQueue tasks q = some (t, tasks', q')) :
    ∃ m, l = t :: m ∧ Holds tasks' c q' (m ++ [t]) ∧ q'.current = t ∧
      (∀ x, x ∉ l → tasks' x = tasks x) ∧ SameTasks tasks tasks' := by
  obtain ⟨m, rfl⟩ : ∃ m, l = q.head :: m := List.head?_eq_some_iff.mp h.ring.front
  unfold popFromQueue at hp
  simp only [Option.ite_none_left_eq_some] at hp
  obtain ⟨-, hp⟩ := hp
  split at hp
  · rename_i hcount
    cases hp
    have hm : m ≠ [] := by
      intro h0
      have := h.count
      rw [h0, List.length_singleton] at this
      omega
    have hlast : q.last ∈ m := by
      have := h.ring.back
      rw [List.getLast?_cons_of_ne_nil hm] at this
      exact List.mem_of_getLast? this
    have hnot : q.head ∉ m := (List.nodup_cons.mp h.ring.nodup).1
    have hne : q.last ≠ q.head := fun he => hnot (he ▸ hlast)
    refine ⟨m, rfl, ⟨?_, ?_, by simp, ?_⟩, rfl, ?_, ?_⟩
    · apply h.ring.rotate hm
      · simp [setNext_next, hne]
      · simp [setNext_next]
      · intro x hx hxl
        have hxh : x ≠ q.head := fun he => hnot (he ▸ hx)
        simp [setNext_next, hxh, hxl]
    · simpa using h.count
    · intro x hx
      simp only [setNext_parentQueue]
      exact h.owner x (by simpa [or_comm] using hx)
    · intro x hx
      rw [List.mem_cons, not_or] at hx
      have hxl : x ≠ q.last := fun he => hx.2 (he ▸ hlast)
      unfold setNext
      rw [modify_of_ne _ _ hx.1, modify_of_ne _ _ hxl]
    · exact (SameTasks.setNext _ _ _).trans (SameTasks.setNext _ _ _)
  · rename_i hcount
    cases hp
    -- alone in the queue: nothing moves, and it is the current task already
    have hm : m = [] := by
      have := h.count
      rw [List.length_cons] at this
      exact List.length_eq_zero_iff.mp (by omega)
    subst hm
    exact ⟨[], rfl, h, by simpa using h.current, fun _ _ => rfl, fun _ => rfl⟩

theorem popFromQueue_isSome (h : Holds tasks c q l) (hl : ∀ t ∈ l, 0 < t) :
    ∃ t tasks' q', popFromQueue tasks q = some (t, tasks', q') := by
  have hpos := hl q.head h.ring.head_mem
  unfold popFromQueue
  rw [if_neg (by omega)]
  split
  · exact ⟨_, _, _, rfl⟩
  · exact ⟨_, _, _, rfl⟩

/-- A push to a queue in use leaves the current task alone. -/
theorem pushToQueue_spec (h : Holds tasks c q l) (ht : t ∉ l) (hnull : (tasks t).next = 0)
    (hlen : l.length + 1 < 2 ^ 64) (hp : pushToQueue c t tasks q = (tasks', q')) :
    Holds tasks' c q' (l ++ [t]) ∧ q'.current = q.current ∧
      (∀ x, x ∉ l → x ≠ t → tasks' x = tasks x) ∧ SameTasks tasks tasks' := by
  have hpos : q.count > 0 := by
    rw [h.count]
    exact List.length_pos_of_mem h.ring.head_mem
  unfold pushToQueue at hp
  simp only [if_pos hpos] at hp
  cases hp
  have hlast := h.ring.last_mem
  have htl : t ≠ q.last := fun he => ht (he ▸ hlast)
  have hold : ∀ x, x ≠ t → modify tasks t (fun task => { task with parentQueue := some c }) x =
      tasks x := fun x hx => modify_of_ne _ _ hx
  have hnew := modify_self tasks t fun task => { task with parentQueue := some c }
  refine ⟨⟨?_, ?_, ?_, ?_⟩, rfl, ?_, ?_⟩
  · apply h.ring.push ht
    · simp [setNext_next]
    · simp [setNext_next, htl, hnew, hnull]
    · intro x hx hxl
      simp [setNext_next, hxl, hold x fun he => ht (he ▸ hx)]
  · simp only [List.length_append, List.length_singleton, ← h.count] at hlen ⊢
    exact add64_of_lt hlen
  · exact List.mem_append_left _ h.current
  · intro x hx
    rw [setNext_parentQueue]
    rcases List.mem_append.mp hx with hx | hx
    · rw [hold x fun he => ht (he ▸ hx)]
      exact h.owner x hx
    · rw [List.mem_singleton.mp hx, hnew]
  · intro x hx hxt
    have hxl : x ≠ q.last := fun he => hx (he ▸ hlast)
    unfold setNext
    rw [modify_of_ne _ _ hxl, hold x hxt]
  · refine SameTasks.trans (fun x => ?_) (SameTasks.setNext _ _ _)
    by_cases hx : x = t
    · rw [hx, hnew]; rfl
    · rw [hold x hx]

/-- The first task of a new queue. -/
theorem pushToQueue_first (hnull : (tasks t).next = 0)
    (hp : pushToQueue c t tasks {} = (tasks', q')) :
    Holds tasks' c q' [t] ∧ (∀ x, x ≠ t → tasks' x = tasks x) ∧ SameTasks tasks tasks' := by
  cases hp
  have hold : ∀ x, x ≠ t → modify tasks t (fun task => { task with parentQueue := some c }) x =
      tasks x := fun x hx => modify_of_ne _ _ hx
  have hnew := modify_self tasks t fun task => { task with parentQueue := some c }
  refine ⟨⟨Ring.single ?_, rfl, by simp, ?_⟩, hold, ?_⟩
  · rw [hnew]; exact hnull
  · intro x hx
    rw [List.mem_singleton.mp hx, hnew]
  · intro x
    by_cases hx : x = t
    · rw [hx, hnew]; rfl
    · rw [hold x hx]

/-! ## The scheduler's operations -/

variable {σ : Type} {P : PageSource σ} {image : Image} {s s' : Scheduler σ} {L : Nat → List Nat}

theorem queue_setQueue (hc : s.queue c = some q) : (s.setQueue c q').queue c = some q' := by
  unfold Scheduler.queue Scheduler.setQueue at *
  obtain ⟨context, hget, -⟩ := Option.map_eq_some_iff.mp hc
  simp [hget]

theorem queue_setQueue_of_ne {d : Nat} (hd : d ≠ c) : (s.setQueue c q').queue d = s.queue d := by
  unfold Scheduler.queue Scheduler.setQueue
  simp [Ne.symm hd]

theorem queue_append_of_ne {d : Nat} {context : Context} {tasks : Nat → Task} {src : σ}
    (hd : d ≠ s.contexts.length) :
    Scheduler.queue { s with tasks := tasks, contexts := s.contexts ++ [context], src := src } d =
      s.queue d := by
  unfold Scheduler.queue
  by_cases h : d < s.contexts.length
  · simp [List.getElem?_append_left h]
  · have h1 : s.contexts.length ≤ d := by omega
    have h2 : (s.contexts ++ [context]).length ≤ d := by simp; omega
    simp [List.getElem?_eq_none h1, List.getElem?_eq_none h2]

theorem TaskPage.mono {src src' : σ} (h : TaskPage P src t)
    (hk : ∀ x, P.Free src' x → P.Free src x) : TaskPage P src' t :=
  { h with used := fun hf => h.used (hk t hf) }

/-- A page for a task is one that nothing else uses. -/
theorem allocate_taskPage {src src' : σ} (h : P.allocate src 1 = some (t, src')) :
    TaskPage P src' t ∧ P.Free src t ∧ ∀ x, P.Free src' x → P.Free src x := by
  have hg := P.grant _ _ _ _ (by decide) h
  have habove := hg.above
  have hbelow := hg.below
  have hfresh := hg.fresh 0 (by decide)
  rw [Nat.zero_mul, Nat.add_zero] at hfresh
  refine ⟨⟨hg.aligned, ?_, ?_, fun hf => ?_⟩, hfresh, hg.kept⟩
  · simp only [PAGE] at habove; omega
  · simp only [PAGE] at hbelow; omega
  · have := hg.taken t hf
    simp only [PAGE] at this; omega

/-- There are fewer pages than numbers in a `size_t`. -/
theorem length_lt_of_pages {src : σ} (hnd : l.Nodup) (hl : ∀ t ∈ l, TaskPage P src t) :
    l.length + 1 < 2 ^ 64 := by
  have hinj : (l.map (· / PAGE)).Nodup := by
    refine hnd.map_on fun x hx y hy he => ?_
    have h1 := (hl x hx).aligned
    have h2 := (hl y hy).aligned
    simp only [PAGE] at *
    omega
  have hsub : l.map (· / PAGE) ⊆ List.range (2 ^ 52) := by
    intro y hy
    obtain ⟨x, hx, rfl⟩ := List.mem_map.mp hy
    have := (hl x hx).lt
    rw [List.mem_range]
    simp only [PAGE]
    omega
  have := (hinj.subperm hsub).length_le
  rw [List.length_map, List.length_range] at this
  omega

/-- A task is in the queue that its `parent_queue` names and in no other. -/
theorem Represents.owner_eq (h : Represents P s L) (ht : t ∈ L c) :
    (s.tasks t).parentQueue = some c := by
  cases hc : s.queue c with
  | none => rw [h.absent c hc] at ht; cases ht
  | some q => exact (h.holds c q hc).owner t ht

theorem Represents.not_mem (h : Represents P s L) {d : Nat} (hd : d ≠ c) (ht : t ∈ L d) :
    t ∉ L c := fun hc => hd (Option.some.inj ((h.owner_eq ht).symm.trans (h.owner_eq hc)))

/-- One queue changes; the links of the tasks in the others do not. -/
theorem Represents.update (h : Represents P s L) (hc : s'.queue c = some q')
    (hq : Holds s'.tasks c q' l) (hother : ∀ d, d ≠ c → s'.queue d = s.queue d)
    (hframe : ∀ d, d ≠ c → ∀ x ∈ L d, s'.tasks x = s.tasks x)
    (hl : ∀ t ∈ l, TaskPage P s'.src t) (hsrc : ∀ x, P.Free s'.src x → P.Free s.src x) :
    Represents P s' (Function.update L c l) where
  holds d r hr := by
    by_cases hd : d = c
    · subst hd
      rw [Function.update_self]
      rw [hc] at hr
      cases hr
      exact hq
    · rw [Function.update_of_ne hd]
      rw [hother d hd] at hr
      exact (h.holds d r hr).congr fun x hx => by rw [hframe d hd x hx]; exact ⟨rfl, rfl⟩
  absent d hr := by
    have hd : d ≠ c := by
      intro he
      rw [he, hc] at hr
      cases hr
    rw [Function.update_of_ne hd]
    exact h.absent d (hother d hd ▸ hr)
  page d x hx := by
    by_cases hd : d = c
    · subst hd
      rw [Function.update_self] at hx
      exact hl x hx
    · rw [Function.update_of_ne hd] at hx
      exact (h.page d x hx).mono hsrc

/-- What a pop of `t` on context `c` does. -/
structure Popped (P : PageSource σ) (s s' : Scheduler σ) (L : Nat → List Nat) (c t : Nat)
    (m : List Nat) : Prop where
  first : L c = t :: m
  represents : Represents P s' (Function.update L c (m ++ [t]))
  current : ∃ q, s'.queue c = some q ∧ q.current = t
  others : ∀ d, d ≠ c → s'.queue d = s.queue d
  same : SameTasks s.tasks s'.tasks

theorem pop_spec (h : Represents P s L) (hp : pop c s = some (t, s')) :
    ∃ m, Popped P s s' L c t m := by
  unfold pop at hp
  simp only [Option.bind_eq_bind, Option.bind_eq_some_iff] at hp
  obtain ⟨q, hq, ⟨t', tasks', q'⟩, hpop, he⟩ := hp
  cases he
  obtain ⟨m, hl, hholds, hcur, hframe, hsame⟩ := popFromQueue_spec (h.holds c q hq) hpop
  have hc : ({ s with tasks := tasks' }.setQueue c q').queue c = some q' := queue_setQueue hq
  have hother : ∀ d, d ≠ c → ({ s with tasks := tasks' }.setQueue c q').queue d = s.queue d :=
    fun d hd => queue_setQueue_of_ne hd
  refine ⟨m, hl, ?_, ⟨q', hc, hcur⟩, hother, hsame⟩
  refine h.update hc hholds hother (fun d hd x hx => hframe x (h.not_mem hd hx)) ?_ fun x hx => hx
  intro x hx
  exact h.page c x (by rw [hl]; simpa [or_comm] using hx)

theorem pop_isSome (h : Represents P s L) (hq : s.queue c = some q) :
    ∃ t s', pop c s = some (t, s') := by
  obtain ⟨t, tasks', q', hp⟩ := popFromQueue_isSome (h.holds c q hq) fun t ht => (h.page c t ht).pos
  exact ⟨t, _, by unfold pop; rw [hq, Option.bind_eq_bind, Option.bind_some, hp]; rfl⟩

theorem selectNext_succ {n : Nat} (hp : pop c s = some (t, s')) :
    selectNext (n + 1) c s = if (s'.tasks t).Runnable then some (t, s') else selectNext n c s' := by
  rw [selectNext, hp]; rfl

theorem selectNext_some {n : Nat} (hs : selectNext (n + 1) c s = some (t, s')) :
    ∃ u s₁, pop c s = some (u, s₁) := by
  rw [selectNext, Option.bind_eq_bind, Option.bind_eq_some_iff] at hs
  obtain ⟨⟨u, s₁⟩, hp, -⟩ := hs
  exact ⟨u, s₁, hp⟩

/-- What making a task `t` with the contents `task` on context `c` does. -/
structure Made (P : PageSource σ) (s s' : Scheduler σ) (L : Nat → List Nat) (c t : Nat)
    (task : Task) : Prop where
  represents : Represents P s' (Function.update L c (L c ++ [t]))
  fresh : ∀ d, t ∉ L d
  new : (s'.tasks t).unlinked = task.unlinked
  old : ∀ x, x ≠ t → (s'.tasks x).unlinked = (s.tasks x).unlinked
  current : ∀ d q, s.queue d = some q → ∃ q', s'.queue d = some q' ∧ q'.current = q.current

/-- Steps that touch neither the queues nor the links. -/
theorem Represents.congr (h : Represents P s L) (hq : ∀ d, s'.queue d = s.queue d)
    (ht : ∀ d, ∀ x ∈ L d, (s'.tasks x).next = (s.tasks x).next ∧
      (s'.tasks x).parentQueue = (s.tasks x).parentQueue)
    (hsrc : ∀ d, ∀ x ∈ L d, ¬P.Free s'.src x) : Represents P s' L where
  holds d r hr := (h.holds d r (hq d ▸ hr)).congr (ht d)
  absent d hr := h.absent d (hq d ▸ hr)
  page d x hx := { h.page d x hx with used := hsrc d x hx }

theorem Represents.not_mem_of_free (h : Represents P s L) (ht : P.Free s.src t) (d : Nat) :
    t ∉ L d := fun hd => (h.page d t hd).used ht

theorem push_spec (h : Represents P s L) (hfresh : ∀ d, t ∉ L d) (hnull : (s.tasks t).next = 0)
    (hpage : TaskPage P s.src t) (hp : push c t s = some s') :
    L c ≠ [] ∧ Represents P s' (Function.update L c (L c ++ [t])) ∧ SameTasks s.tasks s'.tasks ∧
      ∀ d q, s.queue d = some q → ∃ q', s'.queue d = some q' ∧ q'.current = q.current := by
  unfold push at hp
  simp only [Option.bind_eq_bind, Option.bind_eq_some_iff] at hp
  obtain ⟨q, hq, he⟩ := hp
  cases he
  have hold := h.holds c q hq
  have hlen := length_lt_of_pages hold.ring.nodup (h.page c)
  obtain ⟨hholds, hcur, hframe, hsame⟩ := pushToQueue_spec hold (hfresh c) hnull hlen rfl
  have hc : ({ s with tasks := (pushToQueue c t s.tasks q).1 }.setQueue c
      (pushToQueue c t s.tasks q).2).queue c = some (pushToQueue c t s.tasks q).2 :=
    queue_setQueue hq
  have hother : ∀ d, d ≠ c → ({ s with tasks := (pushToQueue c t s.tasks q).1 }.setQueue c
      (pushToQueue c t s.tasks q).2).queue d = s.queue d := fun d hd => queue_setQueue_of_ne hd
  refine ⟨List.ne_nil_of_mem hold.current, ?_, hsame, ?_⟩
  · refine h.update hc hholds hother ?_ ?_ fun x hx => hx
    · intro d hd x hx
      exact hframe x (h.not_mem hd hx) fun he => hfresh d (he ▸ hx)
    · intro x hx
      rcases List.mem_append.mp hx with hx | hx
      · exact h.page c x hx
      · rw [List.mem_singleton.mp hx]; exact hpage
  · intro d r hr
    by_cases hd : d = c
    · subst hd
      rw [hq] at hr
      cases hr
      exact ⟨_, hc, hcur⟩
    · exact ⟨r, (hother d hd).trans hr, rfl⟩

theorem create_spec {own : Nat} {name : String} {simd : SimdState} (h : Represents P s L)
    (hs : create P own name simd s = some (c, t, s')) :
    L c ≠ [] ∧ ∃ stack fds, Made P s s' L c t (newTask name (s.lastId + 1) stack fds simd) := by
  unfold create at hs
  simp only [Option.bind_eq_bind, Option.bind_eq_some_iff, Option.ite_none_left_eq_some] at hs
  obtain ⟨⟨a, src1⟩, ha1, ⟨stack, src2⟩, ha2, -, ⟨fds, src3⟩, ha3, s2, hpush, he⟩ := hs
  cases he
  obtain ⟨hpage, hfree, hk1⟩ := allocate_taskPage ha1
  obtain ⟨-, -, hk2⟩ := allocate_taskPage ha2
  obtain ⟨-, -, hk3⟩ := allocate_taskPage ha3
  have hk : ∀ x, P.Free src3 x → P.Free src1 x := fun x hx => hk2 x (hk3 x hx)
  have hfresh := h.not_mem_of_free hfree
  generalize hnew : newTask name (s.lastId + 1) stack fds simd = task at hpush
  have hnull : task.next = 0 := by subst hnew; rfl
  have hne : ∀ x, x ≠ a → Function.update s.tasks a task x = s.tasks x :=
    fun x hx => Function.update_of_ne hx ..
  have h1 : Represents P { s with
      tasks := Function.update s.tasks a task
      lastId := s.lastId + 1
      src := src3 } L := by
    refine h.congr (fun d => rfl) ?_ fun d x hx hf => (h.page d x hx).used (hk1 x (hk x hf))
    intro d x hx
    have hxt : x ≠ a := fun he => hfresh d (he ▸ hx)
    simp only [hne x hxt, and_self]
  obtain ⟨hbusy, hr, hsame, hcur⟩ := push_spec h1 hfresh
    (by simp only [Function.update_self, hnull]) (hpage.mono hk) hpush
  refine ⟨hbusy, stack, fds, hr, hfresh, ?_, ?_, hcur⟩
  · have := hsame a
    simp only [Function.update_self] at this
    rw [this, hnew]
  · intro x hx
    exact (hsame x).trans (congrArg Task.unlinked (hne x hx))

/-- A push to the queue of a context that was just added. -/
theorem push_first (hq : s.queue c = some {}) (hnull : (s.tasks t).next = 0)
    (hp : push c t s = some s') :
    (∃ q', s'.queue c = some q' ∧ Holds s'.tasks c q' [t]) ∧
      (∀ d, d ≠ c → s'.queue d = s.queue d) ∧ (∀ x, x ≠ t → s'.tasks x = s.tasks x) ∧
      (s'.tasks t).unlinked = (s.tasks t).unlinked ∧ s'.src = s.src := by
  unfold push at hp
  rw [hq, Option.bind_eq_bind, Option.bind_some] at hp
  cases hp
  obtain ⟨hholds, hframe, hsame⟩ := pushToQueue_first (c := c) hnull rfl
  exact ⟨⟨_, queue_setQueue hq, hholds⟩, fun d hd => queue_setQueue_of_ne hd, hframe, hsame t, rfl⟩

theorem installContext_spec {cpuId : Nat} {simd : SimdState} (h : Represents P s L)
    (hs : installContext P image cpuId simd s = some (t, s')) :
    s.queue s.contexts.length = none ∧
      ∃ stack, Made P s s' L s.contexts.length t (idleTask P image stack simd) := by
  unfold installContext at hs
  simp only [Option.bind_eq_bind, Option.bind_eq_some_iff] at hs
  obtain ⟨⟨a, src1⟩, ha1, ⟨stack, src2⟩, ha2, s2, hpush, he⟩ := hs
  cases he
  obtain ⟨hpage, hfree, hk1⟩ := allocate_taskPage ha1
  obtain ⟨-, -, hk2⟩ := allocate_taskPage ha2
  have hfresh := h.not_mem_of_free hfree
  have hnone : s.queue s.contexts.length = none := by simp [Scheduler.queue]
  generalize hnew : idleTask P image stack simd = task at hpush
  have hnull : task.next = 0 := by subst hnew; rfl
  have hne : ∀ x, x ≠ a → Function.update s.tasks a task x = s.tasks x :=
    fun x hx => Function.update_of_ne hx ..
  obtain ⟨⟨q, hc, hholds⟩, hother, hframe, hbody, hsrc⟩ := push_first (by simp [Scheduler.queue])
    (by simp only [Function.update_self, hnull]) hpush
  have hold : ∀ x, x ≠ a → s'.tasks x = s.tasks x := fun x hx => (hframe x hx).trans (hne x hx)
  have hother' : ∀ d, d ≠ s.contexts.length → s'.queue d = s.queue d :=
    fun d hd => (hother d hd).trans (queue_append_of_ne hd)
  refine ⟨hnone, stack, ?_, hfresh, ?_, fun x hx => by rw [hold x hx], ?_⟩
  · rw [h.absent _ hnone, List.nil_append]
    refine h.update hc hholds hother' (fun d _ x hx => hold x fun he => hfresh d (he ▸ hx)) ?_ ?_
    · intro x hx
      rw [List.mem_singleton.mp hx, hsrc]
      exact hpage.mono hk2
    · intro x hx
      rw [hsrc] at hx
      exact hk1 x (hk2 x hx)
  · simp only [Function.update_self] at hbody
    rw [hbody, hnew]
  · intro d r hr
    have hd : d ≠ s.contexts.length := by
      intro he
      rw [he, hnone] at hr
      cases hr
    exact ⟨r, (hother' d hd).trans hr, rfl⟩

end GaOS.L4.RoundRobin
