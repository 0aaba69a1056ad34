import GaOS.L6Syscall.Waitpid

/-!
# Finding a task by its number

`task_scheduler_round_robin_get_pid` (kernel/src/schedulers/task/round_robin/round_robin.c:90-136)
goes through the contexts from `last_context` along `previous`, and through the running
queue of each. Both loops stop at null or where they began. `Links` is the chain of contexts
as `install_context` builds it; a context is a block of its own, and its number the place of
that block.

The chain has the contexts in the order of their installation (`ChainInv`), so the walk is
the search of `getPid` (`getPidWalk_eq`). A queue holds every task that was made on its
context, whether it is an open chain or a ring (`getPid_spec`), and nothing takes a task out
(`family_linked`).

Main result: `get_pid_complete`.
-/
namespace GaOS.L6.FileTable

open GaOS.L1 GaOS.L1.PageAllocator GaOS.L4.RoundRobin

/-! ## The chain of contexts -/

/-- The blocks of the contexts, in the order of their installation, and their links. -/
structure Links where
  blocks : List Nat
  previous : Nat → Nat
  next : Nat → Nat
  lastContext : Nat

/-- The block comes zeroed from the heap.
mirrors kernel/src/schedulers/task/round_robin/round_robin.c:157-168 -/
def linkContext (new : Nat) (k : Links) : Links :=
  let previous := Function.update k.previous new 0
  let next := Function.update k.next new 0
  if k.lastContext ≠ 0 then
    { blocks := k.blocks ++ [new]
      previous := Function.update previous new k.lastContext
      next := Function.update next k.lastContext new
      lastContext := new }
  else { blocks := k.blocks ++ [new], previous := previous, next := next, lastContext := new }

section
variable {σ : Type}

/-- The loop over the contexts, with at most as many rounds as the number; a context or a
head that is null or no block at all is `none` too.
mirrors kernel/src/schedulers/task/round_robin/round_robin.c:102-128 -/
def walkContexts (k : Links) (s : Scheduler σ) (pid fuel : Nat) : Nat → Nat → Option (Option Nat)
  | 0, _ => none
  | rounds + 1, context => do
    let q ← s.queue (k.blocks.idxOf context)
    if q.head = 0 then none
    else
      match ← findInQueue s.tasks q.head pid fuel q.head with
      | some task => return some task
      | none =>
        let previous := k.previous context
        if previous ≠ 0 ∧ previous ≠ k.lastContext then walkContexts k s pid fuel rounds previous
        else return none

/-- mirrors kernel/src/schedulers/task/round_robin/round_robin.c:90-136 -/
def getPidWalk (fuel pid : Nat) (k : Links) (s : Scheduler σ) : Option (Option Nat) :=
  if pid = 0 then some none else walkContexts k s pid fuel fuel k.lastContext

/-- The chain of `n` contexts. -/
structure ChainInv (k : Links) (n : Nat) : Prop where
  length : k.blocks.length = n
  nodup : k.blocks.Nodup
  nonnull : 0 ∉ k.blocks
  last : k.lastContext = k.blocks.getLast?.getD 0
  first : ∀ a, k.blocks[0]? = some a → k.previous a = 0
  linked : ∀ i a b, k.blocks[i]? = some a → k.blocks[i + 1]? = some b → k.previous b = a

variable {k : Links} {n new : Nat}

theorem linkContext_blocks : (linkContext new k).blocks = k.blocks ++ [new] := by
  unfold linkContext
  split <;> rfl

theorem linkContext_last : (linkContext new k).lastContext = new := by
  unfold linkContext
  split <;> rfl

/-- The new context points to the one that was last, null if there was none. -/
theorem linkContext_previous (a : Nat) : (linkContext new k).previous a =
    if a = new then k.lastContext else k.previous a := by
  unfold linkContext
  by_cases ha : a = new
  · subst ha
    split
    · simp
    · rename_i h0
      simpa using (not_not.mp h0).symm
  · split <;> simp [ha]

theorem ChainInv.install (h : ChainInv k n) (h0 : new ≠ 0) (hnew : new ∉ k.blocks) :
    ChainInv (linkContext new k) (n + 1) := by
  have hold : ∀ (i a : Nat), k.blocks[i]? = some a →
      (linkContext new k).previous a = k.previous a := by
    intro i a ha
    have hne : a ≠ new := fun he => hnew (he ▸ List.mem_of_getElem? ha)
    rw [linkContext_previous, if_neg hne]
  refine ⟨?_, ?_, ?_, ?_, fun a ha => ?_, fun i a b ha hb => ?_⟩
  · rw [linkContext_blocks, List.length_append, h.length]
    rfl
  · rw [linkContext_blocks]
    exact (List.perm_append_singleton _ _).nodup_iff.mpr (List.nodup_cons.mpr ⟨hnew, h.nodup⟩)
  · rw [linkContext_blocks]
    simp [h.nonnull, Ne.symm h0]
  · rw [linkContext_last, linkContext_blocks]
    simp
  · rw [linkContext_blocks] at ha
    cases hb : k.blocks with
    | nil =>
      obtain rfl : new = a := by simpa [hb] using ha
      rw [linkContext_previous, if_pos rfl, h.last, hb]
      rfl
    | cons b l =>
      obtain rfl : b = a := by simpa [hb] using ha
      have hfirst : k.blocks[0]? = some b := by simp [hb]
      rw [hold 0 b hfirst, h.first b hfirst]
  · rw [linkContext_blocks] at ha hb
    rcases Nat.lt_trichotomy (i + 1) k.blocks.length with hlt | heq | hgt
    · rw [List.getElem?_append_left hlt] at hb
      rw [List.getElem?_append_left (by omega)] at ha
      rw [hold _ b hb, h.linked i a b ha hb]
    · -- the link that is new
      rw [List.getElem?_append_right (by omega), heq, Nat.sub_self] at hb
      rw [List.getElem?_append_left (by omega)] at ha
      obtain rfl : new = b := by simpa using hb
      rw [linkContext_previous, if_pos rfl, h.last, List.getLast?_eq_getElem?, ← heq,
        Nat.add_sub_cancel, ha]
      rfl
    · have hlen : (k.blocks ++ [new]).length ≤ i + 1 := by
        rw [List.length_append, List.length_singleton]
        omega
      rw [List.getElem?_eq_none hlen] at hb
      cases hb

/-! ## The walk -/

variable {P : PageSource σ} {image : Image} {s s' : Scheduler σ} {L : Nat → List Nat}
  {pid fuel rounds t : Nat}

/-- One round at the block with place `n`: the queue of that context, and then either the
context before it or the end. -/
theorem walkContexts_round (hk : ChainInv k s.contexts.length)
    (hhead : ∀ c q, s.queue c = some q → q.head ≠ 0) {a : Nat} (ha : k.blocks[n]? = some a)
    {rest : List Context}
    (hrest : (if k.previous a ≠ 0 ∧ k.previous a ≠ k.lastContext then
      walkContexts k s pid fuel rounds (k.previous a) else some none) =
        findInContexts s.tasks pid fuel rest) :
    ∃ context, s.contexts[n]? = some context ∧
      walkContexts k s pid fuel (rounds + 1) a =
        findInContexts s.tasks pid fuel (context :: rest) := by
  obtain ⟨hn, rfl⟩ := List.getElem?_eq_some_iff.mp ha
  have hplace : k.blocks.idxOf k.blocks[n] = n := hk.nodup.idxOf_getElem n hn
  have hlt : n < s.contexts.length := by rw [← hk.length]; exact hn
  have hq : s.queue n = some s.contexts[n].running := by
    rw [Scheduler.queue, List.getElem?_eq_getElem hlt]
    rfl
  refine ⟨s.contexts[n], List.getElem?_eq_getElem hlt, ?_⟩
  rw [walkContexts, findInContexts, hplace, hq, Option.bind_eq_bind, Option.bind_some,
    if_neg (hhead n _ hq)]
  cases findInQueue s.tasks s.contexts[n].running.head pid fuel s.contexts[n].running.head with
  | none => rfl
  | some r =>
    cases r with
    | some task => rfl
    | none => exact hrest

/-- From the block at place `n` on, the walk searches the first `n + 1` contexts, the last
one first. -/
theorem walkContexts_eq (hk : ChainInv k s.contexts.length)
    (hhead : ∀ c q, s.queue c = some q → q.head ≠ 0) {a : Nat} (ha : k.blocks[n]? = some a)
    (hr : n < rounds) :
    walkContexts k s pid fuel rounds a =
      findInContexts s.tasks pid fuel (s.contexts.take (n + 1)).reverse := by
  induction n generalizing rounds a with
  | zero =>
    obtain ⟨m, rfl⟩ : ∃ m, rounds = m + 1 := ⟨rounds - 1, by omega⟩
    have hstop : (if k.previous a ≠ 0 ∧ k.previous a ≠ k.lastContext then
        walkContexts k s pid fuel m (k.previous a) else some none) =
          findInContexts s.tasks pid fuel [] := if_neg fun h => h.1 (hk.first a ha)
    obtain ⟨context, hc, heq⟩ := walkContexts_round hk hhead ha hstop
    rw [heq, List.take_add_one, hc]
    rfl
  | succ n ih =>
    obtain ⟨m, rfl⟩ : ∃ m, rounds = m + 1 := ⟨rounds - 1, by omega⟩
    obtain ⟨hn, -⟩ := List.getElem?_eq_some_iff.mp ha
    obtain ⟨b, hb⟩ : ∃ b, k.blocks[n]? = some b := ⟨_, List.getElem?_eq_getElem (by omega)⟩
    have hprev : k.previous a = b := hk.linked n b a hb ha
    have hb0 : b ≠ 0 := fun h0 => hk.nonnull (h0 ▸ List.mem_of_getElem? hb)
    -- a block before the last one is not the last one
    have hblast : b ≠ k.lastContext := by
      rw [hk.last, List.getLast?_eq_getElem?]
      intro he
      obtain ⟨hbn, rfl⟩ := List.getElem?_eq_some_iff.mp hb
      rw [List.getElem?_eq_getElem (by omega), Option.getD_some] at he
      have := (hk.nodup.getElem_inj_iff).mp he
      omega
    have hnext : (if k.previous a ≠ 0 ∧ k.previous a ≠ k.lastContext then
        walkContexts k s pid fuel m (k.previous a) else some none) =
          findInContexts s.tasks pid fuel (s.contexts.take (n + 1)).reverse := by
      rw [hprev, if_pos ⟨hb0, hblast⟩]
      exact ih hb (by omega)
    obtain ⟨context, hc, heq⟩ := walkContexts_round hk hhead ha hnext
    have htake : s.contexts.take (n + 1 + 1) = s.contexts.take (n + 1) ++ [context] := by
      rw [List.take_add_one, hc]
      rfl
    rw [heq, htake, List.reverse_append]
    rfl

/-- The search along the links is the one through the list of contexts. -/
theorem getPidWalk_eq (hk : ChainInv k s.contexts.length)
    (hhead : ∀ c q, s.queue c = some q → q.head ≠ 0) (hc : s.contexts ≠ [])
    (hf : s.contexts.length ≤ fuel) : getPidWalk fuel pid k s = getPid fuel pid s := by
  have hpos : 0 < s.contexts.length := List.length_pos_iff.mpr hc
  have hlast : k.blocks[s.contexts.length - 1]? = some k.lastContext := by
    have hlt : s.contexts.length - 1 < k.blocks.length := by
      rw [hk.length]
      omega
    rw [hk.last, List.getLast?_eq_getElem?, hk.length, List.getElem?_eq_getElem hlt]
    rfl
  unfold getPidWalk getPid
  by_cases hp : pid = 0
  · rw [if_pos hp, if_pos hp]
  · rw [if_neg hp, if_neg hp, walkContexts_eq hk hhead hlast (by omega)]
    rw [Nat.sub_add_cancel hpos, List.take_length]

/-! ## Runs -/

/-- The task that an event brings into being. -/
def FamilyEvent.made : FamilyEvent → Option Nat
  | .sched e => e.made
  | .fork _ child => some child
  | .waitpid _ _ _ => none

/-- The event installs a context. -/
def FamilyEvent.installs : FamilyEvent → Bool
  | .sched (.install _ _ _) => true
  | _ => false

/-- The runs of `familyLTS`, with the chain of contexts. A block that the heap hands out is
none of those in use. -/
def lookupLTS (P : PageSource σ) (image : Image) : LTS (Scheduler σ × Links) FamilyEvent where
  init x := (familyLTS P image).init x.1 ∧ x.2.blocks = [] ∧ x.2.lastContext = 0
  step x e y := (familyLTS P image).step x.1 e y.1 ∧
    if e.installs then ∃ new, new ≠ 0 ∧ new ∉ x.2.blocks ∧ y.2 = linkContext new x.2
    else y.2 = x.2

theorem push_contexts {c : Nat} (h : push c t s = some s') :
    s'.contexts.length = s.contexts.length := by
  unfold push at h
  simp only [Option.bind_eq_bind, Option.bind_eq_some_iff] at h
  obtain ⟨q, -, he⟩ := h
  cases he
  exact List.length_modify ..

theorem pop_contexts {c : Nat} (h : pop c s = some (t, s')) :
    s'.contexts.length = s.contexts.length := by
  unfold pop at h
  simp only [Option.bind_eq_bind, Option.bind_eq_some_iff] at h
  obtain ⟨q, -, ⟨t', tasks', q'⟩, -, he⟩ := h
  cases he
  exact List.length_modify ..

theorem create_contexts {own c : Nat} {name : String} {simd : SimdState}
    (h : create P own name simd s = some (c, t, s')) :
    s'.contexts.length = s.contexts.length := by
  unfold create at h
  simp only [Option.bind_eq_bind, Option.bind_eq_some_iff, Option.ite_none_left_eq_some] at h
  obtain ⟨_, -, _, -, -, _, -, s₂, hpush, he⟩ := h
  cases he
  exact (push_contexts hpush).trans rfl

theorem install_contexts {cpuId : Nat} {simd : SimdState}
    (h : installContext P image cpuId simd s = some (t, s')) :
    s'.contexts.length = s.contexts.length + 1 := by
  unfold installContext at h
  simp only [Option.bind_eq_bind, Option.bind_eq_some_iff] at h
  obtain ⟨_, -, _, -, s₂, hpush, he⟩ := h
  cases he
  exact (push_contexts hpush).trans (List.length_append ..)

/-- What a call of `waitpid` does to the scheduler before it sleeps. -/
theorem sysWaitpid_state {caller statLoc : Nat} {pid : Int} {m : Machine σ}
    {answer : Except Int (Int × StatusStore)}
    (h : sysWaitpid P fuel some caller pid statLoc m s = some (answer, s')) :
    s' = s ∨ ∃ t, s' = markWaited t s := by
  unfold sysWaitpid at h
  simp only [Option.bind_eq_bind, Option.bind_eq_some_iff] at h
  obtain ⟨refered, -, h⟩ := h
  cases refered with
  | none =>
    cases h
    exact .inl rfl
  | some task =>
    simp only at h
    split at h
    · cases h
      exact .inl rfl
    · split at h
      · cases h
        exact .inl rfl
      · simp only [Option.bind_eq_some_iff] at h
        obtain ⟨isChild, -, h⟩ := h
        split at h
        · cases h
          exact .inl rfl
        · simp only [Option.bind_some, Option.pure_def, Option.some.injEq, Prod.mk.injEq] at h
          exact .inr ⟨task, h.2.symm⟩

theorem Still.linked_none (h : Still s s') (t : Nat) :
    s'.Linked t ↔ none = some t ∨ s.Linked t := by
  simp [h.linked]

theorem Born.linked_some (h : Born s s' new) (t : Nat) :
    s'.Linked t ↔ some new = some t ∨ s.Linked t := by
  simp [h.linked, eq_comm]

theorem sched_linked {e : Event} (h : Represents P s L) (hst : Effect P image s e s') :
    s'.contexts.length = s.contexts.length + (FamilyEvent.sched e).installs.toNat ∧
      ∀ t, s'.Linked t ↔ e.made = some t ∨ s.Linked t := by
  -- writes to one task's data
  have hmodify : ∀ (t : Nat) (f : Task → Task),
      (∀ task, (f task).next = task.next ∧ (f task).parentQueue = task.parentQueue) →
      (∀ task, Kin task (f task)) → (s.modify t f).contexts.length = s.contexts.length + 0 ∧
        ∀ u, (s.modify t f).Linked u ↔ none = some u ∨ s.Linked u :=
    fun t f hf hk => ⟨rfl, (modify_still h hf hk).linked_none⟩
  cases hst with
  | install hs => exact ⟨install_contexts hs, (install_idle h hs).toBorn.linked_some⟩
  | create hs => exact ⟨create_contexts hs, (create_numbered h hs).toBorn.linked_some⟩
  | fill _ => exact hmodify _ _ (fun _ => ⟨rfl, rfl⟩) fun _ => ⟨rfl, rfl, id⟩
  | start _ => exact hmodify _ _ (fun _ => ⟨rfl, rfl⟩) fun _ => ⟨rfl, rfl, id⟩
  | exit _ => exact hmodify _ _ (fun _ => ⟨rfl, rfl⟩) fun _ => ⟨rfl, rfl, id⟩
  | interrupt _ => exact hmodify _ _ (fun _ => ⟨rfl, rfl⟩) fun _ => ⟨rfl, rfl, id⟩
  | enable hp => exact ⟨pop_contexts hp, (pop_still h hp).linked_none⟩
  | skip hp _ => exact ⟨pop_contexts hp, (pop_still h hp).linked_none⟩
  | resume hp _ => exact ⟨pop_contexts hp, (pop_still h hp).linked_none⟩
  | memory _ => exact ⟨rfl, fun t => by simp [Event.made]; rfl⟩

/-- What a step does to the number of contexts and to the tasks in the queues. -/
theorem family_linked {e : FamilyEvent} (h : Represents P s L)
    (hst : (familyLTS P image).step s e s') :
    s'.contexts.length = s.contexts.length + e.installs.toNat ∧
      ∀ t, s'.Linked t ↔ e.made = some t ∨ s.Linked t := by
  cases e with
  | sched e => exact sched_linked h (step_effect hst)
  | fork parent child =>
    obtain ⟨hparent, own, simd, hfork⟩ := hst
    refine ⟨?_, (fork_numbered h hparent.1 hfork).2.toBorn.linked_some⟩
    simp only [forkChild, Option.bind_eq_bind, Option.bind_eq_some_iff, Prod.exists,
      Option.pure_def, Option.some.injEq, Prod.mk.injEq] at hfork
    obtain ⟨c, t, s₁, hcreate, -, rfl⟩ := hfork
    exact (create_contexts hcreate :)
  | waitpid caller pid accepted =>
    obtain ⟨-, -, -, fuel, statLoc, m, answer, -, -, hcall⟩ := hst
    rcases sysWaitpid_state hcall with rfl | ⟨t, rfl⟩
    · exact ⟨rfl, fun t => by simp [FamilyEvent.made]⟩
    · exact ⟨rfl, (markWaited_still h t).linked_none⟩

/-- What holds after a run: the tasks in the queues are those that were made. -/
structure LookupInv (P : PageSource σ) (es : List FamilyEvent) (x : Scheduler σ × Links) :
    Prop where
  family : FamilyInv P es x.1
  chain : ChainInv x.2 x.1.contexts.length
  made : ∀ t, x.1.Linked t ↔ t ∈ es.filterMap FamilyEvent.made

theorem lookup_inv {x₀ x : Scheduler σ × Links} {es : List FamilyEvent}
    (h₀ : (lookupLTS P image).init x₀) (hr : (lookupLTS P image).Run x₀ es x) :
    LookupInv P es x := by
  refine hr.history (I := LookupInv P) ?_ fun es x e y hi hst => ?_
  · obtain ⟨hs, hb, hlast⟩ := h₀
    have hcontexts : x₀.1.contexts = [] := hs
    have hsched : (schedulerLTS P image).init x₀.1 := hs
    refine ⟨FamilyInv.init hsched, ?_, fun t => ?_⟩
    · rw [hcontexts]
      refine ⟨by rw [hb]; rfl, by rw [hb]; exact List.nodup_nil, by simp [hb],
        by rw [hlast, hb]; rfl, by simp [hb], by simp [hb]⟩
    · refine ⟨fun ⟨c, q, hq, _⟩ => ?_, nofun⟩
      simp [Scheduler.queue, hcontexts] at hq
  · obtain ⟨hst, hlinks⟩ := hst
    obtain ⟨⟨L, h⟩, -⟩ := hi.family
    obtain ⟨hlen, hmade⟩ := family_linked h hst
    refine ⟨FamilyInv.step hi.family hst, ?_, fun t => ?_⟩
    · rw [hlen]
      cases hinst : e.installs with
      | true =>
        rw [hinst] at hlinks
        obtain ⟨new, h0, hnew, hlinks⟩ := hlinks
        rw [hlinks]
        exact hi.chain.install h0 hnew
      | false =>
        simp only [hinst, Bool.false_eq_true, if_false] at hlinks
        rw [hlinks]
        exact hi.chain
    · rw [hmade, hi.made, List.filterMap_append, List.mem_append, or_comm]
      simp [eq_comm]

/-- **Task lookup is complete and terminates.** After every run of installations, creations,
forks, calls and whatever the scheduler does to its queues: with enough fuel both loops end;
for a number other than 0 the answer is the one task with that number which was made on any
context, or null if there is none; for 0 it is null. -/
theorem get_pid_complete {x₀ : Scheduler σ × Links} {es : List FamilyEvent}
    (h₀ : (lookupLTS P image).init x₀) (hr : (lookupLTS P image).Run x₀ es (s, k))
    (hc : s.contexts ≠ []) :
    ∃ n, ∀ fuel, n ≤ fuel → getPidWalk fuel 0 k s = some none ∧
      ∀ pid, pid ≠ 0 → ∃ r, getPidWalk fuel pid k s = some r ∧
        ∀ t, r = some t ↔ t ∈ es.filterMap FamilyEvent.made ∧ (s.tasks t).id = pid := by
  have hi := lookup_inv h₀ hr
  obtain ⟨⟨L, h⟩, hfam, -⟩ := hi.family
  have hhead : ∀ c q, s.queue c = some q → q.head ≠ 0 := by
    intro c q hq h0
    have hmem := (h.holds c q hq).ring.head_mem
    have := (h.page c _ hmem).pos
    omega
  refine ⟨searchBound s + s.contexts.length, fun fuel hf => ⟨rfl, fun pid hp => ?_⟩⟩
  have hbound : searchBound s ≤ fuel := by omega
  have hcontexts : s.contexts.length ≤ fuel := by omega
  obtain ⟨r, hr, hsome, -⟩ := getPid_spec h hbound hp
  refine ⟨r, (getPidWalk_eq hi.chain hhead hc hcontexts).trans hr, fun t => ?_⟩
  rw [← hi.made t]
  constructor
  · exact hsome t
  · intro ⟨ht, hid⟩
    have hfind := getPid_linked h hfam hbound ht (hid ▸ hp)
    rw [hid, hr] at hfind
    exact Option.some.inj hfind

/-- The heap always has a block for one more context. -/
theorem lookup_run {es : List FamilyEvent} (hr : (familyLTS P image).Run s es s') (k : Links) :
    ∃ k', (lookupLTS P image).Run (s, k) es (s', k') := by
  induction hr generalizing k with
  | nil s => exact ⟨k, .nil _⟩
  | @cons s t u e es hst _ ih =>
    cases hinst : e.installs with
    | true =>
      have hnew : k.blocks.sum + 1 ∉ k.blocks := fun hmem => by
        have := List.le_sum_of_mem hmem
        omega
      obtain ⟨k', hr'⟩ := ih (linkContext (k.blocks.sum + 1) k)
      refine ⟨k', .cons ⟨hst, ?_⟩ hr'⟩
      rw [hinst]
      exact ⟨_, by omega, hnew, rfl⟩
    | false =>
      obtain ⟨k', hr'⟩ := ih k
      refine ⟨k', .cons ⟨hst, ?_⟩ hr'⟩
      rw [hinst]
      rfl

def noLinks : Links where
  blocks := []
  previous _ := 0
  next _ := 0
  lastContext := 0

/-- /init.elf and its child: the number of the child is 2. -/
theorem child_found : ∃ (init child : Nat) (s : Scheduler Nat) (k : Links) (fuel : Nat),
    initAndChild = some (init, child, s) ∧ getPidWalk fuel 2 k s = some (some child) := by
  have hsome : initAndChild.isSome = true := by decide +kernel
  obtain ⟨⟨init, child, s⟩, hs⟩ := Option.isSome_iff_exists.mp hsome
  obtain ⟨⟨es, hr⟩, -, hlinked, hid, -⟩ := initAndChild_run hs
  have h₀ : (lookupLTS bootSource bootImage).init (bootScheduler, noLinks) := ⟨rfl, rfl, rfl⟩
  obtain ⟨k, hr⟩ := lookup_run hr noLinks
  have hc : s.contexts ≠ [] := by
    obtain ⟨c, q, hq, -⟩ := hlinked
    obtain ⟨context, hmem, -⟩ := mem_of_queue hq
    exact List.ne_nil_of_mem hmem
  obtain ⟨n, hn⟩ := get_pid_complete h₀ hr hc
  obtain ⟨r, hfind, hiff⟩ := (hn n (Nat.le_refl n)).2 2 (by decide)
  have hmade := ((lookup_inv h₀ hr).made child).mp hlinked
  exact ⟨init, child, s, k, n, hs, hfind.trans (congrArg some ((hiff child).mpr ⟨hmade, hid⟩))⟩

end

end GaOS.L6.FileTable
