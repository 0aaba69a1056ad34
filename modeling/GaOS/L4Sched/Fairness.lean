import GaOS.L4Sched.QueueInv

/-!
# The selection loop ends, and nobody starves

The loop of `task_scheduler_round_robin_reschedule` stops only at a task that it
may run. There always is one: the idle task of the context never leaves the
queue and never exits (`Staffed`). A task at distance `k` from the head comes
closer with every pop and is not moved by pushes, so it is reached after `k`
pops (`step_distance`), however the steps of other processors fall in between.
-/
namespace GaOS.L4.RoundRobin

open GaOS.L1

/-- The tasks that are popped off the queue of `c`, in order. -/
def popsOn (c : Nat) (es : List Event) : List Nat := es.filterMap (Event.popped c)

/-- The processor of context `c` is given to `t`. -/
def Event.Selects (c t : Nat) (e : Event) : Prop :=
  ∃ r, e = .resume c t r ∨ e = .enable c t r

variable {σ : Type} {P : PageSource σ} {image : Image} {s s' : Scheduler σ} {L : Nat → List Nat}
  {c t : Nat} {q : Queue} {e : Event} {es : List Event}

theorem step_exit {code : Int} (hid : (s.tasks t).id = 0)
    (hst : (schedulerLTS P image).step s e s') : e ≠ .exit t code := by
  intro he
  subst he
  cases step_effect hst with
  | exit h => exact h hid

/-! ## The idle task -/

/-- Every context has a task that can run and never exits. -/
def Staffed (s : Scheduler σ) (L : Nat → List Nat) : Prop :=
  ∀ c, L c ≠ [] → ∃ t ∈ L c, (s.tasks t).id = 0 ∧ (s.tasks t).Runnable

theorem idleTask_runnable (P : PageSource σ) (image : Image) (stack : Nat) (simd : SimdState) :
    (idleTask P image stack simd).id = 0 ∧ (idleTask P image stack simd).Runnable :=
  ⟨rfl, rfl, by simp [idleTask]⟩

theorem step_staffed (h : Represents P s L) (hi : Staffed s L)
    (hst : (schedulerLTS P image).step s e s') : Staffed s' (queuesAfter L e) := by
  intro c hc
  have hold : L c ≠ [] → ∃ t ∈ queuesAfter L e c, (s'.tasks t).id = 0 ∧ (s'.tasks t).Runnable := by
    intro hne
    obtain ⟨t, ht, hid, hrun⟩ := hi c hne
    have hstep := step_task h ht hst
    exact ⟨t, mem_queuesAfter ht e, hstep.id.trans hid,
      hstep.runnable hrun fun code => step_exit hid hst⟩
  rcases queuesAfter_cases L e c with ⟨-, he⟩ | ⟨-, t, r, rfl | rfl, -⟩ | ⟨t, -, he⟩
  · exact hold (he ▸ hc)
  · cases step_effect hst with
    | install hs =>
      obtain ⟨-, stack, hm⟩ := installContext_spec h hs
      have hidle := idleTask_runnable P image stack
      refine ⟨t, by simp [queuesAfter], ?_, ?_⟩
      · exact (id_eq_of_unlinked hm.new).trans (hidle _).1
      · exact runnable_of_unlinked hm.new (hidle _).2
  · cases step_effect hst with
    | create hs => exact hold (create_spec h hs).1
  · refine hold fun h0 => hc ?_
    rw [he, h0]; rfl

theorem run_staffed {s₀ : Scheduler σ} (h₀ : (schedulerLTS P image).init s₀)
    (hr : (schedulerLTS P image).Run s₀ es s) : Staffed s (queues es) := by
  have h : Represents P s (queues es) ∧ Staffed s (queues es) := by
    refine hr.history (I := fun es s => Represents P s (queues es) ∧ Staffed s (queues es)) ?_ ?_
    · exact ⟨represents_init h₀, fun c hc => absurd rfl hc⟩
    · intro es s e s' h hst
      rw [queues_append]
      exact ⟨step_represents h.1 hst, step_staffed h.1 h.2 hst⟩
  exact h.2

/-! ## The distance to the head -/

/-- A pop takes the first task, and selects it when it may run. -/
theorem step_popped (h : Represents P s L) (hst : (schedulerLTS P image).step s e s')
    (hp : e.popped c = some t) :
    (∃ m, L c = t :: m) ∧ ((s.tasks t).Runnable → e.Selects c t) := by
  cases step_effect hst with
  | @enable d u _ hpop =>
    obtain ⟨rfl, hu⟩ := Option.ite_none_right_eq_some.mp hp
    cases hu
    obtain ⟨m, hm⟩ := pop_spec h hpop
    exact ⟨⟨m, hm.first⟩, fun _ => ⟨_, .inr rfl⟩⟩
  | @skip d u _ hpop hrun =>
    obtain ⟨rfl, hu⟩ := Option.ite_none_right_eq_some.mp hp
    cases hu
    obtain ⟨m, hm⟩ := pop_spec h hpop
    exact ⟨⟨m, hm.first⟩, fun hr => absurd (runnable_of_unlinked (hm.same t) hr) hrun⟩
  | @resume d u _ hpop _ =>
    obtain ⟨rfl, hu⟩ := Option.ite_none_right_eq_some.mp hp
    cases hu
    obtain ⟨m, hm⟩ := pop_spec h hpop
    exact ⟨⟨m, hm.first⟩, fun _ => ⟨_, .inl rfl⟩⟩
  | _ => cases hp

/-- One step brings a runnable task closer to the head, selects it, or leaves it
where it is. -/
theorem step_distance {k : Nat} (h : Represents P s L)
    (hst : (schedulerLTS P image).step s e s') (hk : (L c)[k]? = some t)
    (hrun : (s.tasks t).Runnable) :
    (e.popped c = none ∧ (queuesAfter L e c)[k]? = some t) ∨ e.Selects c t ∨
      ∃ u j, e.popped c = some u ∧ u ≠ t ∧ k = j + 1 ∧ (queuesAfter L e c)[j]? = some t := by
  rcases queuesAfter_cases L e c with ⟨hp, he⟩ | ⟨hp, a, r, -, he⟩ | ⟨a, hp, he⟩
  · exact .inl ⟨hp, by rw [he, hk]⟩
  · refine .inl ⟨hp, ?_⟩
    obtain ⟨hlt, -⟩ := List.getElem?_eq_some_iff.mp hk
    rw [he, List.getElem?_append_left hlt, hk]
  · obtain ⟨⟨m, hm⟩, hsel⟩ := step_popped h hst hp
    rw [hm] at hk he
    cases k with
    | zero =>
      cases hk
      exact .inr (.inl (hsel hrun))
    | succ j =>
      rw [List.getElem?_cons_succ] at hk
      have hne : a ≠ t := by
        intro hat
        cases hq : s.queue c with
        | none => rw [h.absent c hq] at hm; cases hm
        | some q =>
          have hnd := (h.holds c q hq).ring.nodup
          rw [hm] at hnd
          exact (List.nodup_cons.mp hnd).1 (hat ▸ List.mem_of_getElem? hk)
      obtain ⟨hlt, -⟩ := List.getElem?_eq_some_iff.mp hk
      refine .inr (.inr ⟨a, j, hp, hne, rfl, ?_⟩)
      rw [he, List.tail_cons, List.getElem?_append_left hlt, hk]

/-- A runnable task at distance `k` is the one selected after at most `k` pops,
unless there were no more pops than that. -/
theorem run_distance {k : Nat} (h : Represents P s L) (hr : (schedulerLTS P image).Run s es s')
    (hk : (L c)[k]? = some t) (hrun : (s.tasks t).Runnable) (hexit : ∀ code, .exit t code ∉ es) :
    (popsOn c es).length ≤ k ∨ ∃ es₁ e es₂, es = es₁ ++ e :: es₂ ∧ e.Selects c t ∧
      (popsOn c es₁).length ≤ k ∧ t ∉ popsOn c es₁ := by
  induction hr generalizing L k with
  | nil => exact .inl (Nat.zero_le k)
  | @cons s s₁ s' e es hst _ ih =>
    have h₁ := step_represents h hst
    have hrun₁ : (s₁.tasks t).Runnable :=
      (step_task h (List.mem_of_getElem? hk) hst).runnable hrun fun code he =>
        hexit code (by simp [he])
    have hexit₁ : ∀ code, .exit t code ∉ es := fun code he => hexit code (by simp [he])
    rcases step_distance h hst hk hrun with ⟨hp, hk₁⟩ | hsel | ⟨u, j, hp, hne, rfl, hk₁⟩
    · have hpops : ∀ l, popsOn c (e :: l) = popsOn c l := fun l => List.filterMap_cons_none hp
      rcases ih h₁ hk₁ hrun₁ hexit₁ with hle | ⟨es₁, e', es₂, rfl, hsel, hle, hnot⟩
      · exact .inl (by rwa [hpops])
      · exact .inr ⟨e :: es₁, e', es₂, rfl, hsel, by rwa [hpops], by rwa [hpops]⟩
    · exact .inr ⟨[], e, es, rfl, hsel, Nat.zero_le _, by simp [popsOn]⟩
    · have hpops : ∀ l, popsOn c (e :: l) = u :: popsOn c l := fun l => List.filterMap_cons_some hp
      rcases ih h₁ hk₁ hrun₁ hexit₁ with hle | ⟨es₁, e', es₂, rfl, hsel, hle, hnot⟩
      · exact .inl (by rw [hpops, List.length_cons]; omega)
      · refine .inr ⟨e :: es₁, e', es₂, rfl, hsel, ?_, ?_⟩
        · rw [hpops, List.length_cons]; omega
        · rw [hpops, List.mem_cons, not_or]
          exact ⟨Ne.symm hne, hnot⟩

theorem run_exit {d : Nat} (h : Represents P s L) (hr : (schedulerLTS P image).Run s es s')
    (ht : t ∈ L d) (hid : (s.tasks t).id = 0) : ∀ code, .exit t code ∉ es := by
  induction hr generalizing L with
  | nil => simp
  | @cons s s₁ s' e es hst _ ih =>
    intro code hmem
    cases hmem with
    | head => exact step_exit hid hst rfl
    | tail _ hmem =>
      exact ih (step_represents h hst) (mem_queuesAfter ht e) ((step_task h ht hst).id.trans hid)
        code hmem

/-! ## The loop -/

theorem selectNext_runnable {n k : Nat} (h : Represents P s L) (hq : ∃ q, s.queue c = some q)
    (hk : (L c)[k]? = some t) (hrun : (s.tasks t).Runnable) (hn : k < n) :
    ∃ u s', selectNext n c s = some (u, s') ∧ (s'.tasks u).Runnable := by
  induction n generalizing s L k with
  | zero => cases hn
  | succ n ih =>
    obtain ⟨q, hq⟩ := hq
    obtain ⟨u, s₁, hpop⟩ := pop_isSome h hq
    rw [selectNext_succ hpop]
    by_cases hu : (s₁.tasks u).Runnable
    · exact ⟨u, s₁, if_pos hu, hu⟩
    · rw [if_neg hu]
      have hst : (schedulerLTS P ⟨0, 0⟩).step s (.skip c u) s₁ :=
        .inl ⟨.pop c, by simp [perform, hpop, hu]⟩
      obtain ⟨m, hm⟩ := pop_spec h hpop
      obtain ⟨q₁, hq₁, -⟩ := hm.current
      rcases step_distance h hst hk hrun with ⟨hp, -⟩ | ⟨r, hr | hr⟩ | ⟨v, j, -, -, rfl, hk₁⟩
      · simp [Event.popped] at hp
      · cases hr
      · cases hr
      · exact ih (step_represents h hst) ⟨q₁, hq₁⟩ hk₁ (runnable_of_unlinked (hm.same t) hrun)
          (by omega)

/-- The idle task of a context, with its distance from the head. -/
theorem idle_distance (h : Represents P s L) (hi : Staffed s L) (hq : s.queue c = some q) :
    ∃ k t, (L c)[k]? = some t ∧ k < q.count ∧ (s.tasks t).id = 0 ∧ (s.tasks t).Runnable := by
  have hh := h.holds c q hq
  obtain ⟨t, ht, hid, hrun⟩ := hi c (List.ne_nil_of_mem hh.current)
  obtain ⟨k, hk⟩ := List.mem_iff_getElem?.mp ht
  obtain ⟨hlt, -⟩ := List.getElem?_eq_some_iff.mp hk
  exact ⟨k, t, hk, by rwa [hh.count], hid, hrun⟩

theorem saveState_eq (hq : s.queue c = some q) (r : Registers) :
    saveState c r s = some (q.current, fill q.current r s) := by
  rw [saveState, hq]; rfl

/-- The handler as a whole: `count` pops are enough. -/
theorem reschedule_runnable (h : Represents P s L) (hi : Staffed s L) (hq : s.queue c = some q)
    (r : Registers) :
    ∃ t rs s', reschedule q.count c r s = some (t, rs, s') ∧ (s'.tasks t).Runnable := by
  have hst : (schedulerLTS P ⟨0, 0⟩).step s (.interrupt c q.current r) (fill q.current r s) :=
    .inl ⟨.interrupt c r, by simp [perform, saveState_eq hq]⟩
  have h₁ := step_represents h hst
  have hq₁ : (fill q.current r s).queue c = some q := hq
  obtain ⟨k, t, hk, hlt, -, hrun⟩ := idle_distance h₁ (step_staffed h hi hst) hq₁
  obtain ⟨u, s', hsel, hu⟩ := selectNext_runnable h₁ ⟨q, hq₁⟩ hk hrun hlt
  exact ⟨u, (s'.tasks u).registers, s', by simp [reschedule, saveState_eq hq, hsel], hu⟩

/-- **The selection loop ends and nobody starves.** On every context of every
reachable state: `reschedule` gets by with `count` pops and switches to a task
that may run; also when other processors work in between, there are fewer than
`count` pops before a task is selected; and a runnable task at distance `k` from
the head is selected after at most `k` pops of other tasks, whatever is pushed
and whoever else exits in the meantime. -/
theorem round_robin_fair (hs : (schedulerLTS P image).Reachable s) (hq : s.queue c = some q) :
    (∀ r, ∃ t rs s', reschedule q.count c r s = some (t, rs, s') ∧ (s'.tasks t).Runnable) ∧
    (∀ es s', (schedulerLTS P image).Run s es s' → (∀ e ∈ es, ∀ t, ¬e.Selects c t) →
      (popsOn c es).length < q.count) ∧
    ∀ k t, (s.queueTasks q)[k]? = some t → (s.tasks t).Runnable →
      ∀ es s', (schedulerLTS P image).Run s es s' → (∀ code, .exit t code ∉ es) →
        (popsOn c es).length ≤ k ∨ ∃ es₁ e es₂, es = es₁ ++ e :: es₂ ∧ e.Selects c t ∧
          (popsOn c es₁).length ≤ k ∧ t ∉ popsOn c es₁ := by
  obtain ⟨s₀, es₀, h₀, hr₀⟩ := hs
  have h := run_represents h₀ hr₀
  have hi := run_staffed h₀ hr₀
  refine ⟨reschedule_runnable h hi hq, fun es s' hr hnone => ?_,
    fun k t hk hrun es s' hr hexit => ?_⟩
  · obtain ⟨k, t, hk, hlt, hid, hrun⟩ := idle_distance h hi hq
    have hexit := run_exit h hr (List.mem_of_getElem? hk) hid
    rcases run_distance h hr hk hrun hexit with hle | ⟨es₁, e, es₂, rfl, hsel, -⟩
    · exact Nat.lt_of_le_of_lt hle hlt
    · exact absurd hsel (hnone e (by simp) t)
  · exact run_distance h hr (h.tasks_eq hq ▸ hk) hrun hexit

theorem round_robin_fair_boot : ∃ s q, (schedulerLTS bootSource bootImage).Reachable s ∧
    s.queue 0 = some q ∧ q.count = 2 ∧
      ∃ t rs s', reschedule 2 0 {} s = some (t, rs, s') ∧ (s'.tasks t).Runnable := by
  obtain ⟨es, s, hr, -, q, hq, hc⟩ := boot_run
  have hs : (schedulerLTS bootSource bootImage).Reachable s := ⟨bootScheduler, es, rfl, hr⟩
  exact ⟨s, q, hs, hq, hc, hc ▸ (round_robin_fair hs hq).1 {}⟩

end GaOS.L4.RoundRobin
