import GaOS.L4Sched.Fairness

/-!
# Where tasks come from

Besides the idle tasks there are three ways to make a task:
`task_scheduler_round_robin_create_kernel`, `elf_load_from` and `sys_fork`. All
call `task_scheduler_round_robin_create`, which marks the new task as empty, fill
in its registers, and the last two then clear the mark; the selection loop passes
over a task that is marked.

The three functions are here as far as the scheduler is concerned: what they do to
memory in between is a change of the page source. Other processors work at the
same time, so what is proved is about runs: `Makes` says that the steps of a run
that build task `t` are those of one of the three functions, whatever else the run
does.
-/
namespace GaOS.L4.RoundRobin

open GaOS.L1 GaOS.L1.PageAllocator

/-! ## The three functions -/

section
variable {σ : Type} (P : PageSource σ) (image : Image)

/-- mirrors kernel/src/schedulers/task/round_robin/round_robin.c:284-300 -/
def createKernel (own : Nat) (name : String) (task : Nat) (simd : SimdState) (s : Scheduler σ) :
    Option (Nat × Nat × Scheduler σ) := do
  let (c, newTask, s) ← create P own name simd s
  let (stack, src) ← P.allocate s.src 1
  let old := (s.tasks newTask).registers
  let cpu := { old.cpu with
    cr3 := sub64 image.bootstrapPageTable P.hhdm
    rip := task
    rflags := 0x202
    rsp := add64 stack PAGE
    cs := 8 * 1
    ss := 8 * 2 }
  return (c, newTask, fill newTask { old with cpu := cpu } { s with src := src })

/-- The end of `elf_load_from`, with the table and the stack made before.
mirrors kernel/src/executables/elf.c:102-124 -/
def elfTask (own : Nat) (path : String) (pageTable entry stackBase : Nat) (simd : SimdState)
    (s : Scheduler σ) : Option (Nat × Nat × Scheduler σ) := do
  let (c, newTask, s) ← create P own path simd s
  let old := (s.tasks newTask).registers
  let cpu := { old.cpu with
    cr3 := sub64 pageTable P.hhdm
    rip := entry
    rflags := 0x202
    rsp := sub64 (add64 stackBase PAGE) 8
    cs := 8 * 4 ||| 3
    ss := 8 * 3 ||| 3 }
  return (c, newTask, start newTask (fill newTask { old with cpu := cpu } s))

/-- The child goes on after the system call, with 0 as its answer.
mirrors kernel/src/syscalls/sys_fork.c:24-35 -/
def forkState (stackTop : Nat) (state : CpuState) : CpuState :=
  { state with
    rsp := stackTop
    rip := state.rcx
    rflags := state.r11 ||| 0x200
    rax := 0
    rcx := 0
    r11 := 0
    cs := 8 * 4 ||| 3
    ss := 8 * 3 ||| 3 }

/-- `state` is the state at the system call's entry, `childTable` the table of the
new address space and `src` what its pages and the new descriptor table leave.
mirrors kernel/src/syscalls/sys_fork.c:17-35,86,103 -/
def forkTask (own parent stackTop childTable : Nat) (state : CpuState)
    (simd childSimd : SimdState) (src : σ) (s : Scheduler σ) :
    Option (Nat × Nat × Scheduler σ) := do
  let (c, child, s) ← create P own (s.tasks parent).name simd s
  let s := fill child ⟨forkState stackTop state, childSimd⟩ s
  let cpu := { forkState stackTop state with cr3 := sub64 childTable P.hhdm }
  return (c, child, start child (fill child ⟨cpu, childSimd⟩ { s with src := src }))

end

/-! ## The steps that build a task -/

inductive Build where
  | create
  | fill
  | start
  deriving DecidableEq

def Event.build (t : Nat) : Event → Option Build
  | .create _ task _ => if task = t then some .create else none
  | .fill task _ => if task = t then some .fill else none
  | .start task => if task = t then some .start else none
  | _ => none

inductive Maker where
  | kernel
  | elf
  | fork
  deriving DecidableEq

/-- A task made by `create_kernel` is never started. -/
def Maker.last : Maker → List Build
  | .kernel => []
  | .elf | .fork => [.start]

/-- In the run with these events, `m` made `t` for context `c` and has returned. -/
def Makes (m : Maker) (c t : Nat) (es : List Event) : Prop :=
  (∃ r, .create c t r ∈ es) ∧
    ∃ n, es.filterMap (Event.build t) = .create :: (List.replicate n .fill ++ m.last)

/-- From here on `t` is eligible and is selected within one rotation of the queue
of `c`, until it exits. Nobody builds it any more. -/
structure Schedulable {σ : Type} (P : PageSource σ) (image : Image) (s : Scheduler σ) (c t : Nat) :
    Prop where
  queued : ∃ q, s.queue c = some q ∧ t ∈ s.queueTasks q
  eligible : ∀ es s', (schedulerLTS P image).Run s es s' → (∀ code, .exit t code ∉ es) →
    (∀ e ∈ es, Event.build t e = none) → (s'.tasks t).Runnable
  selected : ∀ q, s.queue c = some q → ∀ es s', (schedulerLTS P image).Run s es s' →
    (∀ code, .exit t code ∉ es) → q.count ≤ (popsOn c es).length →
      ∃ es₁ e es₂, es = es₁ ++ e :: es₂ ∧ e.Selects c t ∧ (popsOn c es₁).length < q.count

variable {σ : Type} {P : PageSource σ} {s s' : Scheduler σ} {L : Nat → List Nat}
  {c t : Nat} {m : Maker} {es : List Event}

/-! ## The functions as runs -/

@[simp]
theorem Event.build_create (r : Registers) : Event.build t (.create c t r) = some .create :=
  if_pos rfl

@[simp]
theorem Event.build_fill (r : Registers) : Event.build t (.fill t r) = some .fill := if_pos rfl

@[simp]
theorem Event.build_start : Event.build t (.start t) = some .start := if_pos rfl

@[simp]
theorem Event.build_memory : Event.build t .memory = none := rfl

section
variable (image : Image)

/-- Taking pages is a step of the rest of the kernel. -/
theorem step_memory (h : Represents P s L) {src : σ}
    (hk : ∀ x, P.Free src x → P.Free s.src x) :
    (schedulerLTS P image).step s .memory { s with src := src } := by
  refine .inr ⟨rfl, src, rfl, fun x hx hfree => ?_⟩
  obtain ⟨d, q, hq, hm⟩ := hx
  rw [← h.tasks_eq hq] at hm
  exact (h.page d x hm).used (hk x hfree)

theorem step_fill (r : Registers) (he : (s.tasks t).empty = true) :
    (schedulerLTS P image).step s (.fill t r) (fill t r s) :=
  .inl ⟨.fill t r, if_pos he⟩

theorem step_start (he : (s.tasks t).empty = true) :
    (schedulerLTS P image).step s (.start t) (start t s) :=
  .inl ⟨.start t, if_pos he⟩

theorem empty_fill (r : Registers) : ((fill t r s).tasks t).empty = (s.tasks t).empty := by
  rw [fill, tasks_modify_self]

/-- What the three functions start with. -/
theorem create_step {own : Nat} {name : String} {simd : SimdState} (h : Represents P s L)
    (hs : create P own name simd s = some (c, t, s')) :
    (schedulerLTS P image).step s (.create c t (s'.tasks t).registers) s' ∧
      (s'.tasks t).empty = true := by
  refine ⟨.inl ⟨.create own name simd, by simp only [perform, hs]; rfl⟩, ?_⟩
  obtain ⟨-, stack, fds, hm⟩ := create_spec h hs
  exact empty_eq_of_unlinked hm.new

theorem createKernel_makes {own entry : Nat} {name : String} {simd : SimdState}
    (h : Represents P s L) (hs : createKernel P image own name entry simd s = some (c, t, s')) :
    ∃ es, (schedulerLTS P image).Run s es s' ∧ Makes .kernel c t es ∧ ∀ code, .exit t code ∉ es := by
  simp only [createKernel, Option.bind_eq_bind, Option.bind_eq_some_iff, Prod.exists] at hs
  obtain ⟨_, _, s₁, hc, stack, src, ha, he⟩ := hs
  cases he
  obtain ⟨h₁, hempty⟩ := create_step image h hc
  have h₂ := step_memory image (step_represents h h₁) (allocate_taskPage ha).2.2
  refine ⟨_, .cons h₁ (.cons h₂ (.cons (step_fill image _ hempty) (.nil _))),
    ⟨⟨_, List.mem_cons_self⟩, 1, ?_⟩, fun code => ?_⟩
  · simp [List.filterMap_cons, Maker.last]
  · simp

theorem elfTask_makes {own pageTable entry stackBase : Nat} {path : String} {simd : SimdState}
    (h : Represents P s L)
    (hs : elfTask P own path pageTable entry stackBase simd s = some (c, t, s')) :
    ∃ es, (schedulerLTS P image).Run s es s' ∧ Makes .elf c t es ∧ ∀ code, .exit t code ∉ es := by
  simp only [elfTask, Option.bind_eq_bind, Option.bind_eq_some_iff, Prod.exists] at hs
  obtain ⟨_, _, s₁, hc, he⟩ := hs
  cases he
  obtain ⟨h₁, hempty⟩ := create_step image h hc
  refine ⟨_, .cons h₁ (.cons (step_fill image _ hempty) (.cons (step_start image ?_) (.nil _))),
    ⟨⟨_, List.mem_cons_self⟩, 1, ?_⟩, fun code => ?_⟩
  · rw [empty_fill, hempty]
  · simp [Maker.last]
  · simp

/-- `hk`: copying the parent only takes pages. -/
theorem forkTask_makes {own parent stackTop childTable : Nat} {state : CpuState}
    {simd childSimd : SimdState} {src : σ} (h : Represents P s L)
    (hs : forkTask P own parent stackTop childTable state simd childSimd src s = some (c, t, s'))
    (hk : ∀ r, create P own (s.tasks parent).name simd s = some r →
      ∀ x, P.Free src x → P.Free r.2.2.src x) :
    ∃ es, (schedulerLTS P image).Run s es s' ∧ Makes .fork c t es ∧ ∀ code, .exit t code ∉ es := by
  simp only [forkTask, Option.bind_eq_bind, Option.bind_eq_some_iff, Prod.exists] at hs
  obtain ⟨_, _, s₁, hc, he⟩ := hs
  have hk₁ := hk _ hc
  cases he
  obtain ⟨h₁, hempty⟩ := create_step image h hc
  have h₂ := step_fill (P := P) image ⟨forkState stackTop state, childSimd⟩ hempty
  have h₃ := step_memory image (step_represents (step_represents h h₁) h₂) hk₁
  refine ⟨_, .cons h₁ (.cons h₂ (.cons h₃ (.cons (step_fill image _ ?_)
    (.cons (step_start image ?_) (.nil _))))), ⟨⟨_, List.mem_cons_self⟩, 2, ?_⟩, fun code => ?_⟩
  · exact (empty_fill _).trans hempty
  · exact (empty_fill _).trans ((empty_fill _).trans hempty)
  · simp [List.filterMap_cons, Maker.last, List.replicate]
  · simp

end

/-! ## What becomes of the task -/

variable {image : Image}

/-- The mark is cleared by `start`, and a task runs on until it exits. -/
theorem run_flags (h : Represents P s L) (ht : t ∈ L c) (hr : (schedulerLTS P image).Run s es s')
    (hexit : ∀ code, .exit t code ∉ es) :
    (s'.tasks t).runMode = (s.tasks t).runMode ∧
      (.start t ∈ es → (s'.tasks t).empty = false) ∧
      (.start t ∉ es → (s'.tasks t).empty = (s.tasks t).empty) := by
  induction hr generalizing L with
  | nil => exact ⟨rfl, nofun, fun _ => rfl⟩
  | @cons s s₁ s' e es hst _ ih =>
    have hstep := step_task h ht hst
    have hexit₁ : ∀ code, .exit t code ∉ es := fun code he => hexit code (List.mem_cons_of_mem _ he)
    obtain ⟨hmode, hin, hout⟩ := ih (step_represents h hst) (mem_queuesAfter ht e) hexit₁
    refine ⟨hmode.trans (hstep.runMode fun code he => ?_), fun hmem => ?_, fun hnot => ?_⟩
    · exact hexit code (he ▸ List.mem_cons_self)
    · by_cases hlater : Event.start t ∈ es
      · exact hin hlater
      · have he : e = .start t := ((List.mem_cons.mp hmem).resolve_right hlater).symm
        exact (hout hlater).trans (hstep.started he)
    · rw [List.mem_cons, not_or] at hnot
      obtain ⟨hne, hlater⟩ := hnot
      exact (hout hlater).trans (hstep.waiting (Ne.symm hne))

/-- The events of a maker, split at the creation. -/
theorem Makes.split (hm : Makes m c t es) : ∃ es₁ r es₂, es = es₁ ++ .create c t r :: es₂ ∧
    (.start t ∈ es₂ ↔ m ≠ .kernel) := by
  obtain ⟨⟨r, hmem⟩, n, hbuild⟩ := hm
  obtain ⟨es₁, es₂, rfl⟩ := List.append_of_mem hmem
  refine ⟨es₁, r, es₂, rfl, ?_⟩
  rw [List.filterMap_append, List.filterMap_cons_some (Event.build_create r)] at hbuild
  -- there is only one creation, so nothing was built before it
  have hlast : Build.create ∉ List.replicate n Build.fill ++ m.last := by
    cases m <;> simp [Maker.last, List.mem_replicate]
  have hrest : es₂.filterMap (Event.build t) = List.replicate n .fill ++ m.last := by
    cases hpre : es₁.filterMap (Event.build t) with
    | nil =>
      rw [hpre] at hbuild
      exact (List.cons.inj hbuild).2
    | cons b bs =>
      rw [hpre] at hbuild
      have htail := (List.cons.inj hbuild).2
      refine absurd ?_ hlast
      rw [← htail]
      exact List.mem_append_right _ List.mem_cons_self
  have hstart : .start t ∈ es₂ ↔ Build.start ∈ es₂.filterMap (Event.build t) := by
    rw [List.mem_filterMap]
    constructor
    · intro h; exact ⟨_, h, Event.build_start⟩
    · intro ⟨e, he, hb⟩
      cases e with
      | start a =>
        obtain ⟨rfl, -⟩ := Option.ite_none_right_eq_some.mp hb
        exact he
      | create d a r' => exact absurd (Option.ite_none_right_eq_some.mp hb).2 nofun
      | fill a r' => exact absurd (Option.ite_none_right_eq_some.mp hb).2 nofun
      | _ => cases hb
  rw [hstart, hrest]
  cases m <;> simp [Maker.last, List.mem_replicate]

/-- The task when its maker has returned. -/
theorem Makes.spec (hs : (schedulerLTS P image).Reachable s)
    (hr : (schedulerLTS P image).Run s es s') (hm : Makes m c t es)
    (hexit : ∀ code, .exit t code ∉ es) :
    ∃ L, Represents P s' L ∧ t ∈ L c ∧ (s'.tasks t).runMode = .running ∧
      ((s'.tasks t).empty = false ↔ m ≠ .kernel) := by
  obtain ⟨s₀, es₀, h₀, hr₀⟩ := hs
  obtain ⟨es₁, r, es₂, rfl, hstart⟩ := hm.split
  obtain ⟨s₁, hr₁, hr₂⟩ := hr.of_append
  cases hr₂ with
  | @cons _ s₂ _ _ _ hst hr₂ =>
    have h₁ := run_represents h₀ (hr₀.append hr₁)
    have h₂ := step_represents h₁ hst
    cases step_effect hst with
    | create hc =>
      obtain ⟨-, stack, fds, hmade⟩ := create_spec h₁ hc
      have ht : t ∈ queuesAfter (queues (es₀ ++ es₁)) (.create c t (s₂.tasks t).registers) c := by
        simp [queuesAfter]
      have hexit₂ : ∀ code, .exit t code ∉ es₂ := fun code he =>
        hexit code (List.mem_append_right _ (List.mem_cons_of_mem _ he))
      obtain ⟨hmode, hin, hout⟩ := run_flags h₂ ht hr₂ hexit₂
      have hempty : (s₂.tasks t).empty = true := empty_eq_of_unlinked hmade.new
      have hrunning : (s₂.tasks t).runMode = .running := runMode_eq_of_unlinked hmade.new
      have hend := run_represents h₀ (hr₀.append (hr₁.append (.cons hst hr₂)))
      refine ⟨_, hend, ?_, hmode.trans hrunning, ?_⟩
      · have hq : queues (es₀ ++ (es₁ ++ .create c t (s₂.tasks t).registers :: es₂)) =
            es₂.foldl queuesAfter
              (queuesAfter (queues (es₀ ++ es₁)) (.create c t (s₂.tasks t).registers)) := by
          simp only [queues, List.foldl_append, List.foldl_cons]
        rw [hq]
        exact mem_foldl_queuesAfter ht
      · rw [← hstart]
        by_cases hmem : Event.start t ∈ es₂
        · exact ⟨fun _ => hmem, fun _ => hin hmem⟩
        · rw [hout hmem, hempty]
          exact ⟨fun h => absurd h (by decide), fun h => absurd h hmem⟩

end GaOS.L4.RoundRobin
