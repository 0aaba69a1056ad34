import GaOS.L4Sched.Creation

/-!
# Kernel tasks never run

`task_scheduler_round_robin_create` marks a new task as empty, and
`task_scheduler_round_robin_reschedule` passes over tasks that are marked.
`elf_load_from` and `sys_fork` clear the mark when they have filled in the registers
(kernel/src/executables/elf.c:124, kernel/src/syscalls/sys_fork.c:103), and so does
`task_scheduler_round_robin_install_context` for the idle task;
`task_scheduler_round_robin_create_kernel`
(kernel/src/schedulers/task/round_robin/round_robin.c:284-300) does not. Its only
user is `io_queue_init`, so the I/O executor is in a queue and is never selected.

`schedulable_iff_started` is the exact condition.

Counterexample: boot one processor and create the I/O executor.

Fix: `new_task->empty = false;` before the return.
-/
namespace GaOS.Bugs.KernelTask

open GaOS.L1 GaOS.L4.RoundRobin

variable {σ : Type} {P : PageSource σ} {image : Image} {s s' : Scheduler σ} {L : Nat → List Nat}
  {c t : Nat} {m : Maker} {es : List Event}

/-- A runnable task in a queue is what the scheduler wants. -/
theorem schedulable_of_runnable (h : Represents P s L) (ht : t ∈ L c)
    (hmode : (s.tasks t).runMode = .running) (hempty : (s.tasks t).empty = false) :
    Schedulable P image s c t := by
  have hrun : (s.tasks t).Runnable := ⟨hempty, by rw [hmode]; nofun⟩
  refine ⟨?_, fun es s' hr hexit _ => ?_, fun q hq es s' hr hexit hpops => ?_⟩
  · cases hq : s.queue c with
    | none =>
      rw [h.absent c hq] at ht
      cases ht
    | some q => exact ⟨q, rfl, h.tasks_eq hq ▸ ht⟩
  · obtain ⟨hmode', hin, hout⟩ := run_flags h ht hr hexit
    refine ⟨?_, by rw [hmode', hmode]; nofun⟩
    by_cases hmem : Event.start t ∈ es
    · exact hin hmem
    · exact (hout hmem).trans hempty
  · obtain ⟨k, hk⟩ := List.mem_iff_getElem?.mp ht
    have hlt : k < q.count := by
      rw [(h.holds c q hq).count]
      exact (List.getElem?_eq_some_iff.mp hk).1
    rcases run_distance h hr hk hrun hexit with hle | ⟨es₁, e, es₂, he, hsel, hle, -⟩
    · omega
    · exact ⟨es₁, e, es₂, he, hsel, by omega⟩

/-- **Which creation paths give a task that runs.** From every reachable state, in
every run in which one of the three functions made `t` and has returned: `t` is
eligible until it exits, and is selected within one rotation of its queue, exactly
if it was not made by `task_scheduler_round_robin_create_kernel`. -/
theorem schedulable_iff_started (hs : (schedulerLTS P image).Reachable s)
    (hr : (schedulerLTS P image).Run s es s') (hm : Makes m c t es)
    (hexit : ∀ code, .exit t code ∉ es) :
    Schedulable P image s' c t ↔ m ≠ .kernel := by
  obtain ⟨L, h, ht, hmode, hempty⟩ := hm.spec hs hr hexit
  constructor
  · intro hsched
    have hrun := hsched.eligible [] s' (.nil s') nofun nofun
    exact hempty.mp hrun.1
  · intro hne
    exact schedulable_of_runnable h ht hmode (hempty.mpr hne)

/-- A processor with its idle task. -/
def bootOne : Option (List Event × Scheduler Nat) :=
  performAll bootSource bootImage bootScheduler [.install 0 fun _ => 0]

theorem bootOne_reachable {es : List Event} {s : Scheduler Nat} (h : bootOne = some (es, s)) :
    (schedulerLTS bootSource bootImage).Reachable s ∧ ∃ L, Represents bootSource s L := by
  have hrun := performAll_run bootSource bootImage h
  have hinit : (schedulerLTS bootSource bootImage).init bootScheduler := rfl
  exact ⟨⟨bootScheduler, es, hinit, hrun⟩, _, run_represents hinit hrun⟩

theorem schedulable_boot : ∃ s t es s', (schedulerLTS bootSource bootImage).Reachable s ∧
    (schedulerLTS bootSource bootImage).Run s es s' ∧ Makes .elf 0 t es ∧
    Schedulable bootSource bootImage s' 0 t := by
  have hrun : (bootOne.bind fun x => (elfTask bootSource 0 "/init.elf" 0xFFFF800000200000 0x400000
      0x3FF000 (fun _ => 0) x.2).map Prod.fst) = some 0 := by decide +kernel
  simp only [Option.bind_eq_some_iff, Option.map_eq_some_iff, Prod.exists] at hrun
  obtain ⟨es₀, s, hboot, c, t, s', hmake, hc⟩ := hrun
  cases hc
  obtain ⟨hs, L, hl⟩ := bootOne_reachable hboot
  obtain ⟨es, hr, hm, hexit⟩ := elfTask_makes bootImage hl hmake
  exact ⟨s, t, es, s', hs, hr, hm, (schedulable_iff_started hs hr hm hexit).mpr nofun⟩

/-! ## Counterexample -/

/-- As long as nobody clears the mark, no processor switches to the task. -/
theorem never_resumed (h : Represents P s L) (ht : t ∈ L c) (hempty : (s.tasks t).empty = true)
    (hr : (schedulerLTS P image).Run s es s') (hnone : ∀ e ∈ es, Event.build t e = none)
    (r : Registers) : .resume c t r ∉ es := by
  induction hr generalizing L with
  | nil => exact List.not_mem_nil
  | @cons s s₁ s' e es hst _ ih =>
    have hne : e ≠ .start t := by
      intro he
      have := hnone e List.mem_cons_self
      rw [he, Event.build_start] at this
      cases this
    have hempty₁ := ((step_task h ht hst).waiting hne).trans hempty
    rw [List.mem_cons, not_or]
    refine ⟨fun he => ?_, ih (step_represents h hst) (mem_queuesAfter ht e) hempty₁
      fun e' he' => hnone e' (List.mem_cons_of_mem _ he')⟩
    subst he
    cases step_effect hst with
    | resume _ hrun =>
      have := hrun.1
      rw [hempty₁] at this
      cases this

/-- **The I/O executor never runs.** Created on a processor that is up, as
`io_queue_init` does, it is not schedulable, and no processor ever switches to it
in any run in which nobody else builds it. -/
theorem io_executor_never_runs : ∃ s t s', (schedulerLTS bootSource bootImage).Reachable s ∧
    createKernel bootSource bootImage 0 "io executor" 0xFFFFFFFF80002000 (fun _ => 0) s =
      some (0, t, s') ∧
    ¬Schedulable bootSource bootImage s' 0 t ∧
    ∀ es s'', (schedulerLTS bootSource bootImage).Run s' es s'' →
      (∀ e ∈ es, Event.build t e = none) → ∀ r, .resume 0 t r ∉ es := by
  have hrun : (bootOne.bind fun x => (createKernel bootSource bootImage 0 "io executor"
      0xFFFFFFFF80002000 (fun _ => 0) x.2).map Prod.fst) = some 0 := by decide +kernel
  simp only [Option.bind_eq_some_iff, Option.map_eq_some_iff, Prod.exists] at hrun
  obtain ⟨es₀, s, hboot, c, t, s', hmake, hc⟩ := hrun
  cases hc
  obtain ⟨hreach, _, hl⟩ := bootOne_reachable hboot
  obtain ⟨es, hr, hm, hexit⟩ := createKernel_makes bootImage hl hmake
  obtain ⟨L, h, ht, -, hempty⟩ := hm.spec hreach hr hexit
  have hmarked : (s'.tasks t).empty = true :=
    Bool.not_eq_false _ ▸ fun he => hempty.mp he rfl
  refine ⟨s, t, s', hreach, hmake, fun hsched => ?_, fun es s'' hr hnone =>
    never_resumed h ht hmarked hr hnone⟩
  exact hempty.mp (hsched.eligible [] s' (.nil s') nofun nofun).1 rfl

end GaOS.Bugs.KernelTask
