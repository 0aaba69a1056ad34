import GaOS.Bugs.KernelTask
import GaOS.L4Sched.PageFault

/-!
# The stack of a forked child does not grow

`arch_isr_handler` gives a task a new page of stack for a page fault below the task's
`virtual_stack_top` (kernel/src/arch/x86_64/idt/idt.c:46). `elf_load_from` sets the field
(kernel/src/executables/elf.c:117). `sys_fork` (kernel/src/syscalls/sys_fork.c:12-104)
copies the registers, the address space and the descriptors, but not this field, which
stays 0 in the child: there is no address below it, and the handler panics at the first
page of stack that the parent had not used before the fork.

`grows_alike_iff` is the exact condition: the handler treats both alike unless the fault is
one that it handles for the parent.

Counterexample: a task made by `elf_load_from` forks. A push on the page below the first one
goes on in the parent and brings down the kernel in the child.

Fix: `child->virtual_stack_top = parent->virtual_stack_top;` in `sys_fork`.
-/
namespace GaOS.Bugs.ForkStack

open GaOS.L1 GaOS.L1.PageAllocator GaOS.L2.TableManager GaOS.L4.RoundRobin GaOS.L4.PageFault

variable {σ : Type} {P : PageSource σ} {image : Image} {s s' : Stacks σ} {m : Machine σ}
  {own parent stackTop childTable child : Nat} {state : CpuState} {simd childSimd : SimdState}
  {src : σ}

/-- The parent and the child after a fork. -/
theorem forkStack_tops {L : Nat → List Nat} {d : Nat} (h : Represents P s.scheduler L)
    (hp : parent ∈ L d)
    (hf : forkStack P own parent stackTop childTable state simd childSimd src s =
      some (child, s')) :
    s'.virtualStackTop child = 0 ∧ s'.virtualStackTop parent = s.virtualStackTop parent := by
  simp only [forkStack, forkTask, Option.bind_eq_bind, Option.bind_eq_some_iff, Option.pure_def,
    Option.some.injEq, Prod.mk.injEq, Prod.exists] at hf
  obtain ⟨_, _, _, ⟨c, t, s₁, hc, -, rfl, -⟩, rfl, rfl⟩ := hf
  obtain ⟨-, stack, fds, hmade⟩ := create_spec h hc
  have hne : parent ≠ t := fun he => hmade.fresh d (he ▸ hp)
  simp [hne]

/-- **A child grows its stack like its parent iff the parent's would not grow.** For every
task in a queue that forks, and every page fault in user mode, with any error code: the
handler goes on with the child iff it goes on with the parent, exactly if the fault address
is not in the range of the parent's stack (or no page is left for the parent either). -/
theorem grows_alike_iff {d : Nat} {q : Queue} (hs : (schedulerLTS P image).Reachable s.scheduler)
    (hq : s.scheduler.queue d = some q) (hp : parent ∈ s.scheduler.queueTasks q)
    (hf : forkStack P own parent stackTop childTable state simd childSimd src s =
      some (child, s')) {fault : CpuState} (hcs : fault.cs &&& 3 ≠ 0) (cr2 : Nat) :
    ((∃ m', Extends P (s'.running child) fault cr2 m m') ↔
        ∃ m', Extends P (s'.running parent) fault cr2 m m') ↔
      ¬(0x1000 ≤ cr2 ∧ cr2 < s.virtualStackTop parent ∧
        (growStack P m (s'.running parent).cr3 cr2).isSome) := by
  obtain ⟨s₀, es, h₀, hrun⟩ := hs
  have h := run_represents h₀ hrun
  obtain ⟨hchild, hparent⟩ := forkStack_tops h (h.tasks_eq hq ▸ hp) hf
  have hnever : ¬∃ m', Extends P (s'.running child) fault cr2 m m' := by
    intro ⟨m', he⟩
    have hlt := ((extends_iff hcs).mp he).2.1
    simp only [Stacks.running, hchild] at hlt
    omega
  have hgrow : (∃ m', Extends P (s'.running parent) fault cr2 m m') ↔
      0x1000 ≤ cr2 ∧ cr2 < s.virtualStackTop parent ∧
        (growStack P m (s'.running parent).cr3 cr2).isSome := by
    simp only [extends_iff hcs, Option.isSome_iff_exists, exists_and_left]
    simp only [Stacks.running, hparent]
  rw [hgrow]
  simp [hnever]

/-! ## Inputs -/

/-- A task made by `elf_load_from` is in a queue. -/
theorem elfStack_queued {t pageTable entry stackBase : Nat} {path : String}
    (hs : (schedulerLTS P image).Reachable s.scheduler)
    (h : elfStack P own path pageTable entry stackBase simd s = some (t, s')) :
    (schedulerLTS P image).Reachable s'.scheduler ∧
      ∃ d q, s'.scheduler.queue d = some q ∧ t ∈ s'.scheduler.queueTasks q := by
  simp only [elfStack, Option.bind_eq_bind, Option.bind_eq_some_iff, Option.pure_def,
    Option.some.injEq, Prod.mk.injEq, Prod.exists] at h
  obtain ⟨c, t, s₁, hmake, rfl, rfl⟩ := h
  obtain ⟨s₀, es, h₀, hrun⟩ := hs
  obtain ⟨es', hr, hm, hexit⟩ := elfTask_makes image (run_represents h₀ hrun) hmake
  obtain ⟨L, hl, ht, hmode, hempty⟩ := hm.spec ⟨s₀, es, h₀, hrun⟩ hr hexit
  have hsched : Schedulable P image s₁ c t :=
    KernelTask.schedulable_of_runnable hl ht hmode (hempty.mpr nofun)
  exact ⟨⟨s₀, es ++ es', h₀, hrun.append hr⟩, c, hsched.queued⟩

/-- A table of pages that the scheduler has not been given. -/
def parentTable : Table Nat :=
  match archTableManagerNew bootSource ⟨fun _ => 0, 20⟩ with
  | some (root, machine) => ⟨root, machine⟩
  | none => ⟨0, ⟨fun _ => 0, 0⟩⟩

/-- A processor with its idle task and the task of `/init.elf`. -/
def initStack : Option (Nat × Stacks Nat) :=
  KernelTask.bootOne.bind fun (_, s) =>
    elfStack bootSource 0 "/init.elf" parentTable.root 0x400000 0x3FF000 (fun _ => 0)
      ⟨s, fun _ => 0⟩

theorem initStack_queued {t : Nat} {s : Stacks Nat} (h : initStack = some (t, s)) :
    (schedulerLTS bootSource bootImage).Reachable s.scheduler ∧
      ∃ d q, s.scheduler.queue d = some q ∧ t ∈ s.scheduler.queueTasks q := by
  simp only [initStack, Option.bind_eq_some_iff, Prod.exists] at h
  obtain ⟨es, s₀, hboot, h⟩ := h
  exact elfStack_queued (KernelTask.bootOne_reachable hboot).1 h

/-- A write in user mode to a page that is not there. -/
def pushFault : CpuState := { error := 6, rip := 0x400010, cs := 8 * 4 ||| 3 }

/-- The task of `/init.elf` forks. -/
def forkInit (parent : Nat) (s : Stacks Nat) : Option (Nat × Stacks Nat) :=
  forkStack bootSource 0 parent 0x3FFF00 0xFFFF800000080000 {} (fun _ => 0) (fun _ => 0) 40 s

/-- Above the stack the handler panics for both. -/
theorem alike_above_stack : ∃ parent s child s', initStack = some (parent, s) ∧
    forkInit parent s = some (child, s') ∧
    ((∃ m', Extends bootSource (s'.running child) pushFault 0x400000 parentTable.machine m') ↔
      ∃ m', Extends bootSource (s'.running parent) pushFault 0x400000 parentTable.machine m') := by
  have hrun : (initStack.bind fun (parent, s) => (forkInit parent s).map fun _ =>
      s.virtualStackTop parent) = some 0x400000 := by decide +kernel
  simp only [Option.bind_eq_some_iff, Option.map_eq_some_iff, Prod.exists] at hrun
  obtain ⟨parent, s, hinit, child, s', hfork, htop⟩ := hrun
  obtain ⟨hs, d, q, hq, hp⟩ := initStack_queued hinit
  refine ⟨parent, s, child, s', hinit, hfork,
    (grows_alike_iff hs hq hp hfork (by decide) 0x400000).mpr fun h => ?_⟩
  rw [htop] at h
  omega

/-- **Counterexample**: after the fork, a push on the second page of the stack goes on in the
parent, and is a panic in the child. -/
theorem child_panics : ∃ parent s child s', initStack = some (parent, s) ∧
    (schedulerLTS bootSource bootImage).Reachable s.scheduler ∧
    (∃ d q, s.scheduler.queue d = some q ∧ parent ∈ s.scheduler.queueTasks q) ∧
    forkInit parent s = some (child, s') ∧
    (∃ m', Extends bootSource (s'.running parent) pushFault 0x3FE800 parentTable.machine m') ∧
    (archIsrHandler bootSource (some (s'.running child)) pushFault 0xE 0x3FE800
      parentTable.machine).map Prod.fst = some (.panicked (.pageFault "non-present" "write"
        "user-mode" 0x3FE800 0x400010 "/init.elf" 2)) := by
  have hrun : (initStack.bind fun (parent, s) => (forkInit parent s).map fun (child, s') =>
      ((archIsrHandler bootSource (some (s'.running parent)) pushFault 0xE 0x3FE800
        parentTable.machine).map Prod.fst,
      (archIsrHandler bootSource (some (s'.running child)) pushFault 0xE 0x3FE800
        parentTable.machine).map Prod.fst)) =
      some (some .returned, some (.panicked (.pageFault "non-present" "write" "user-mode" 0x3FE800
        0x400010 "/init.elf" 2))) := by decide +kernel
  simp only [Option.bind_eq_some_iff, Option.map_eq_some_iff, Prod.exists, Prod.mk.injEq] at hrun
  obtain ⟨parent, s, hinit, child, s', hfork, ⟨outcome, m', hparent, rfl⟩, hchild⟩ := hrun
  obtain ⟨hs, hq⟩ := initStack_queued hinit
  refine ⟨parent, s, child, s', hinit, hs, hq, hfork, ⟨m', hparent⟩, ?_⟩
  simpa only [Option.map_eq_some_iff, Prod.exists] using hchild

end GaOS.Bugs.ForkStack
