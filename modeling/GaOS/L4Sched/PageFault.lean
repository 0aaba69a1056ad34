import GaOS.L2Paging.MapRange
import GaOS.L4Sched.Creation

/-!
# The exception handler and the stack of a task

Model of `arch_isr_handler` (kernel/src/arch/x86_64/idt/idt.c:29-79). A page fault in user
mode below `virtual_stack_top` of the running task gets a fresh page, and the task goes
on; every other exception halts or panics. `none` is the panic of `page_allocate`, and a
fault in user mode without a task, where the handler reads through a null pointer.

`virtual_stack_top` is kept beside the scheduler (`Stacks`), since the queues never look at
it: a new task's page is zeroed, `elf_load_from` sets the field, and nothing else does.

`extends_iff` says when a page fault in user mode is handled, and `growStack_leaf` what that
does to the table of the task.
-/
namespace GaOS.L4.PageFault

open GaOS.L1 GaOS.L1.PageAllocator GaOS.L2.TableManager GaOS.L4.RoundRobin

/-! ## The handler -/

/-- What the handler reads of a task. -/
structure Running where
  id : Nat
  name : String
  /-- `state.cr3` -/
  cr3 : Nat
  virtualStackTop : Nat
  deriving DecidableEq

/-- The calls of `panic`, with what they print. -/
inductive Panic where
  /-- "null dereference at %x" -/
  | nullDereference (rip : Nat)
  /-- "page fault caused by %s page, on a %s in %s of %x at %x (%s pid %d)" -/
  | pageFault (page access mode : String) (cr2 rip : Nat) (name : String) (id : Nat)
  /-- "exception %x at %x" -/
  | exception (interruptNumber rip : Nat)
  deriving DecidableEq

inductive Outcome where
  | halted
  | panicked (message : Panic)
  /-- to where the interrupt came from -/
  | returned
  deriving DecidableEq

section
variable {σ : Type} (P : PageSource σ)

/-- A fresh page at the fault address.
mirrors kernel/src/arch/x86_64/idt/idt.c:49 -/
def growStack (m : Machine σ) (cr3 cr2 : Nat) : Option (Machine σ) := do
  let (page, m) ← m.pageAllocate P 1
  map P m (add64 cr3 P.hhdm) (cr2 &&& not64 0xFFF) (sub64 page P.hhdm)
    (TABLE_ENTRY_USER ||| TABLE_ENTRY_READ_WRITE)

/-- The message about a page fault that is not handled.
mirrors kernel/src/arch/x86_64/idt/idt.c:57-69 -/
def pageFaultPanic (task : Option Running) (state : CpuState) (cr2 : Nat) : Panic :=
  let error := state.error % 2 ^ 32
  if cr2 < 0x1000 then .nullDereference state.rip
  else
    .pageFault (if error &&& 1 ≠ 0 then "present" else "non-present")
      (if error &&& 0b10 ≠ 0 then "write" else "read")
      (if error &&& 0b100 ≠ 0 then "user-mode" else "kernel-mode") cr2 state.rip
      (if error &&& 0b100 ≠ 0 then (task.map Running.name).getD "kernel" else "kernel")
      (if error &&& 0b100 ≠ 0 then (task.map Running.id).getD 0 else 0)

/-- `task` is the answer of `arch_get_task_context`, `cr2` that of `arch_read_cr2`.
mirrors kernel/src/arch/x86_64/idt/idt.c:29-79 -/
def archIsrHandler (task : Option Running) (state : CpuState) (interruptNumber cr2 : Nat)
    (m : Machine σ) : Option (Outcome × Machine σ) := do
  if interruptNumber = 0x2 ∨ interruptNumber = 0x8 then return (.halted, m)
  else if interruptNumber < 0x20 then
    if interruptNumber = 0xE then
      if state.cs &&& 3 ≠ 0 then
        let running ← task
        if 0x1000 ≤ cr2 ∧ cr2 < running.virtualStackTop then
          let m ← growStack P m running.cr3 cr2
          return (.returned, m)
        else return (.panicked (pageFaultPanic task state cr2), m)
      else return (.panicked (pageFaultPanic task state cr2), m)
    else return (.panicked (.exception interruptNumber state.rip), m)
  else return (.returned, m)

end

/-! ## Where the top of the stack comes from -/

/-- The scheduler and `virtual_stack_top` of every task. -/
structure Stacks (σ : Type) where
  scheduler : Scheduler σ
  virtualStackTop : Nat → Nat

def Stacks.running {σ : Type} (s : Stacks σ) (t : Nat) : Running :=
  let task := s.scheduler.tasks t
  ⟨task.id, task.name, task.registers.cpu.cr3, s.virtualStackTop t⟩

section
variable {σ : Type} (P : PageSource σ)

/-- `elf_load_from` sets the field of the task it makes.
mirrors kernel/src/executables/elf.c:102-124 -/
def elfStack (own : Nat) (path : String) (pageTable entry stackBase : Nat) (simd : SimdState)
    (s : Stacks σ) : Option (Nat × Stacks σ) := do
  let (_, task, scheduler) ← elfTask P own path pageTable entry stackBase simd s.scheduler
  return (task, ⟨scheduler, Function.update s.virtualStackTop task (add64 stackBase PAGE)⟩)

/-- `sys_fork` leaves the field of the child as the new page has it.
mirrors kernel/src/syscalls/sys_fork.c:12-104 -/
def forkStack (own parent stackTop childTable : Nat) (state : CpuState)
    (simd childSimd : SimdState) (src : σ) (s : Stacks σ) : Option (Nat × Stacks σ) := do
  let (_, child, scheduler) ←
    forkTask P own parent stackTop childTable state simd childSimd src s.scheduler
  return (child, ⟨scheduler, Function.update s.virtualStackTop child 0⟩)

end

/-! ## A page fault in user mode -/

variable {σ : Type} {P : PageSource σ} {m m' : Machine σ} {task : Running} {state : CpuState}
  {cr2 : Nat}

/-- The handler goes on with the task. -/
def Extends (P : PageSource σ) (task : Running) (state : CpuState) (cr2 : Nat) (m m' : Machine σ) :
    Prop :=
  archIsrHandler P (some task) state 0xE cr2 m = some (.returned, m')

theorem archIsrHandler_user (hcs : state.cs &&& 3 ≠ 0) :
    archIsrHandler P (some task) state 0xE cr2 m =
      if 0x1000 ≤ cr2 ∧ cr2 < task.virtualStackTop then
        (growStack P m task.cr3 cr2).map fun m' => (.returned, m')
      else some (.panicked (pageFaultPanic (some task) state cr2), m) := by
  simp only [archIsrHandler, show ¬(0xE = 0x2 ∨ 0xE = 0x8) by decide, show 0xE < 0x20 by decide, hcs,
    if_true, if_false, ne_eq, not_false_eq_true, Option.bind_eq_bind, Option.bind_some,
    Option.pure_def, Option.map_eq_bind, Function.comp_def]

/-- It does so exactly in the range of the stack, and then it has mapped a page. -/
theorem extends_iff (hcs : state.cs &&& 3 ≠ 0) :
    Extends P task state cr2 m m' ↔ 0x1000 ≤ cr2 ∧ cr2 < task.virtualStackTop ∧
      growStack P m task.cr3 cr2 = some m' := by
  rw [Extends, archIsrHandler_user hcs]
  split
  · rename_i hin
    simp [hin.1, hin.2, Option.map_eq_some_iff]
  · rename_i hout
    simp only [Option.some.injEq, Prod.mk.injEq, reduceCtorEq, false_and, false_iff]
    exact fun h => hout ⟨h.1, h.2.1⟩

/-- The leaf of the fault address gets the page, and no other leaf changes. -/
theorem growStack_leaf {cr3 : Nat} (ht : Tree P 512 m (add64 cr3 P.hhdm))
    (h : growStack P m cr3 cr2 = some m') :
    (∃ page, leafEntry P.hhdm m'.mem (add64 cr3 P.hhdm) cr2 =
      setAddress (leafEntry P.hhdm m.mem (add64 cr3 P.hhdm) cr2 |||
        (TABLE_ENTRY_USER ||| TABLE_ENTRY_READ_WRITE ||| TABLE_ENTRY_PRESENT)) page) ∧
      ∀ v, vpn v ≠ vpn cr2 → leafEntry P.hhdm m'.mem (add64 cr3 P.hhdm) v =
        leafEntry P.hhdm m.mem (add64 cr3 P.hhdm) v := by
  simp only [growStack, Option.bind_eq_bind, Option.bind_eq_some_iff, Prod.exists] at h
  obtain ⟨page, m₁, ha, hm⟩ := h
  have hu := untouched_allocate ht (by decide) ha
  rw [map_congr (vpn_and_not cr2)] at hm
  obtain ⟨-, hself, hother⟩ := map_spec (hu.tree ht) (pml3Index_lt cr2) hm
  refine ⟨⟨sub64 page P.hhdm, ?_⟩, fun v hv => ?_⟩
  · rw [hself, hu.leafEntry (pml3Index_lt cr2)]
  · rw [hother v (pml3Index_lt v) hv, hu.leafEntry (pml3Index_lt v)]

end GaOS.L4.PageFault
