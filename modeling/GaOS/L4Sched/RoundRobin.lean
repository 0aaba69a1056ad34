import GaOS.Core.LTS
import GaOS.L1Memory.PageSource
import Mathlib.Logic.Function.Basic

/-!
# The round-robin task scheduler

Model of kernel/src/schedulers/task/round_robin/round_robin.c. Tasks are records
in pages of their own, found by address (`Scheduler.tasks`); a context is known
by its place in the chain that ends at `last_context`, so `parent_queue` is the
number of a context. `page_allocate` is a `PageSource`; the pages and the blocks
that the allocators hand out are zeroed, which is where the defaults of `Task`
and `Queue` come from.

A pop, a push and each of the operations around them is one step: the code holds
the queue's lock, or runs on the only processor that uses the data. `reschedule`
is the interrupt handler as the code has it; in the transition system its steps
(saving the state, one pop of the selection loop) are separate, so that pushes
and exits on other processors may come between them.

Left out: the locks, log lines, the one-shot timer, the context pointer of the
processor that `arch_install_task_context` sets, and the fields of a task that
none of these functions touches.
-/
namespace GaOS.L4.RoundRobin

open GaOS.L1 GaOS.L1.PageAllocator

/-! ## Data -/

/-- mirrors kernel/src/arch/x86_64/state/state.h:4-29 -/
structure CpuState where
  cr3 : Nat := 0
  rax : Nat := 0
  rbx : Nat := 0
  rcx : Nat := 0
  rdx : Nat := 0
  rsi : Nat := 0
  rdi : Nat := 0
  rbp : Nat := 0
  r8 : Nat := 0
  r9 : Nat := 0
  r10 : Nat := 0
  r11 : Nat := 0
  r12 : Nat := 0
  r13 : Nat := 0
  r14 : Nat := 0
  r15 : Nat := 0
  error : Nat := 0
  rip : Nat := 0
  cs : Nat := 0
  rflags : Nat := 0
  rsp : Nat := 0
  ss : Nat := 0
  deriving DecidableEq

/-- `uint8_t data[512]`, what `fxsave` writes. -/
abbrev SimdState := Fin 512 → UInt8

/-- All that a processor is given to go on with a task. -/
structure Registers where
  cpu : CpuState := {}
  simd : SimdState := fun _ => 0

/-- mirrors kernel/src/schedulers/task/round_robin/round_robin.h:6-7 -/
inductive RunMode where
  | running
  | zombie
  deriving DecidableEq

/-- mirrors kernel/src/schedulers/task/round_robin/round_robin.h:9-40 -/
structure Task where
  id : Nat := 0
  syscallStackTop : Nat := 0
  registers : Registers := {}
  name : String := ""
  nameLength : Nat := 0
  empty : Bool := false
  ppid : Nat := 0
  exitCode : Int := 0
  runMode : RunMode := .running
  isWaited : Bool := false
  fdCount : Nat := 0
  fdMax : Nat := 0
  fdTranslation : Nat := 0
  fdAllocatedPages : Nat := 0
  parentQueue : Option Nat := none
  next : Nat := 0

/-- mirrors kernel/src/schedulers/task/round_robin/round_robin.h:44-51 -/
structure Queue where
  current : Nat := 0
  head : Nat := 0
  last : Nat := 0
  count : Nat := 0
  deriving DecidableEq

/-- mirrors kernel/src/schedulers/task/round_robin/round_robin.h:55-63 -/
structure Context where
  cpuId : Nat
  running : Queue := {}

structure Scheduler (σ : Type) where
  tasks : Nat → Task
  /-- in the order of their installation: the last one is `last_context` -/
  contexts : List Context
  lastId : Nat
  src : σ

/-- Addresses in the kernel's image and tables that new tasks are given. -/
structure Image where
  bootstrapPageTable : Nat
  idleTask : Nat

def modify (tasks : Nat → Task) (t : Nat) (f : Task → Task) : Nat → Task :=
  Function.update tasks t (f (tasks t))

def setNext (tasks : Nat → Task) (t n : Nat) : Nat → Task :=
  modify tasks t fun task => { task with next := n }

section
variable {σ : Type}

/-! ## Queues -/

/-- `none` is the panic on a null head.
mirrors kernel/src/schedulers/task/round_robin/round_robin.c:44-66 -/
def popFromQueue (tasks : Nat → Task) (q : Queue) : Option (Nat × (Nat → Task) × Queue) :=
  let toPop := q.head
  if toPop = 0 then none
  else if q.count > 1 then
    let q := { q with head := (tasks q.head).next }
    let tasks := setNext tasks q.last toPop
    let q := { q with last := toPop }
    let tasks := setNext tasks toPop q.head
    some (toPop, tasks, { q with current := toPop })
  else some (toPop, tasks, q)

/-- mirrors kernel/src/schedulers/task/round_robin/round_robin.c:68-88 -/
def pushToQueue (queue task : Nat) (tasks : Nat → Task) (q : Queue) : (Nat → Task) × Queue :=
  let tasks := modify tasks task fun task => { task with parentQueue := some queue }
  let count := add64 q.count 1
  if q.count > 0 then (setNext tasks q.last task, { q with last := task, count := count })
  else (tasks, { current := task, head := task, last := task, count := count })

def Scheduler.queue (s : Scheduler σ) (c : Nat) : Option Queue :=
  s.contexts[c]?.map Context.running

def Scheduler.setQueue (s : Scheduler σ) (c : Nat) (q : Queue) : Scheduler σ :=
  { s with contexts := s.contexts.modify c fun context => { context with running := q } }

def pop (c : Nat) (s : Scheduler σ) : Option (Nat × Scheduler σ) := do
  let q ← s.queue c
  let (task, tasks, q) ← popFromQueue s.tasks q
  return (task, { s with tasks := tasks }.setQueue c q)

def push (c task : Nat) (s : Scheduler σ) : Option (Scheduler σ) := do
  let q ← s.queue c
  let (tasks, q) := pushToQueue c task s.tasks q
  return { s with tasks := tasks }.setQueue c q

/-! ## Making tasks -/

variable (P : PageSource σ) (image : Image)

/-- mirrors kernel/src/schedulers/task/round_robin/round_robin.c:175-193 -/
def idleTask (stack : Nat) (simd : SimdState) : Task where
  name := "idle"
  nameLength := 4
  empty := false
  registers := {
    cpu := {
      cr3 := sub64 image.bootstrapPageTable P.hhdm
      rip := image.idleTask
      rflags := 0x202
      rsp := add64 stack PAGE
      cs := 8 * 1
      ss := 8 * 2 }
    simd := simd }

/-- mirrors kernel/src/schedulers/task/round_robin/round_robin.c:153-198 -/
def installContext (cpuId : Nat) (simd : SimdState) (s : Scheduler σ) :
    Option (Nat × Scheduler σ) := do
  let (task, src) ← P.allocate s.src 1
  let (stack, src) ← P.allocate src 1
  let s ← push s.contexts.length task { s with
    tasks := Function.update s.tasks task (idleTask P image stack simd)
    contexts := s.contexts ++ [{ cpuId := cpuId }]
    src := src }
  return (task, s)

/-- `own` is the context of the processor that runs `create`.
mirrors kernel/src/schedulers/task/round_robin/round_robin.c:259-272 -/
def leastBusy (own : Nat) (contexts : List Context) : Nat :=
  (contexts.zipIdx.reverse.foldl
    (fun (min, free) (context, c) =>
      if context.running.count < min then (context.running.count, c) else (min, free))
    (2 ^ 64 - 1, own)).2

/-- mirrors kernel/src/schedulers/task/round_robin/round_robin.c:236-257,277 -/
def newTask (name : String) (id stack fds : Nat) (simd : SimdState) : Task where
  name := name
  nameLength := name.utf8ByteSize
  syscallStackTop := add64 stack PAGE
  empty := true
  id := id
  fdAllocatedPages := 1
  fdCount := 1
  fdTranslation := fds
  fdMax := PAGE / 8
  registers := { simd := simd }

/-- The context and the task. `last_id` is an `int`, and its overflow is
undefined.
mirrors kernel/src/schedulers/task/round_robin/round_robin.c:234-282 -/
def create (own : Nat) (name : String) (simd : SimdState) (s : Scheduler σ) :
    Option (Nat × Nat × Scheduler σ) := do
  let (task, src) ← P.allocate s.src 1
  let (stack, src) ← P.allocate src 1
  let id := s.lastId + 1
  if 2 ^ 31 ≤ id then none
  else
    let (fds, src) ← P.allocate src 1
    let free := leastBusy own s.contexts
    let s ← push free task { s with
      tasks := Function.update s.tasks task (newTask name id stack fds simd)
      lastId := id
      src := src }
    return (free, task, s)

/-! ## Scheduling -/

/-- Not passed over by the selection loop. -/
def Task.Runnable (task : Task) : Prop := task.empty = false ∧ task.runMode ≠ .zombie

instance (task : Task) : Decidable task.Runnable := inferInstanceAs (Decidable (_ ∧ _))

def Scheduler.modify (s : Scheduler σ) (t : Nat) (f : Task → Task) : Scheduler σ :=
  { s with tasks := RoundRobin.modify s.tasks t f }

/-- The task that the interrupted state is saved in.
mirrors kernel/src/schedulers/task/round_robin/round_robin.c:211-215 -/
def saveState (c : Nat) (r : Registers) (s : Scheduler σ) : Option (Nat × Scheduler σ) := do
  let q ← s.queue c
  return (q.current, s.modify q.current fun task => { task with registers := r })

/-- The selection loop with at most as many pops as the first argument.
mirrors kernel/src/schedulers/task/round_robin/round_robin.c:221-223 -/
def selectNext : Nat → Nat → Scheduler σ → Option (Nat × Scheduler σ)
  | 0, _, _ => none
  | n + 1, c, s => do
    let (task, s) ← pop c s
    if (s.tasks task).Runnable then return (task, s) else selectNext n c s

/-- The task that is switched to and what the processor is loaded with.
mirrors kernel/src/schedulers/task/round_robin/round_robin.c:206-232 -/
def reschedule (fuel c : Nat) (r : Registers) (s : Scheduler σ) :
    Option (Nat × Registers × Scheduler σ) := do
  let (_, s) ← saveState c r s
  let (task, s) ← selectNext fuel c s
  return (task, (s.tasks task).registers, s)

/-- mirrors kernel/src/schedulers/task/round_robin/round_robin.c:308-316 -/
def enable (c : Nat) (s : Scheduler σ) : Option (Nat × Registers × Scheduler σ) := do
  let (task, s) ← pop c s
  return (task, (s.tasks task).registers, s)

/-- mirrors kernel/src/syscalls/sys_exit.c:9-18 -/
def sysExit (caller : Nat) (code : Int) (s : Scheduler σ) : Scheduler σ :=
  s.modify caller fun task => { task with exitCode := code, runMode := .zombie }

/-- Whoever created an empty task sets its registers.
mirrors kernel/src/executables/elf.c:106-121 and kernel/src/syscalls/sys_fork.c:20-35 -/
def fill (task : Nat) (r : Registers) (s : Scheduler σ) : Scheduler σ :=
  s.modify task fun task => { task with registers := r }

/-- mirrors kernel/src/executables/elf.c:124 and kernel/src/syscalls/sys_fork.c:103 -/
def start (task : Nat) (s : Scheduler σ) : Scheduler σ :=
  s.modify task fun task => { task with empty := false }

/-! ## The transition system -/

/-- What the processors ask of the scheduler. -/
inductive Op where
  | install (cpuId : Nat) (simd : SimdState)
  | create (own : Nat) (name : String) (simd : SimdState)
  | fill (task : Nat) (r : Registers)
  | start (task : Nat)
  | exit (task : Nat) (code : Int)
  | enable (c : Nat)
  | interrupt (c : Nat) (r : Registers)
  | pop (c : Nat)

/-- What can be seen of a step: `c` is a context, `task` the task it is about and
`r` the registers it is given, or the processor is given. -/
inductive Event where
  | install (c task : Nat) (r : Registers)
  | create (c task : Nat) (r : Registers)
  | fill (task : Nat) (r : Registers)
  | start (task : Nat)
  | exit (task : Nat) (code : Int)
  | enable (c task : Nat) (r : Registers)
  /-- a timer interrupt: `r` is saved in `task` -/
  | interrupt (c task : Nat) (r : Registers)
  /-- the selection loop pops `task` and passes it over -/
  | skip (c task : Nat)
  /-- the selection loop pops `task` and switches to it -/
  | resume (c task : Nat) (r : Registers)
  /-- the rest of the kernel takes pages or gives them back -/
  | memory

/-- A task with number 0 is an idle task: those do not exit. -/
def perform (s : Scheduler σ) : Op → Option (Event × Scheduler σ)
  | .install cpuId simd => do
    let (task, s') ← installContext P image cpuId simd s
    return (.install s.contexts.length task (s'.tasks task).registers, s')
  | .create own name simd => do
    let (c, task, s') ← create P own name simd s
    return (.create c task (s'.tasks task).registers, s')
  | .fill task r => if (s.tasks task).empty then some (.fill task r, fill task r s) else none
  | .start task => if (s.tasks task).empty then some (.start task, start task s) else none
  | .exit task code =>
    if (s.tasks task).id ≠ 0 then some (.exit task code, sysExit task code s) else none
  | .enable c => do
    let (task, r, s') ← enable c s
    return (.enable c task r, s')
  | .interrupt c r => do
    let (task, s') ← saveState c r s
    return (.interrupt c task r, s')
  | .pop c => do
    let (task, s') ← pop c s
    if (s'.tasks task).Runnable then return (.resume c task (s'.tasks task).registers, s')
    else return (.skip c task, s')

def performAll : Scheduler σ → List Op → Option (List Event × Scheduler σ)
  | s, [] => some ([], s)
  | s, op :: ops => do
    let (e, s) ← perform P image s op
    let (es, s) ← performAll s ops
    return (e :: es, s)

/-- The tasks that a walk from the head along `next` meets. -/
def Scheduler.queueTasks (s : Scheduler σ) (q : Queue) : List Nat :=
  List.iterate (fun t => (s.tasks t).next) q.head q.count

def Scheduler.Linked (s : Scheduler σ) (t : Nat) : Prop :=
  ∃ c q, s.queue c = some q ∧ t ∈ s.queueTasks q

/-- Any number of processors in any order. Nobody gives back the page of a task. -/
def schedulerLTS : LTS (Scheduler σ) Event where
  init s := s.contexts = []
  step s e s' :=
    (∃ op, perform P image s op = some (e, s')) ∨
      (e = .memory ∧ ∃ src, s' = { s with src := src } ∧ ∀ t, s.Linked t → ¬P.Free src t)

theorem performAll_run {ops : List Op} {s s' : Scheduler σ} {es : List Event}
    (h : performAll P image s ops = some (es, s')) : (schedulerLTS P image).Run s es s' := by
  induction ops generalizing s es with
  | nil => cases h; exact .nil _
  | cons op ops ih =>
    simp only [performAll, Option.bind_eq_bind, Option.bind_eq_some_iff] at h
    obtain ⟨⟨e, s1⟩, h1, ⟨es', s2⟩, h2, he⟩ := h
    cases he
    exact .cons (.inl ⟨op, h1⟩) (ih h2)

end

end GaOS.L4.RoundRobin
