import GaOS.L4Sched.Context
import GaOS.L4Sched.Creation
import GaOS.L4Sched.Entry

/-!
# Into the kernel and back by a system call

Model of kernel/src/arch/x86_64/syscall/syscall.asm, with the values that
kernel/src/arch/x86_64/syscall/syscall.c gives to the processor. The entry keeps the stack
pointer of its caller in the record of the task and the other two words that `sysret`
needs on the task's own kernel stack, and the call of the handler puts the address
behind it below them; the exit looks up the record again, since the handler may have
left the other context in the GS base, and may have lost the processor to other tasks
that make system calls too.

`syscallLTS` is one processor with all its tasks. What saves and restores the registers
of a task that is preempted is in `GaOS.L4.Entry`; here they are a function of the task.
A handler is any code that keeps the words on the stack above its own, gets to its `ret`
with the stack pointer it was called with, and leaves the GS bases as the getters of
`GaOS.L4.Context` do.

The kind of a context is told by its first word, which for a task is its number: the
results are about tasks with numbers below 2^32 other than 0x55555555, the word of the
processor's own context (`Layout.id_ok`).
-/
namespace GaOS.L6.SyscallPath

open GaOS.L4 GaOS.L4.RoundRobin GaOS.L4.Entry
open GaOS.L4.Context hiding Cpu

/-! ## The code -/

structure Core where
  cpu : Entry.Cpu
  bases : Bases

/-- Where the code and the table are. -/
structure Addresses where
  /-- `syscall_handlers` -/
  table : Nat
  /-- `arch_sys_fork_entry` -/
  forkEntry : Nat
  /-- `sys_fork` -/
  sysFork : Nat
  /-- behind `call [r11 + rdi * 8]` -/
  handlerReturn : Nat
  /-- behind `call arch_sys_fork_entry` -/
  forkReturn : Nat
  /-- behind `call sys_fork` -/
  sysForkReturn : Nat

/-- What the call for a system call leaves on the stack. -/
def Addresses.back (A : Addresses) (number : Nat) : Nat :=
  if number = 4 then A.forkReturn else A.handlerReturn

/-- mirrors kernel/src/syscalls/syscalls.c:4 -/
def syscallCount : Nat := 9

/-- mirrors kernel/src/arch/x86_64/syscall/syscall.c:35 -/
def FMASK : Nat := 0xFFFFFFFD

/-- mirrors kernel/src/arch/x86_64/syscall/syscall.c:33 -/
def STAR : Nat := 0x0013000800000000

/-- What `sysret` keeps of the flags in `r11`. -/
def sysretFlags (r11 : Nat) : Nat := r11 &&& 0x3C7FD7 ||| 2

/-- The instruction, by the manual of the processor. -/
def syscall (entry : Nat) (s : CpuState) : CpuState :=
  { s with
    rcx := s.rip
    r11 := s.rflags
    rip := entry
    rflags := s.rflags &&& not64 FMASK
    cs := STAR / 2 ^ 32 % 2 ^ 16
    ss := STAR / 2 ^ 32 % 2 ^ 16 + 8 }

/-- The instruction, by the manual of the processor. -/
def sysret (s : CpuState) : CpuState :=
  { s with
    rip := s.rcx
    rflags := sysretFlags s.r11
    cs := STAR / 2 ^ 48 + 16 ||| 3
    ss := STAR / 2 ^ 48 + 8 ||| 3 }

/-- `call target` with the next instruction at `back`. -/
def call (target back : Nat) (c : Entry.Cpu) : Entry.Cpu :=
  let c := c.push back
  { c with state := { c.state with rip := target } }

def ret (c : Entry.Cpu) : Entry.Cpu :=
  { c.drop 1 with state := { (c.drop 1).state with rip := c.top } }

/-- `cmp eax, 0x55555555` and `swapgs` if it is equal; `eax` is the lower half of the word
behind the GS base.
mirrors kernel/src/arch/x86_64/syscall/syscall.asm:39-42 -/
def checkContext (c : Core) : Core :=
  if c.cpu.mem c.bases.gs % 2 ^ 32 = CONTEXT_TYPE_CPU then { c with bases := swapgs c.bases } else c

/-- `mov rax, gs:0x0` first; then the stacks are exchanged, and the flags and the address of
the caller pushed.
mirrors kernel/src/arch/x86_64/syscall/syscall.asm:39-51 -/
def enter (c : Core) : Core :=
  let rax := c.cpu.mem c.bases.gs
  let c := checkContext { c with cpu := { c.cpu with state := { c.cpu.state with rax := rax } } }
  let gs := c.bases.gs
  let mem := c.cpu.mem.store (add64 gs 0x10) c.cpu.state.rsp
  let cpu : Entry.Cpu := ⟨{ c.cpu.state with rsp := mem (add64 gs 0x8) }, mem⟩
  { c with cpu := (cpu.push cpu.state.r11).push cpu.state.rcx }

/-- mirrors kernel/src/arch/x86_64/syscall/syscall.asm:74-89 -/
def finish (c : Core) : Core :=
  let rcx := c.cpu.mem c.bases.gs
  let c := checkContext { c with cpu := { c.cpu with state := { c.cpu.state with rcx := rcx } } }
  let cpu := (c.cpu.popReg .rcx).popReg .r11
  let rsp := cpu.mem (add64 c.bases.gs 0x10)
  { c with cpu := { cpu with state := sysret { cpu.state with rsp := rsp } } }

/-- A handler returns, and the rest of the entry runs.
mirrors kernel/src/arch/x86_64/syscall/syscall.asm:57-58 and 72-89 -/
def handlerRet (c : Core) : Core := finish { c with cpu := ret c.cpu }

/-- mirrors kernel/src/arch/x86_64/syscall/syscall.asm:60-71 -/
def callHandler (A : Addresses) (c : Entry.Cpu) : Entry.Cpu :=
  call (c.mem (add64 A.table (c.state.rdi * 8))) A.handlerReturn
    { c with state := { c.state with
        rcx := c.state.r10
        r11 := A.table
        rflags := c.state.rflags ||| 0x200 } }

/-- Up to the first instruction of a handler or of `arch_sys_fork_entry`; a number out of
bounds goes back at once.
mirrors kernel/src/arch/x86_64/syscall/syscall.asm:32-71 -/
def syscallEntry (A : Addresses) (c : Core) : Core :=
  if c.cpu.state.rdi ≥ syscallCount then
    { c with cpu := { c.cpu with state := sysret c.cpu.state } }
  else
    let c := enter c
    if c.cpu.state.rdi = 4 then { c with cpu := call A.forkEntry A.forkReturn c.cpu }
    else { c with cpu := callHandler A c.cpu }

/-- Seven words of zero, and the registers; `sys_fork` is called with a pointer to them.
mirrors kernel/src/arch/x86_64/syscall/syscall.asm:10-27 -/
def forkEntry (A : Addresses) (c : Entry.Cpu) : Entry.Cpu :=
  let c := { c with state := { c.state with rax := 0 } }
  let c := pushRegs ((List.replicate 7 0).foldl Entry.Cpu.push c)
  call A.sysFork A.sysForkReturn { c with state := { c.state with rdi := c.state.rsp } }

/-- From the `ret` of `sys_fork` up to that of `arch_sys_fork_entry`.
mirrors kernel/src/arch/x86_64/syscall/syscall.asm:29 -/
def forkExit (c : Entry.Cpu) : Entry.Cpu := (ret c).drop 23

/-! ## A processor and its tasks -/

/-- The records of the tasks, their kernel stacks and the table of the handlers; no word
serves two of them. -/
structure Layout extends Addresses where
  /-- the context of the processor -/
  context : Nat
  tasks : Nat → Prop
  /-- `id` -/
  id : Nat → Nat
  /-- `syscall_stack_top` -/
  top : Nat → Nat
  context_ne : context ≠ 0
  table_lt : table + 8 * syscallCount < 2 ^ 64
  id_ok : ∀ t, tasks t → id t < 2 ^ 32 ∧ id t ≠ CONTEXT_TYPE_CPU
  bounds : ∀ t, tasks t → t ≠ 0 ∧ t + 16 < 2 ^ 64 ∧ 24 ≤ top t ∧ top t < 2 ^ 64

/-- The words of a task that the entry and the exit use. -/
def Layout.words (L : Layout) (t : Nat) : List Nat :=
  [t, t + 8, t + 16, L.top t - 8, L.top t - 16, L.top t - 24]

structure Layout.Apart (L : Layout) : Prop where
  nodup : ∀ t, L.tasks t → (L.words t).Nodup
  disjoint : ∀ t u, L.tasks t → L.tasks u → t ≠ u → ∀ x ∈ L.words t, x ∉ L.words u
  context : ∀ t, L.tasks t → L.context ∉ L.words t
  table : ∀ t, L.tasks t → ∀ i < syscallCount, L.table + 8 * i ∉ L.words t

structure State where
  core : Core
  current : Nat
  /-- the registers of the tasks that do not run -/
  saved : Nat → CpuState
  /-- for a task in a system call, its registers at that instruction -/
  calls : Nat → Option CpuState

/-- The words that the kernel leaves alone: those of the tasks in a system call, the
numbers and stacks of the others, and the kind of the context. -/
def State.Keeps (L : Layout) (s : State) (mem : Mem) : Prop :=
  mem L.context = s.core.cpu.mem L.context ∧
  ∀ t, L.tasks t → mem t = s.core.cpu.mem t ∧ mem (t + 8) = s.core.cpu.mem (t + 8) ∧
    ((s.calls t).isSome → ∀ x ∈ L.words t, mem x = s.core.cpu.mem x)

inductive Label where
  /-- a task outside of a system call gets to these registers -/
  | user (r : CpuState)
  | syscall
  /-- a handler gets to these registers -/
  | kernel (r : CpuState)
  /-- the timer, and the task that is next -/
  | preempt (t : Nat)
  /-- the `ret` of the handler -/
  | finish

/-- The getters leave the bases as they are, or swapped. -/
def SameBases (r r' : Bases) : Prop := r' = r ∨ r' = swapgs r

/-- At the `syscall` instruction. -/
def State.call (A : Addresses) (entry : Nat) (s : State) : State :=
  let r := s.core.cpu.state
  { s with
    core := syscallEntry A { s.core with cpu := { s.core.cpu with state := syscall entry r } }
    calls := if r.rdi < syscallCount then Function.update s.calls s.current (some r) else s.calls }

def syscallLTS (L : Layout) (entry : Nat) : LTS State Label where
  init s := L.tasks s.current ∧ (∀ t, s.calls t = none) ∧
    s.core.cpu.mem L.context = CONTEXT_TYPE_CPU ∧
    (∀ t, L.tasks t → s.core.cpu.mem t = L.id t ∧ s.core.cpu.mem (t + 8) = L.top t) ∧
    s.core.bases = ⟨s.current, L.context⟩
  step s l s' := match l with
    | .user r => s.calls s.current = none ∧ ∃ mem bases, s.Keeps L mem ∧
        SameBases s.core.bases bases ∧ s' = { s with core := ⟨⟨r, mem⟩, bases⟩ }
    | .syscall => s.calls s.current = none ∧ s' = s.call L.toAddresses entry
    | .kernel r => (s.calls s.current).isSome ∧ ∃ mem bases, s.Keeps L mem ∧
        SameBases s.core.bases bases ∧ s' = { s with core := ⟨⟨r, mem⟩, bases⟩ }
    | .preempt t => L.tasks t ∧ ∃ mem, s.Keeps L mem ∧
        ∃ bases, archInstallTaskContext mem (archGetCpuContext mem s.core.bases).2 t =
          some (t, bases) ∧
        s' = { s with
          core := ⟨⟨Function.update s.saved s.current s.core.cpu.state t, mem⟩, bases⟩
          current := t
          saved := Function.update s.saved s.current s.core.cpu.state }
    | .finish => (s.calls s.current).isSome ∧ s.core.cpu.state.rsp = L.top s.current - 24 ∧
        s' = { s with
          core := handlerRet s.core
          calls := Function.update s.calls s.current none }

/-! ## The invariant -/

structure Inv (L : Layout) (s : State) : Prop where
  task : L.tasks s.current
  kept : Kept L.context (some s.current) ⟨s.core.bases, s.core.cpu.mem⟩
  records : ∀ t, L.tasks t → s.core.cpu.mem t = L.id t ∧ s.core.cpu.mem (t + 8) = L.top t
  calls : ∀ t r, L.tasks t → s.calls t = some r → s.core.cpu.mem (t + 16) = r.rsp ∧
    s.core.cpu.mem (L.top t - 8) = r.rflags ∧ s.core.cpu.mem (L.top t - 16) = r.rip ∧
    s.core.cpu.mem (L.top t - 24) = L.back r.rdi

variable {L : Layout} {s s' : State} {entry : Nat}

theorem inv_init (h : (syscallLTS L entry).init s) : Inv L s := by
  obtain ⟨htask, hcalls, hcontext, hrecords, hbases⟩ := h
  obtain ⟨hne, -⟩ := L.bounds _ htask
  refine ⟨htask, ⟨L.context_ne, hcontext, fun c hc => ?_, .inr ⟨_, rfl, hbases⟩⟩, hrecords,
    fun t r _ hr => ?_⟩
  · cases hc
    refine ⟨hne, fun he => (L.id_ok _ htask).2 ?_⟩
    rw [← (hrecords _ htask).1]
    exact he
  · rw [hcalls] at hr
    cases hr

/-- Without the words that are in use, the memory can be any. -/
theorem Inv.kept_of_keeps {mem : Mem} (h : Inv L s) (hk : s.Keeps L mem) :
    Kept L.context (some s.current) ⟨s.core.bases, mem⟩ := by
  obtain ⟨hcontext, htasks⟩ := hk
  refine ⟨h.kept.cpu_ne, hcontext.trans h.kept.cpu_kind, fun c hc => ?_, h.kept.bases⟩
  cases hc
  obtain ⟨hne, hkind⟩ := h.kept.task s.current rfl
  exact ⟨hne, fun he => hkind ((htasks _ h.task).1.symm.trans he)⟩

/-- A change of the memory that keeps the words in use, with any registers and bases that
suit the task. -/
theorem Inv.of_keeps {mem : Mem} {bases : Bases} {t : Nat} {r : CpuState} {saved : Nat → CpuState}
    (h : Inv L s) (hk : s.Keeps L mem) (ht : L.tasks t)
    (hkept : Kept L.context (some t) ⟨bases, mem⟩) :
    Inv L ⟨⟨⟨r, mem⟩, bases⟩, t, saved, s.calls⟩ := by
  obtain ⟨-, htasks⟩ := hk
  refine ⟨ht, hkept, fun u hu => ?_, fun u r hu hr => ?_⟩
  · obtain ⟨h1, h2, -⟩ := htasks u hu
    obtain ⟨h3, h4⟩ := h.records u hu
    exact ⟨h1.trans h3, h2.trans h4⟩
  · obtain ⟨-, -, hwords⟩ := htasks u hu
    obtain ⟨h1, h2, h3, h4⟩ := h.calls u r hu hr
    have hall := hwords (Option.isSome_iff_exists.mpr ⟨r, hr⟩)
    exact ⟨(hall _ (by simp [Layout.words])).trans h1, (hall _ (by simp [Layout.words])).trans h2,
      (hall _ (by simp [Layout.words])).trans h3, (hall _ (by simp [Layout.words])).trans h4⟩

theorem kept_of_same {cpu t : Nat} {r r' : Bases} {mem : Mem} (h : Kept cpu (some t) ⟨r, mem⟩)
    (hs : SameBases r r') : Kept cpu (some t) ⟨r', mem⟩ := by
  refine ⟨h.cpu_ne, h.cpu_kind, h.task, ?_⟩
  rcases hs with rfl | rfl
  · exact h.bases
  · rcases h.bases with hb | ⟨c, hc, hb⟩
    · exact .inr ⟨t, rfl, congrArg swapgs hb⟩
    · cases hc
      exact .inl (congrArg swapgs hb)

/-- The timer leaves the next task in the GS base. -/
theorem kept_of_install {cpu t u : Nat} {r r' : Bases} {mem : Mem}
    (h : Kept cpu (some t) ⟨r, mem⟩) (hu : u ≠ 0 ∧ mem u ≠ CONTEXT_TYPE_CPU)
    (hi : archInstallTaskContext mem (archGetCpuContext mem r).2 u = some (u, r')) :
    Kept cpu (some u) ⟨r', mem⟩ := by
  have hcpu : (archGetCpuContext mem r).2 = ⟨cpu, t⟩ := congrArg Prod.snd h.getCpu
  have hswap : Kept cpu (some t) ⟨⟨cpu, t⟩, mem⟩ := ⟨h.cpu_ne, h.cpu_kind, h.task, .inl rfl⟩
  have hinstall := hswap.install u
  simp only [hcpu] at hi
  rw [hinstall, Option.some.injEq, Prod.mk.injEq] at hi
  refine ⟨h.cpu_ne, h.cpu_kind, fun c hc => ?_, .inr ⟨u, rfl, hi.2.symm⟩⟩
  cases hc
  exact hu

/-- Whatever the GS base points to, the check ends with the task. -/
theorem Inv.check (h : Inv L s) (r : CpuState) :
    checkContext ⟨⟨r, s.core.cpu.mem⟩, s.core.bases⟩ =
      ⟨⟨r, s.core.cpu.mem⟩, ⟨s.current, L.context⟩⟩ := by
  have hid := (h.records _ h.task).1
  obtain ⟨hlt, hne⟩ := L.id_ok _ h.task
  have hkind := h.kept.cpu_kind
  rcases h.kept.bases with hb | ⟨c, hc, hb⟩
  · simp only at hb hkind
    simp only [checkContext, hb, hkind]
    rfl
  · cases hc
    simp only at hb
    have hmod : s.core.cpu.mem s.current % 2 ^ 32 ≠ CONTEXT_TYPE_CPU := by
      rw [hid, Nat.mod_eq_of_lt hlt]
      exact hne
    simp only [checkContext, hb, hmod, if_false]

/-! ## The entry -/

/-- The words that the entry leaves behind. -/
def enterMem (L : Layout) (t : Nat) (r : CpuState) (mem : Mem) : Mem :=
  ((mem.store (t + 16) r.rsp).store (L.top t - 8) r.rflags).store (L.top t - 16) r.rip

/-- With the call. -/
def callMem (L : Layout) (t : Nat) (r : CpuState) (mem : Mem) : Mem :=
  (enterMem L t r mem).store (L.top t - 24) (L.back r.rdi)

theorem enterMem_out {t x : Nat} (r : CpuState) (mem : Mem) (h : x ∉ L.words t) :
    enterMem L t r mem x = mem x := by
  simp only [Layout.words, List.mem_cons, List.not_mem_nil, or_false, not_or] at h
  rw [enterMem, Mem.store_ne _ _ h.2.2.2.2.1, Mem.store_ne _ _ h.2.2.2.1, Mem.store_ne _ _ h.2.2.1]

theorem callMem_out {t x : Nat} (r : CpuState) (mem : Mem) (h : x ∉ L.words t) :
    callMem L t r mem x = mem x := by
  have hback : x ≠ L.top t - 24 := fun he => h (by simp [Layout.words, he])
  rw [callMem, Mem.store_ne _ _ hback, enterMem_out r mem h]

theorem callMem_record {t : Nat} (r : CpuState) (mem : Mem) (h : (L.words t).Nodup) :
    callMem L t r mem t = mem t ∧ callMem L t r mem (t + 8) = mem (t + 8) ∧
      callMem L t r mem (t + 16) = r.rsp ∧ callMem L t r mem (L.top t - 8) = r.rflags ∧
      callMem L t r mem (L.top t - 16) = r.rip ∧
      callMem L t r mem (L.top t - 24) = L.back r.rdi := by
  simp only [Layout.words, List.nodup_cons, List.mem_cons, List.not_mem_nil, or_false,
    not_or] at h
  obtain ⟨⟨-, h02, h03, h04, h05⟩, ⟨h12, h13, h14, h15⟩, ⟨h23, h24, h25⟩, ⟨h34, h35⟩, h45, -⟩ := h
  simp only [callMem, enterMem]
  refine ⟨?_, ?_, ?_, ?_, ?_, Mem.store_self _ _ _⟩
  · rw [Mem.store_ne _ _ h05, Mem.store_ne _ _ h04, Mem.store_ne _ _ h03, Mem.store_ne _ _ h02]
  · rw [Mem.store_ne _ _ h15, Mem.store_ne _ _ h14, Mem.store_ne _ _ h13, Mem.store_ne _ _ h12]
  · rw [Mem.store_ne _ _ h25, Mem.store_ne _ _ h24, Mem.store_ne _ _ h23, Mem.store_self]
  · rw [Mem.store_ne _ _ h35, Mem.store_ne _ _ h34, Mem.store_self]
  · rw [Mem.store_ne _ _ h45, Mem.store_self]

/-- The registers after the entry; `rax` has the word behind the GS base. -/
def entered (L : Layout) (entry t rax : Nat) (r : CpuState) : CpuState :=
  { syscall entry r with rsp := L.top t - 16, rax := rax }

theorem enter_eq (h : Inv L s) :
    enter { s.core with cpu := { s.core.cpu with state := syscall entry s.core.cpu.state } } =
      ⟨⟨entered L entry s.current (s.core.cpu.mem s.core.bases.gs) s.core.cpu.state,
        enterMem L s.current s.core.cpu.state s.core.cpu.mem⟩, ⟨s.current, L.context⟩⟩ := by
  obtain ⟨h0, h16, htop, hlt⟩ := L.bounds _ h.task
  have hrecord := (h.records _ h.task).2
  have hadd16 : add64 s.current 0x10 = s.current + 16 := add64_of_lt (by omega)
  have hadd8 : add64 s.current 0x8 = s.current + 8 := add64_of_lt (by omega)
  have hsub8 : sub64 (L.top s.current) 8 = L.top s.current - 8 := sub64_of_le (by omega) hlt
  have hsub16 : sub64 (L.top s.current - 8) 8 = L.top s.current - 16 :=
    sub64_of_le (by omega) (by omega)
  rw [enter]
  simp only [h.check, hadd16, hadd8]
  rw [Mem.store_ne _ _ (show s.current + 8 ≠ s.current + 16 by omega), hrecord]
  simp only [Entry.Cpu.push, hsub8, hsub16]
  rfl

/-- What a handler is called with. -/
def called (L : Layout) (entry t rax : Nat) (r : CpuState) (mem : Mem) : CpuState :=
  if r.rdi = 4 then { entered L entry t rax r with rsp := L.top t - 24, rip := L.forkEntry }
  else
    { entered L entry t rax r with
      rsp := L.top t - 24
      rcx := r.r10
      r11 := L.table
      rflags := r.rflags &&& not64 FMASK ||| 0x200
      rip := mem (L.table + 8 * r.rdi) }

@[simp] theorem called_rsp (L : Layout) (entry t rax : Nat) (r : CpuState) (mem : Mem) :
    (called L entry t rax r mem).rsp = L.top t - 24 := by
  rw [called]
  split <;> rfl

theorem call_push {t : Nat} {r : CpuState} {mem : Mem} (target back : Nat)
    (hrsp : r.rsp = L.top t - 16) (htop : 24 ≤ L.top t) (hlt : L.top t < 2 ^ 64) :
    SyscallPath.call target back ⟨r, mem⟩ =
      ⟨{ r with rsp := L.top t - 24, rip := target }, mem.store (L.top t - 24) back⟩ := by
  have hsub : sub64 (L.top t - 16) 8 = L.top t - 24 := sub64_of_le (by omega) (by omega)
  simp only [SyscallPath.call, Entry.Cpu.push, hrsp, hsub]

theorem call_eq (h : Inv L s) (ha : L.Apart) (hrdi : s.core.cpu.state.rdi < syscallCount) :
    s.call L.toAddresses entry = { s with
      core := ⟨⟨called L entry s.current (s.core.cpu.mem s.core.bases.gs) s.core.cpu.state
          s.core.cpu.mem, callMem L s.current s.core.cpu.state s.core.cpu.mem⟩,
        ⟨s.current, L.context⟩⟩
      calls := Function.update s.calls s.current (some s.core.cpu.state) } := by
  have hnot : ¬(syscall entry s.core.cpu.state).rdi ≥ syscallCount := Nat.not_le.mpr hrdi
  have hlt := L.table_lt
  obtain ⟨-, -, htop, htoplt⟩ := L.bounds _ h.task
  have hadd : add64 L.table (s.core.cpu.state.rdi * 8) = L.table + 8 * s.core.cpu.state.rdi := by
    rw [Nat.mul_comm]
    exact add64_of_lt (by omega)
  simp only [State.call, syscallEntry]
  rw [if_neg hnot, if_pos hrdi, enter_eq h]
  congr 1
  by_cases h4 : s.core.cpu.state.rdi = 4
  · rw [called, if_pos h4, callMem, Addresses.back, if_pos h4]
    refine (if_pos h4).trans ?_
    rw [call_push _ _ rfl htop htoplt]
  · rw [called, if_neg h4, callMem, Addresses.back, if_neg h4]
    refine (if_neg h4).trans ?_
    have hword := enterMem_out s.core.cpu.state s.core.cpu.mem (ha.table _ h.task _ hrdi)
    simp only [callHandler]
    rw [call_push _ _ rfl htop htoplt]
    simp only [entered, syscall, hadd, hword]

/-- A task in a system call has its words; the other ones keep theirs. -/
theorem Inv.call (h : Inv L s) (ha : L.Apart) : Inv L (s.call L.toAddresses entry) := by
  by_cases hrdi : s.core.cpu.state.rdi < syscallCount
  · rw [call_eq h ha hrdi]
    obtain ⟨hid, htop, hrsp, hflags, hrip, hback⟩ :=
      callMem_record s.core.cpu.state s.core.cpu.mem (ha.nodup _ h.task)
    obtain ⟨hne, hkind⟩ := h.kept.task _ rfl
    have hout : ∀ t, L.tasks t → t ≠ s.current → ∀ x ∈ L.words t,
        callMem L s.current s.core.cpu.state s.core.cpu.mem x = s.core.cpu.mem x :=
      fun t ht hc x hx => callMem_out _ _ (ha.disjoint t s.current ht h.task hc x hx)
    refine ⟨h.task, ⟨h.kept.cpu_ne, ?_, fun c hc => ?_, .inr ⟨_, rfl, rfl⟩⟩, fun t ht => ?_,
      fun t r ht hr => ?_⟩
    · exact (callMem_out _ _ (ha.context _ h.task)).trans h.kept.cpu_kind
    · cases hc
      exact ⟨hne, fun he => hkind (hid.symm.trans he)⟩
    · obtain ⟨h1, h2⟩ := h.records t ht
      by_cases hc : t = s.current
      · subst hc
        exact ⟨hid.trans h1, htop.trans h2⟩
      · exact ⟨(hout t ht hc _ (by simp [Layout.words])).trans h1,
          (hout t ht hc _ (by simp [Layout.words])).trans h2⟩
    · by_cases hc : t = s.current
      · subst hc
        simp only [Function.update_self, Option.some.injEq] at hr
        rw [← hr]
        exact ⟨hrsp, hflags, hrip, hback⟩
      · simp only [Function.update_of_ne hc] at hr
        obtain ⟨h1, h2, h3, h4⟩ := h.calls t r ht hr
        exact ⟨(hout t ht hc _ (by simp [Layout.words])).trans h1,
          (hout t ht hc _ (by simp [Layout.words])).trans h2,
          (hout t ht hc _ (by simp [Layout.words])).trans h3,
          (hout t ht hc _ (by simp [Layout.words])).trans h4⟩
  · have hge : (syscall entry s.core.cpu.state).rdi ≥ syscallCount := Nat.le_of_not_lt hrdi
    have hcall : s.call L.toAddresses entry = { s with
        core := ⟨⟨sysret (syscall entry s.core.cpu.state), s.core.cpu.mem⟩, s.core.bases⟩ } := by
      simp only [State.call, syscallEntry]
      rw [if_pos hge, if_neg hrdi]
    rw [hcall]
    exact ⟨h.task, h.kept, h.records, h.calls⟩

/-! ## The exit -/

/-- What the task goes on with, if a handler leaves `d`: the rest is as the handler left it. -/
def returned (r d : CpuState) : CpuState :=
  { d with
    rip := r.rip
    rcx := r.rip
    r11 := r.rflags
    rflags := sysretFlags r.rflags
    rsp := r.rsp
    cs := 8 * 4 ||| 3
    ss := 8 * 3 ||| 3 }

theorem pop_pair {d : CpuState} (mem : Mem) (h : d.rsp + 16 < 2 ^ 64) :
    (Cpu.popReg ⟨d, mem⟩ .rcx).popReg .r11 =
      ⟨{ d with rcx := mem d.rsp, r11 := mem (d.rsp + 8), rsp := d.rsp + 16 }, mem⟩ := by
  rw [popReg_eq mem (by omega) .rcx]
  have hrsp : (Reg.set { d with rsp := d.rsp + 8 } (mem d.rsp) .rcx).rsp = d.rsp + 8 := rfl
  rw [popReg_eq mem (by rw [hrsp]; omega) .r11, hrsp]
  rfl

theorem ret_eq {d : CpuState} (mem : Mem) (h : d.rsp + 8 < 2 ^ 64) :
    ret ⟨d, mem⟩ = ⟨{ d with rip := mem d.rsp, rsp := d.rsp + 8 }, mem⟩ := by
  simp only [ret, Entry.Cpu.drop, Entry.Cpu.top, Nat.mul_one, add64_of_lt h]

/-- The handler goes back behind its call. -/
theorem Inv.goesBack (h : Inv L s) {r : CpuState} (hr : s.calls s.current = some r)
    (hrsp : s.core.cpu.state.rsp = L.top s.current - 24) :
    ret s.core.cpu = ⟨{ s.core.cpu.state with rip := L.back r.rdi, rsp := L.top s.current - 16 },
      s.core.cpu.mem⟩ := by
  obtain ⟨-, -, htop, hlt⟩ := L.bounds _ h.task
  obtain ⟨-, -, -, hback⟩ := h.calls _ r h.task hr
  have hnext : L.top s.current - 24 + 8 = L.top s.current - 16 := by omega
  have hret := ret_eq (d := s.core.cpu.state) s.core.cpu.mem (by omega)
  rw [hrsp, hback, hnext] at hret
  exact hret

theorem finish_eq (h : Inv L s) {r : CpuState} (hr : s.calls s.current = some r)
    (hrsp : s.core.cpu.state.rsp = L.top s.current - 24) :
    handlerRet s.core =
      ⟨⟨returned r s.core.cpu.state, s.core.cpu.mem⟩, ⟨s.current, L.context⟩⟩ := by
  obtain ⟨h0, h16, htop, hlt⟩ := L.bounds _ h.task
  obtain ⟨hw1, hw2, hw3, -⟩ := h.calls _ r h.task hr
  have hnext : L.top s.current - 16 + 8 = L.top s.current - 8 := by omega
  have hadd : add64 s.current 0x10 = s.current + 16 := add64_of_lt (by omega)
  rw [handlerRet, h.goesBack hr hrsp, finish]
  simp only [h.check]
  have hpop := pop_pair (d := { s.core.cpu.state with
    rip := L.back r.rdi
    rsp := L.top s.current - 16
    rcx := s.core.cpu.mem s.core.bases.gs }) s.core.cpu.mem (by simp only; omega)
  rw [hpop]
  simp only [hnext, hw3, hw2, hadd, hw1]
  rfl

theorem Inv.finish (h : Inv L s) {r : CpuState} (hr : s.calls s.current = some r)
    (hrsp : s.core.cpu.state.rsp = L.top s.current - 24) :
    Inv L { s with
      core := handlerRet s.core
      calls := Function.update s.calls s.current none } := by
  rw [finish_eq h hr hrsp]
  refine ⟨h.task, ⟨h.kept.cpu_ne, h.kept.cpu_kind, h.kept.task, .inr ⟨_, rfl, rfl⟩⟩, h.records,
    fun t r ht hr => ?_⟩
  by_cases hc : t = s.current
  · subst hc
    simp only [Function.update_self, reduceCtorEq] at hr
  · simp only [Function.update_of_ne hc] at hr
    exact h.calls t r ht hr

/-! ## Runs -/

theorem inv_step {l : Label} (ha : L.Apart) (h : Inv L s) (hst : (syscallLTS L entry).step s l s') :
    Inv L s' := by
  cases l with
  | user r =>
    obtain ⟨-, mem, bases, hk, hb, rfl⟩ := hst
    exact h.of_keeps hk h.task (kept_of_same (h.kept_of_keeps hk) hb)
  | syscall =>
    obtain ⟨-, rfl⟩ := hst
    exact h.call ha
  | kernel r =>
    obtain ⟨-, mem, bases, hk, hb, rfl⟩ := hst
    exact h.of_keeps hk h.task (kept_of_same (h.kept_of_keeps hk) hb)
  | preempt t =>
    obtain ⟨ht, mem, hk, bases, hi, rfl⟩ := hst
    have hkind : mem t ≠ CONTEXT_TYPE_CPU := by
      rw [(hk.2 t ht).1, (h.records t ht).1]
      exact (L.id_ok t ht).2
    exact h.of_keeps hk ht
      (kept_of_install (h.kept_of_keeps hk) ⟨(L.bounds t ht).1, hkind⟩ hi)
  | finish =>
    obtain ⟨hsome, hrsp, rfl⟩ := hst
    obtain ⟨r, hr⟩ := Option.isSome_iff_exists.mp hsome
    exact h.finish hr hrsp

theorem inv_inductive (ha : L.Apart) : (syscallLTS L entry).Inductive (Inv L) :=
  ⟨fun _ => inv_init, fun _ _ _ h hst => inv_step ha h hst⟩

/-- **System calls return.** At any point of any run, whatever the handlers of this and of
other tasks did in between and however often the processor went to another task: a handler
is called with the arguments of its task, on the stack of that task; it returns to the
instruction behind its call; and the task goes on after its system call, with its own
stack and flags, and in all other registers what the handler left. -/
theorem syscall_returns (ha : L.Apart) (hr : (syscallLTS L entry).Reachable s) :
    (∀ s', (syscallLTS L entry).step s .syscall s' → s.core.cpu.state.rdi < syscallCount →
      ∃ rax, s'.core.cpu.state =
          called L entry s.current rax s.core.cpu.state s.core.cpu.mem ∧
        s'.calls s.current = some s.core.cpu.state) ∧
    ∀ s' r, (syscallLTS L entry).step s .finish s' → s.calls s.current = some r →
      (ret s.core.cpu).state.rip = L.back r.rdi ∧
        s'.core.cpu.state = returned r s.core.cpu.state ∧
        s'.core.bases = ⟨s.current, L.context⟩ ∧ s'.core.cpu.mem = s.core.cpu.mem := by
  have h := (inv_inductive ha).reachable hr
  refine ⟨fun s' hst hrdi => ?_, fun s' r hst hcall => ?_⟩
  · obtain ⟨-, rfl⟩ := hst
    rw [call_eq h ha hrdi]
    exact ⟨_, rfl, Function.update_self _ _ _⟩
  · obtain ⟨-, hrsp, rfl⟩ := hst
    rw [finish_eq h hcall hrsp, h.goesBack hcall hrsp]
    exact ⟨rfl, rfl, rfl, rfl⟩

/-! ## Fork -/

theorem pushZeros_spec {mem : Mem} {base : Nat} {ws : List Nat} {c : Entry.Cpu}
    (h : Pushed mem base ws c) (hbase : base < 2 ^ 64) (n : Nat)
    (hroom : 8 * ws.length + 8 * n ≤ base) :
    Pushed mem base (List.replicate n 0 ++ ws) ((List.replicate n 0).foldl Entry.Cpu.push c) ∧
      ((List.replicate n 0).foldl Entry.Cpu.push c).state =
        { c.state with rsp := c.state.rsp - 8 * n } := by
  induction n generalizing c ws with
  | zero => exact ⟨h, rfl⟩
  | succ n ih =>
    obtain ⟨h1, hstate⟩ := h.push_state (v := 0) (by omega) hbase
    obtain ⟨h2, hrest⟩ := ih h1 (by simp only [List.length_cons]; omega)
    have hlen : c.state.rsp - 8 - 8 * n = c.state.rsp - 8 * (n + 1) := by omega
    rw [hstate] at hrest
    simp only [hlen] at hrest
    have happ : List.replicate n 0 ++ 0 :: ws = List.replicate (n + 1) 0 ++ ws := by
      rw [List.replicate_succ', List.append_assoc]
      rfl
    rw [happ] at h2
    rw [List.replicate_succ, List.foldl_cons]
    exact ⟨h2, hrest⟩

/-- What `sys_fork` gets a pointer to. -/
def forkFrame (s : CpuState) : CpuState :=
  { s with rax := 0, error := 0, rip := 0, cs := 0, rflags := 0, rsp := 0, ss := 0 }

theorem forkFrame_words (s : CpuState) :
    (stateWords { s with rax := 0 }).take 16 ++ List.replicate 7 0 =
      stateWords (forkFrame s) ++ [0] := by
  cases s
  rfl

/-- Sixteen registers above the seven zeros. -/
theorem pushFork_spec {mem : Mem} {base : Nat} {c : Entry.Cpu} (h : Pushed mem base [] c)
    (hbase : base < 2 ^ 64) (hroom : 8 * 23 ≤ base) :
    Pushed mem base ((stateWords c.state).take 16 ++ List.replicate 7 0)
      (pushRegs ((List.replicate 7 0).foldl Entry.Cpu.push c)) := by
  obtain ⟨h1, hstate⟩ := pushZeros_spec h hbase 7 (by simp only [List.length_nil]; omega)
  rw [List.append_nil] at h1
  obtain ⟨h2, -⟩ := h1.registers (by simp only [List.length_replicate]; omega) hbase
  have hregs (s : CpuState) (v : Nat) :
      (stateWords { s with rsp := v }).take 16 = (stateWords s).take 16 := rfl
  rw [hstate, hregs] at h2
  exact h2

theorem forkEntry_eq (A : Addresses) (c : Entry.Cpu) : ∃ e : Entry.Cpu,
    e = pushRegs ((List.replicate 7 0).foldl Entry.Cpu.push
      { c with state := { c.state with rax := 0 } }) ∧
    forkEntry A c = SyscallPath.call A.sysFork A.sysForkReturn
      { e with state := { e.state with rdi := e.state.rsp } } :=
  ⟨_, rfl, rfl⟩

/-- `sys_fork` gets the state, with the address that it returns to below it. -/
theorem forkEntry_spec (A : Addresses) (c : Entry.Cpu) (hroom : 192 ≤ c.state.rsp)
    (hlt : c.state.rsp < 2 ^ 64) :
    (forkEntry A c).state.rsp = c.state.rsp - 192 ∧
    (forkEntry A c).state.rdi = c.state.rsp - 184 ∧
    (forkEntry A c).mem (c.state.rsp - 192) = A.sysForkReturn ∧
    (forkEntry A c).mem.At (c.state.rsp - 184) (stateWords (forkFrame c.state)) ∧
    ∀ x, x < c.state.rsp - 192 ∨ c.state.rsp ≤ x → (forkEntry A c).mem x = c.mem x := by
  have hstart : Pushed c.mem c.state.rsp [] { c with state := { c.state with rax := 0 } } :=
    ⟨rfl, trivial, fun _ _ => rfl⟩
  have hpushed := pushFork_spec hstart hlt (by omega)
  rw [forkFrame_words] at hpushed
  obtain ⟨e, he, hentry⟩ := forkEntry_eq A c
  rw [← he] at hpushed
  have hlen : (stateWords (forkFrame c.state) ++ [0]).length = 23 := rfl
  have hrsp : e.state.rsp = c.state.rsp - 184 := by
    have hsum := hpushed.rsp
    rw [hlen] at hsum
    omega
  have hsub : sub64 (c.state.rsp - 184) 8 = c.state.rsp - 192 := by
    rw [sub64_of_le (by omega) (by omega), Nat.sub_sub]
  have hwords := hpushed.words.left
  have hframe := hpushed.frame
  rw [hrsp] at hwords hframe
  rw [hentry]
  simp only [SyscallPath.call, Entry.Cpu.push, hrsp, hsub]
  refine ⟨trivial, trivial, Mem.store_self _ _ _, hwords.congr fun x hx _ => ?_, fun x hx => ?_⟩
  · exact Mem.store_ne _ _ (by omega)
  · rw [Mem.store_ne _ _ (by omega)]
    exact hframe x (by omega)

/-- What the child goes on with, if its parent called with the registers `r`. -/
def child (r : CpuState) : CpuState :=
  { r with
    rax := 0
    rcx := 0
    r11 := 0
    rflags := r.rflags ||| 0x200
    cs := 8 * 4 ||| 3
    ss := 8 * 3 ||| 3
    error := 0 }

theorem forkState_called (L : Layout) (entry t rax : Nat) {r : CpuState} (mem : Mem)
    (h4 : r.rdi = 4) : forkState r.rsp (forkFrame (called L entry t rax r mem)) = child r := by
  rw [called, if_pos h4]
  simp only [forkState, forkFrame, entered, syscall, child]

/-- What is written where no word in use is does not concern the tasks. -/
theorem words_of_frame {mem mem' : Mem} {low high : Nat}
    (hframe : ∀ x, x < low ∨ high ≤ x → mem' x = mem x)
    (hstack : ∀ x, low ≤ x → x < high → x ≠ L.context ∧ ∀ t, L.tasks t → x ∉ L.words t) :
    mem' L.context = mem L.context ∧ ∀ t, L.tasks t → ∀ x ∈ L.words t, mem' x = mem x := by
  refine ⟨hframe _ ?_, fun t ht x hx => hframe x ?_⟩
  · by_contra hin
    exact (hstack _ (by omega) (by omega)).1 rfl
  · by_contra hin
    exact (hstack x (by omega) (by omega)).2 t ht hx

theorem keeps_of_words {mem : Mem} (h : mem L.context = s.core.cpu.mem L.context ∧
    ∀ t, L.tasks t → ∀ x ∈ L.words t, mem x = s.core.cpu.mem x) : s.Keeps L mem :=
  ⟨h.1, fun t ht => ⟨h.2 t ht _ (by simp [Layout.words]), h.2 t ht _ (by simp [Layout.words]),
    fun _ => h.2 t ht⟩⟩

theorem forkExit_rsp {e : Entry.Cpu} {top : Nat} (h : e.state.rsp = top - 24 - 192)
    (htop : 216 ≤ top) (hlt : top < 2 ^ 64) : (forkExit e).state.rsp = top - 24 := by
  have hret := ret_eq (d := e.state) e.mem (by omega)
  rw [forkExit, hret]
  simp only [Entry.Cpu.drop, h]
  rw [add64_of_lt (by omega)]
  omega

/-- **Fork returns twice.** `arch_sys_fork_entry` gives `sys_fork` a state from which it
makes the child: at the instruction after the system call like its parent, on the same
stack, with the same registers, and with 0 as the answer. What the entry puts on the
kernel's stack is taken off again, so that the parent comes back from its system call as
from any other one. `sysFork` is any code that gets to its `ret` with the stack pointer it
was called with and keeps, as a handler, the words in use. -/
theorem fork_returns_twice (ha : L.Apart) (hr : (syscallLTS L entry).Reachable s)
    (hst : (syscallLTS L entry).step s .syscall s') (h4 : s.core.cpu.state.rdi = 4)
    (hroom : 216 ≤ L.top s.current)
    (hstack : ∀ x, L.top s.current - 216 ≤ x → x < L.top s.current - 24 →
      x ≠ L.context ∧ ∀ t, L.tasks t → x ∉ L.words t)
    (sysFork : Entry.Cpu → Entry.Cpu) (hrsp : ∀ d, (sysFork d).state.rsp = d.state.rsp)
    (hmem : ∀ d, s'.Keeps L d.mem → s'.Keeps L (sysFork d).mem) :
    (∃ frame,
      (forkEntry L.toAddresses s'.core.cpu).mem.At
        (forkEntry L.toAddresses s'.core.cpu).state.rdi (stateWords frame) ∧
      forkState ((forkEntry L.toAddresses s'.core.cpu).mem (s.current + 16)) frame =
        child s.core.cpu.state) ∧
    (forkEntry L.toAddresses s'.core.cpu).top = L.sysForkReturn ∧
    ∃ u v, (syscallLTS L entry).step s'
        (.kernel (forkExit (sysFork (forkEntry L.toAddresses s'.core.cpu))).state) u ∧
      (syscallLTS L entry).step u .finish v ∧
      v.core.cpu.state = returned s.core.cpu.state
        (forkExit (sysFork (forkEntry L.toAddresses s'.core.cpu))).state := by
  have h := (inv_inductive ha).reachable hr
  have h' := inv_step ha h hst
  have hrdi : s.core.cpu.state.rdi < syscallCount := by
    rw [h4, syscallCount]
    omega
  obtain ⟨-, -, htop, hlt⟩ := L.bounds _ h.task
  have hs' := hst.2.trans (call_eq h ha hrdi)
  have hcpu : s'.core.cpu.state = called L entry s.current (s.core.cpu.mem s.core.bases.gs)
      s.core.cpu.state s.core.cpu.mem := by
    rw [hs']
  have hcurrent : s'.current = s.current := by rw [hs']
  have hcalls : s'.calls s.current = some s.core.cpu.state := by
    rw [hs']
    exact Function.update_self _ _ _
  have hrsp' : s'.core.cpu.state.rsp = L.top s.current - 24 := by
    rw [hcpu, called_rsp]
  obtain ⟨h1, h2, hback, h3, hframe⟩ :=
    forkEntry_spec L.toAddresses s'.core.cpu (by omega) (by omega)
  rw [hrsp'] at h1 h2 h3 hframe
  generalize hentry : forkEntry L.toAddresses s'.core.cpu = e at h1 h2 h3 hback hframe ⊢
  have hwords := words_of_frame hframe fun x h1 h2 => hstack x (by omega) h2
  have hkeeps : s'.Keeps L e.mem := keeps_of_words hwords
  have hword : e.mem (s.current + 16) = s.core.cpu.state.rsp :=
    (hwords.2 _ h.task _ (by simp [Layout.words])).trans (h'.calls _ _ h.task hcalls).1
  refine ⟨⟨forkFrame s'.core.cpu.state, ?_, ?_⟩, ?_, ?_⟩
  · rw [h2]
    exact h3
  · rw [hword, hcpu]
    exact forkState_called _ _ _ _ _ h4
  · rw [Entry.Cpu.top, h1, ← hback, hrsp']
  have hsome : (s'.calls s'.current).isSome := by
    rw [hcurrent, hcalls]
    rfl
  have hleft : (forkExit (sysFork e)).state.rsp = L.top s'.current - 24 := by
    rw [hcurrent]
    exact forkExit_rsp ((hrsp e).trans h1) hroom hlt
  have hkernel : (syscallLTS L entry).step s' (.kernel (forkExit (sysFork e)).state)
      { s' with core := ⟨⟨(forkExit (sysFork e)).state, (sysFork e).mem⟩, s'.core.bases⟩ } :=
    ⟨hsome, _, _, hmem _ hkeeps, .inl rfl, rfl⟩
  refine ⟨_, _, hkernel, ⟨hsome, hleft, rfl⟩, ?_⟩
  have hcalls' : s'.calls s'.current = some s.core.cpu.state := hcurrent ▸ hcalls
  exact congrArg (fun c => c.cpu.state) (finish_eq (inv_step ha h' hkernel) hcalls' hleft)

/-! ## Two tasks -/

theorem twoProcesses_context : (0x1000 : Nat) ≠ 0 := by decide

theorem twoProcesses_table : 0x2000 + 8 * syscallCount < 2 ^ 64 := by decide

theorem twoProcesses_ids (t : Nat) (h : t = 0x10000 ∨ t = 0x20000) :
    t / 0x10000 < 2 ^ 32 ∧ t / 0x10000 ≠ CONTEXT_TYPE_CPU := by
  rw [CONTEXT_TYPE_CPU]
  omega

theorem twoProcesses_bounds (t : Nat) (h : t = 0x10000 ∨ t = 0x20000) :
    t ≠ 0 ∧ t + 16 < 2 ^ 64 ∧ 24 ≤ t + 0x2000 ∧ t + 0x2000 < 2 ^ 64 := by
  omega

def twoProcesses : Layout where
  context := 0x1000
  table := 0x2000
  forkEntry := 0x3000
  sysFork := 0x3800
  handlerReturn := 0x3078
  forkReturn := 0x3064
  sysForkReturn := 0x302B
  tasks t := t = 0x10000 ∨ t = 0x20000
  id t := t / 0x10000
  top t := t + 0x2000
  context_ne := twoProcesses_context
  table_lt := twoProcesses_table
  id_ok := twoProcesses_ids
  bounds := twoProcesses_bounds

theorem twoProcesses_apart : twoProcesses.Apart where
  nodup := by
    rintro t (rfl | rfl)
    · decide
    · decide
  disjoint := by
    rintro t u (rfl | rfl) (rfl | rfl) hne
    · exact absurd rfl hne
    · decide
    · decide
    · exact absurd rfl hne
  context := by
    rintro t (rfl | rfl)
    · decide
    · decide
  table := by
    rintro t (rfl | rfl)
    · decide
    · decide

/-- The first task is about to make the system call. -/
def firstState (number : Nat) : State where
  core := ⟨⟨{ rdi := number, rip := 0x400000, rsp := 0x7000 }, fun x =>
    if x = 0x1000 then CONTEXT_TYPE_CPU
    else if x = 0x10000 ∨ x = 0x20000 then x / 0x10000
    else if x = 0x10008 ∨ x = 0x20008 then x - 8 + 0x2000
    else 0⟩, ⟨0x10000, 0x1000⟩⟩
  current := 0x10000
  saved _ := {}
  calls _ := none

theorem firstState_init (number : Nat) :
    (syscallLTS twoProcesses entry).init (firstState number) := by
  refine ⟨.inl rfl, fun _ => rfl, rfl, ?_, rfl⟩
  rintro t (rfl | rfl)
  · exact ⟨rfl, rfl⟩
  · exact ⟨rfl, rfl⟩

theorem syscall_returns_first : ∃ s s', (syscallLTS twoProcesses 0).Reachable s ∧
    (syscallLTS twoProcesses 0).step s .finish s' ∧
    s'.core.cpu.state.rip = 0x400000 ∧ s'.core.cpu.state.rsp = 0x7000 := by
  have h₀ : (syscallLTS twoProcesses 0).init (firstState 0) := firstState_init 0
  have hstep : (syscallLTS twoProcesses 0).step (firstState 0) .syscall
      ((firstState 0).call twoProcesses.toAddresses 0) := ⟨rfl, rfl⟩
  have hcall : (firstState 0).call twoProcesses.toAddresses 0 = _ :=
    call_eq (inv_init h₀) twoProcesses_apart (by decide)
  have hr := (LTS.Reachable.init h₀).step hstep
  obtain ⟨s', hfinish⟩ : ∃ s', (syscallLTS twoProcesses 0).step
      ((firstState 0).call twoProcesses.toAddresses 0) .finish s' := by
    refine ⟨_, ?_, ?_, rfl⟩
    · rw [hcall]
      rfl
    · rw [hcall]
      rfl
  obtain ⟨-, hback⟩ := syscall_returns twoProcesses_apart hr
  obtain ⟨-, hstate, -⟩ := hback _ (firstState 0).core.cpu.state hfinish (by rw [hcall]; rfl)
  refine ⟨_, _, hr, hfinish, ?_, ?_⟩
  · rw [hstate]
    rfl
  · rw [hstate]
    rfl

theorem firstStack_apart (x : Nat) (h1 : 0x12000 - 216 ≤ x) (h2 : x < 0x12000 - 24) :
    x ≠ twoProcesses.context ∧ ∀ t, twoProcesses.tasks t → x ∉ twoProcesses.words t := by
  refine ⟨?_, ?_⟩
  · simp only [twoProcesses]
    omega
  · rintro t (rfl | rfl)
    · simp only [Layout.words, twoProcesses, List.mem_cons, List.not_mem_nil, or_false]
      omega
    · simp only [Layout.words, twoProcesses, List.mem_cons, List.not_mem_nil, or_false]
      omega

/-- The child has the number 2. -/
theorem fork_returns_twice_first : ∃ (s' : State) (frame : CpuState) (stack : Nat) (v : State),
    (syscallLTS twoProcesses 0).step (firstState 4) .syscall s' ∧
    (forkEntry twoProcesses.toAddresses s'.core.cpu).mem.At
      (forkEntry twoProcesses.toAddresses s'.core.cpu).state.rdi (stateWords frame) ∧
    (forkState stack frame).rip = 0x400000 ∧ (forkState stack frame).rax = 0 ∧
    v.core.cpu.state.rip = 0x400000 := by
  have h₀ : (syscallLTS twoProcesses 0).init (firstState 4) := firstState_init 4
  have hstep : (syscallLTS twoProcesses 0).step (firstState 4) .syscall
      ((firstState 4).call twoProcesses.toAddresses 0) := ⟨rfl, rfl⟩
  obtain ⟨⟨frame, hat, hchild⟩, -, u, v, -, -, hv⟩ :=
    fork_returns_twice twoProcesses_apart (.init h₀) hstep rfl (by decide) firstStack_apart
      (fun d => { d with state := { d.state with rax := 2 } }) (fun _ => rfl) (fun _ h => h)
  have hrip := congrArg CpuState.rip hchild
  have hrax := congrArg CpuState.rax hchild
  have hback := congrArg CpuState.rip hv
  exact ⟨_, frame, _, v, hstep, hat, hrip, hrax, hback⟩

end GaOS.L6.SyscallPath
