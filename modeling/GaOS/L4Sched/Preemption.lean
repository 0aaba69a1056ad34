import GaOS.L4Sched.Entry

/-!
# Each task has the processor to itself

One processor down to its registers and memory. The timer interrupts whatever runs;
the entry code pushes the registers on the interrupt stack, `reschedule` copies them
into the record of the running task with `memcpy`, and loads those of another task from
that one's record with `arch_switch_state`. `Ideal` is what that is for: every task has
registers of its own, and the timer only says whose turn it is.

Which task is next is not decided here (`GaOS.L4.RoundRobin` has the queue). What runs
may change any memory but the saved registers of the tasks that do not run.
-/
namespace GaOS.L4.Entry

open GaOS.L4.RoundRobin

/-- `offsetof(scheduler_task_t, state)`
mirrors kernel/src/schedulers/task/round_robin/round_robin.h:9-16 -/
def STATE_OFFSET : Nat := 544

def InSlot (t x : Nat) : Prop := t + STATE_OFFSET ≤ x ∧ x < t + STATE_OFFSET + SIZEOF_STATE

/-- Where the records of the tasks and the interrupt stack are: apart, and below 2^64. -/
structure Layout where
  tasks : Nat → Prop
  /-- `tss.ist[0]` -/
  ist : Nat
  /-- of `arch_xapic_isr_handler_entry` -/
  entry : Nat
  ist_lt : ist < 2 ^ 64
  room : SIZEOF_STATE ≤ ist / 16 * 16
  below : ∀ t, tasks t → t + STATE_OFFSET + SIZEOF_STATE < 2 ^ 64
  apart : ∀ t u x, tasks t → tasks u → InSlot t x → InSlot u x → t = u
  stack : ∀ t x, tasks t → InSlot t x → x < ist / 16 * 16 - SIZEOF_STATE ∨ ist / 16 * 16 ≤ x

theorem page_room {stack : Nat} (hstack : 4096 ∣ stack) :
    SIZEOF_STATE ≤ (stack + 4096) / 16 * 16 := by
  rw [SIZEOF_STATE]
  omega

theorem page_below {tasks : Nat → Prop} (h : ∀ t, tasks t → 4096 ∣ t ∧ t + 4096 < 2 ^ 64) (t : Nat)
    (ht : tasks t) : t + STATE_OFFSET + SIZEOF_STATE < 2 ^ 64 := by
  have := h t ht
  rw [STATE_OFFSET, SIZEOF_STATE]
  omega

theorem page_apart {tasks : Nat → Prop} (h : ∀ t, tasks t → 4096 ∣ t ∧ t + 4096 < 2 ^ 64)
    (t u x : Nat) (ht : tasks t) (hu : tasks u) (h1 : InSlot t x) (h2 : InSlot u x) : t = u := by
  obtain ⟨ht, -⟩ := h t ht
  obtain ⟨hu, -⟩ := h u hu
  simp only [InSlot, STATE_OFFSET, SIZEOF_STATE] at h1 h2
  omega

theorem page_stack {tasks : Nat → Prop} {stack : Nat}
    (h : ∀ t, tasks t → 4096 ∣ t ∧ t + 4096 < 2 ^ 64) (hstack : 4096 ∣ stack)
    (hne : ∀ t, tasks t → t ≠ stack) (t x : Nat) (ht : tasks t) (hx : InSlot t x) :
    x < (stack + 4096) / 16 * 16 - SIZEOF_STATE ∨ (stack + 4096) / 16 * 16 ≤ x := by
  obtain ⟨ha, -⟩ := h t ht
  have hn := hne t ht
  simp only [InSlot, STATE_OFFSET] at hx
  rw [SIZEOF_STATE] at hx ⊢
  omega

/-- The records and the stack have pages of their own.
mirrors kernel/src/arch/x86_64/gdt/gdt.c:41 and
kernel/src/schedulers/task/round_robin/round_robin.c:175,236 -/
def Layout.ofPages (tasks : Nat → Prop) (stack entry : Nat)
    (haligned : ∀ t, tasks t → 4096 ∣ t ∧ t + 4096 < 2 ^ 64) (hstack : 4096 ∣ stack)
    (hlt : stack + 4096 < 2 ^ 64) (hne : ∀ t, tasks t → t ≠ stack) : Layout where
  tasks := tasks
  ist := stack + 4096
  entry := entry
  ist_lt := hlt
  room := page_room hstack
  below := page_below haligned
  apart := page_apart haligned
  stack := page_stack haligned hstack hne

structure Machine where
  cpu : Cpu
  current : Nat

inductive Label where
  /-- the running task, in user mode or in the kernel, gets to these registers -/
  | run (r : CpuState)
  /-- the timer, and the task that is next -/
  | timer (t : Nat)

/-- From the interrupt to the copy of the registers.
mirrors kernel/src/arch/x86_64/timers/xapic.asm:48-53 and
kernel/src/schedulers/task/round_robin/round_robin.c:215 -/
def saved (L : Layout) (s : Machine) : Mem :=
  let d := xapicEntry (deliver L.ist L.entry none s.cpu)
  d.mem.copy (s.current + STATE_OFFSET) d.state.rdi SIZEOF_STATE

def preemptionLTS (L : Layout) (first : Nat → CpuState) : LTS Machine Label where
  init s := L.tasks s.current ∧ ∀ t, L.tasks t → t ≠ s.current →
    s.cpu.mem.At (t + STATE_OFFSET) (stateWords (first t))
  step s l s' := match l with
    | .run r => s'.current = s.current ∧ s'.cpu.state = r ∧
        ∀ t x, L.tasks t → t ≠ s.current → InSlot t x → s'.cpu.mem x = s.cpu.mem x
    | .timer t => L.tasks t ∧ s'.current = t ∧
        -- the selection in between leaves all saved registers alone
        ∃ r mem, (∀ u x, L.tasks u → InSlot u x → mem x = saved L s x) ∧
          s'.cpu = archSwitchState (t + STATE_OFFSET) ⟨r, mem⟩

/-! ## What it is for -/

structure Ideal where
  current : Nat
  live : CpuState
  own : Nat → CpuState

def Ideal.after (i : Ideal) : Label → Ideal
  | .run r => { i with live := registersOf r }
  | .timer t =>
    let own := Function.update i.own i.current i.live
    { current := t, live := registersOf (own t), own := own }

structure Agrees (L : Layout) (s : Machine) (i : Ideal) : Prop where
  current : s.current = i.current
  task : L.tasks s.current
  live : registersOf s.cpu.state = i.live
  own : ∀ t, L.tasks t → t ≠ s.current →
    ∃ code, s.cpu.mem.At (t + STATE_OFFSET) (stateWords { i.own t with error := code })

variable {L : Layout} {first : Nat → CpuState} {s s' : Machine} {i : Ideal}

/-- After the copy, every task has its registers in its record, also the one that ran. -/
theorem saved_spec (h : Agrees L s i) (t : Nat) (ht : L.tasks t) : ∃ code,
    (saved L s).At (t + STATE_OFFSET)
      (stateWords { Function.update i.own i.current i.live t with error := code }) := by
  obtain ⟨code, hat⟩ := xapicEntry_spec L.entry L.room L.ist_lt s.cpu.state s.cpu.mem
  have hsaved : saved L s = (xapicEntry (deliver L.ist L.entry none s.cpu)).mem.copy
      (s.current + STATE_OFFSET) (L.ist / 16 * 16 - SIZEOF_STATE) SIZEOF_STATE := by
    rw [← hat.rdi]
    rfl
  by_cases hcur : t = s.current
  · refine ⟨code, ?_⟩
    have hlive : { Function.update i.own i.current i.live t with error := code } =
        { s.cpu.state with error := code } := by
      rw [hcur, h.current, Function.update_self, ← h.live]
      rfl
    rw [hlive, hsaved, hcur]
    exact hat.words.copy (s.current + STATE_OFFSET)
  · obtain ⟨code', hown⟩ := h.own t ht hcur
    refine ⟨code', ?_⟩
    rw [Function.update_of_ne (h.current ▸ hcur)]
    refine hown.congr fun x h1 h2 => ?_
    rw [stateWords_length] at h2
    have hslot : InSlot t x := ⟨h1, h2⟩
    have hnot : ¬InSlot s.current x := fun hx => hcur (L.apart t s.current x ht h.task hslot hx)
    rw [hsaved, Mem.copy_out _ (by simp only [InSlot] at hnot; omega)]
    exact hat.frame x (L.stack t x ht hslot)

theorem agrees_step {l : Label} (h : Agrees L s i) (hst : (preemptionLTS L first).step s l s') :
    Agrees L s' (i.after l) := by
  cases l with
  | run r =>
    obtain ⟨hcur, hr, hmem⟩ := hst
    refine ⟨hcur.trans h.current, hcur ▸ h.task, congrArg registersOf hr, fun t ht hne => ?_⟩
    rw [hcur] at hne
    obtain ⟨code, hown⟩ := h.own t ht hne
    refine ⟨code, hown.congr fun x h1 h2 => ?_⟩
    rw [stateWords_length] at h2
    exact hmem t x ht hne ⟨h1, h2⟩
  | timer t =>
    obtain ⟨ht, hcur, r, mem, hmem, hcpu⟩ := hst
    have hslots : ∀ u, L.tasks u → ∃ code, mem.At (u + STATE_OFFSET)
        (stateWords { Function.update i.own i.current i.live u with error := code }) := by
      intro u hu
      obtain ⟨code, hat⟩ := saved_spec h u hu
      refine ⟨code, hat.congr fun x h1 h2 => ?_⟩
      rw [stateWords_length] at h2
      exact hmem u x hu ⟨h1, h2⟩
    obtain ⟨code, hat⟩ := hslots t ht
    have hload := restore_eq mem
      (d := { r with rdi := t + STATE_OFFSET, rsp := t + STATE_OFFSET }) (L.below t ht) hat
    have hcpu' : s'.cpu =
        ⟨{ Function.update i.own i.current i.live t with error := r.error }, mem⟩ :=
      hcpu.trans hload
    refine ⟨hcur, hcur ▸ ht, ?_, fun u hu _ => ?_⟩
    · rw [hcpu']
      rfl
    · rw [hcpu']
      exact hslots u hu

/-- **Preemption is invisible.** In every run of a processor, with the timer at any points
and the turns in any order, the registers are those of a machine where each task has
registers of its own: nothing a task does, and no number of interrupts, changes what
another task finds in them. -/
theorem preemption_invisible {s₀ : Machine} {ls : List Label}
    (h₀ : (preemptionLTS L first).init s₀) (hrun : (preemptionLTS L first).Run s₀ ls s) :
    registersOf s.cpu.state =
        (ls.foldl Ideal.after ⟨s₀.current, registersOf s₀.cpu.state, first⟩).live ∧
      s.current = (ls.foldl Ideal.after ⟨s₀.current, registersOf s₀.cpu.state, first⟩).current := by
  have hagrees : Agrees L s
      (ls.foldl Ideal.after ⟨s₀.current, registersOf s₀.cpu.state, first⟩) := by
    refine hrun.history (I := fun ls s => Agrees L s
      (ls.foldl Ideal.after ⟨s₀.current, registersOf s₀.cpu.state, first⟩)) ?_ ?_
    · exact ⟨rfl, h₀.1, rfl, fun t ht hne => ⟨(first t).error, h₀.2 t ht hne⟩⟩
    · intro ls s l s' h hst
      rw [List.foldl_append]
      exact agrees_step h hst
  exact ⟨hagrees.live, hagrees.current⟩

def twoTasks : Layout :=
  .ofPages (fun t => t = 0x10000 ∨ t = 0x20000) 0x30000 0x1234 (by omega) (by omega) (by omega)
    (by omega)

/-- The other task has its turn, and then the first one goes on where it was. -/
theorem preemption_invisible_two : ∃ s₀ s,
    (preemptionLTS twoTasks fun _ => {}).init s₀ ∧
      (preemptionLTS twoTasks fun _ => {}).Run s₀
        [.run { rax := 7 }, .timer 0x20000, .run { rax := 1 }, .timer 0x10000] s ∧
      registersOf s.cpu.state = registersOf { rax := 7 } := by
  let s₀ : Machine := ⟨⟨{}, fun _ => 0⟩, 0x10000⟩
  let s₁ : Machine := ⟨⟨{ rax := 7 }, fun _ => 0⟩, 0x10000⟩
  let s₂ : Machine := ⟨archSwitchState (0x20000 + STATE_OFFSET) ⟨{}, saved twoTasks s₁⟩, 0x20000⟩
  let s₃ : Machine := ⟨⟨{ rax := 1 }, s₂.cpu.mem⟩, 0x20000⟩
  let s₄ : Machine := ⟨archSwitchState (0x10000 + STATE_OFFSET) ⟨{}, saved twoTasks s₃⟩, 0x10000⟩
  have h₀ : (preemptionLTS twoTasks fun _ => {}).init s₀ := by
    refine ⟨.inl rfl, fun t _ _ => ?_⟩
    simp [s₀, stateWords, Mem.At]
  have hrun : (preemptionLTS twoTasks fun _ => {}).Run s₀
      [.run { rax := 7 }, .timer 0x20000, .run { rax := 1 }, .timer 0x10000] s₄ := by
    refine .cons (t := s₁) ⟨rfl, rfl, fun _ _ _ _ _ => rfl⟩ ?_
    refine .cons (t := s₂) ⟨.inr rfl, rfl, {}, _, fun _ _ _ _ => rfl, rfl⟩ ?_
    refine .cons (t := s₃) ⟨rfl, rfl, fun _ _ _ _ _ => rfl⟩ ?_
    exact .cons (t := s₄) ⟨.inl rfl, rfl, {}, _, fun _ _ _ _ => rfl, rfl⟩ (.nil s₄)
  refine ⟨s₀, s₄, h₀, hrun, (preemption_invisible h₀ hrun).1.trans ?_⟩
  simp [Ideal.after, s₀, registersOf]

end GaOS.L4.Entry
