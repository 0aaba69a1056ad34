import GaOS.L4Sched.PageFault

/-!
# A fault on a page that is there replaces it

`arch_isr_handler` (kernel/src/arch/x86_64/idt/idt.c:36-53) takes every page fault in user
mode between 0x1000 and `virtual_stack_top` for a stack that has to grow. It does not look
at the error code, whose first bit says that the page is present (line 64 reads it, for the
message of the panic only). A write to a page that may only be read, or a jump into the
stack, which `elf_load_from` maps with `TABLE_ENTRY_NO_EXECUTE`, is such a fault as well:
`arch_table_manager_map` then puts a page of zeros in the place of the old one, keeps the
flag that caused the fault, and the task faults again at the same instruction.

`grows_only_iff_absent` is the exact condition: the page of the fault address was absent.

Counterexample: a task executes its stack.

Fix: `if (!(state->error & 1) && cr2 >= 0x1000 && ...)`.
-/
namespace GaOS.Bugs.StackGrowth

open GaOS.L1 GaOS.L1.PageAllocator GaOS.L2.TableManager GaOS.L4.RoundRobin GaOS.L4.PageFault

variable {σ : Type} {P : PageSource σ} {m m' : Machine σ}

/-- Every page that was present keeps its entry, and the page of `cr2` is the one that has
become present. -/
structure GrowsOnly (P : PageSource σ) (root cr2 : Nat) (m m' : Machine σ) : Prop where
  kept : ∀ v, Present (leafEntry P.hhdm m.mem root v) →
    leafEntry P.hhdm m'.mem root v = leafEntry P.hhdm m.mem root v
  grown : ∀ v, ¬Present (leafEntry P.hhdm m.mem root v) ∧
    Present (leafEntry P.hhdm m'.mem root v) ↔ vpn v = vpn cr2

/-- **Stack growth replaces no page iff the page was absent.** For every table of a task and
every page fault in user mode after which the handler goes back to the task. -/
theorem grows_only_iff_absent {task : Running} {state : CpuState} {cr2 : Nat}
    (ht : Tree P 512 m (add64 task.cr3 P.hhdm)) (hcs : state.cs &&& 3 ≠ 0)
    (h : Extends P task state cr2 m m') :
    GrowsOnly P (add64 task.cr3 P.hhdm) cr2 m m' ↔
      ¬Present (leafEntry P.hhdm m.mem (add64 task.cr3 P.hhdm) cr2) := by
  obtain ⟨-, -, hgrow⟩ := (extends_iff hcs).mp h
  obtain ⟨⟨page, hself⟩, hother⟩ := growStack_leaf ht hgrow
  have hpresent : Present (leafEntry P.hhdm m'.mem (add64 task.cr3 P.hhdm) cr2) := by
    rw [hself]
    exact present_mapped _ _ _
  constructor
  · intro hg
    exact ((hg.grown cr2).mpr rfl).1
  · intro habsent
    refine ⟨fun v hv => hother v fun he => ?_, fun v => ⟨fun hv => ?_, fun he => ?_⟩⟩
    · rw [leafEntry_congr _ _ he] at hv
      exact habsent hv
    · by_contra hne
      rw [hother v hne] at hv
      exact hv.1 hv.2
    · rw [leafEntry_congr _ _ he, leafEntry_congr _ m'.mem he]
      exact ⟨habsent, hpresent⟩

/-! ## Inputs -/

/-- A task whose stack ends at 0x400000. -/
def stackTask : Running := ⟨1, "/init.elf", sub64 smallTable.root smallSource.hhdm, 0x400000⟩

/-- User mode, with an error code. -/
def userState (error : Nat) : CpuState := { error := error, cs := 8 * 4 ||| 3 }

theorem stackTask_root : add64 stackTask.cr3 smallSource.hhdm = smallTable.root := by
  decide +kernel

/-- The stack of the task reaches a new page. -/
theorem grows_only_new_page : ∃ m',
    Extends smallSource stackTask (userState 6) 0x3FE800 smallTable.machine m' ∧
      GrowsOnly smallSource smallTable.root 0x3FE800 smallTable.machine m' := by
  have ht := (table_inductive smallSource).reachable smallTable_reachable
  rw [← stackTask_root] at ht ⊢
  have hcs : (userState 6).cs &&& 3 ≠ 0 := by decide
  obtain ⟨m', hgrow⟩ := Option.isSome_iff_exists.mp (show
    (growStack smallSource smallTable.machine stackTask.cr3 0x3FE800).isSome by decide +kernel)
  have h : Extends smallSource stackTask (userState 6) 0x3FE800 smallTable.machine m' :=
    (extends_iff hcs).mpr ⟨by decide, by decide, hgrow⟩
  exact ⟨m', h, (grows_only_iff_absent ht hcs h).mpr (by decide +kernel)⟩

/-- **Counterexample**: the stack page at 0x3FF000 is mapped as `elf_load_from` does it, and
the task jumps into it (error code 0x15). The handler goes back to the task, and the page
has another frame. -/
theorem executed_stack_replaced : ∃ m m',
    map smallSource smallTable.machine smallTable.root 0x3FF000 0x9000
      (TABLE_ENTRY_USER ||| TABLE_ENTRY_READ_WRITE ||| TABLE_ENTRY_NO_EXECUTE) = some m ∧
    Tree smallSource 512 m smallTable.root ∧
    Extends smallSource stackTask (userState 0x15) 0x3FF800 m m' ∧
    translateToPhysical smallSource m smallTable.root 0x3FF800 = 0x9000 ∧
    translateToPhysical smallSource m' smallTable.root 0x3FF800 ≠ 0x9000 ∧
    ¬GrowsOnly smallSource smallTable.root 0x3FF800 m m' := by
  have ht := (table_inductive smallSource).reachable smallTable_reachable
  have hrun : ((map smallSource smallTable.machine smallTable.root 0x3FF000 0x9000
      (TABLE_ENTRY_USER ||| TABLE_ENTRY_READ_WRITE ||| TABLE_ENTRY_NO_EXECUTE)).bind fun m =>
        (growStack smallSource m stackTask.cr3 0x3FF800).map fun m' =>
          (translateToPhysical smallSource m smallTable.root 0x3FF800,
            translateToPhysical smallSource m' smallTable.root 0x3FF800,
            decide (Present (leafEntry smallSource.hhdm m.mem smallTable.root 0x3FF800)))) =
      some (0x9000, 0x5000, true) := by decide +kernel
  simp only [Option.bind_eq_some_iff, Option.map_eq_some_iff, Prod.mk.injEq] at hrun
  obtain ⟨m, hm, m', hgrow, hold, hnew, hp⟩ := hrun
  have hcs : (userState 0x15).cs &&& 3 ≠ 0 := by decide
  refine ⟨m, m', hm, (map_spec ht (pml3Index_lt _) hm).1.tree,
    (extends_iff hcs).mpr ⟨by decide, by decide, hgrow⟩, hold, ?_, fun hg => ?_⟩
  · rw [hnew]
    decide
  · exact ((hg.grown 0x3FF800).mpr rfl).1 (of_decide_eq_true hp)

end GaOS.Bugs.StackGrowth
