import GaOS.L5Process.Agreement
import GaOS.L5Process.ElfImage

/-!
# The heap grows out of the tasks' address spaces

A task gets the 256 entries of the bootstrap table's upper half as they are when its
table is made (kernel/src/executables/elf.c:66-67, kernel/src/syscalls/sys_fork.c:43-44),
and nothing updates them. `block_allocator_allocate_block`
(kernel/src/memory/physical/block_allocator.c:30-50) maps new blocks in the bootstrap
table only. When a block reaches into an entry of 512 GiB that was not there when a
task was made, the task does not have these pages, and a system call of it that uses
the block faults.

The other way round a task can have pages of the upper half for itself: the stack of an
executable is placed a page below its lowest segment, which for a segment at zero is
the last page of the address space, and a segment that ends with the lower half gets
one page more than it needs, at the first address behind it.

`agree_of_covered` is the condition: what is mapped in the upper half while there are
tasks is below entries that all tables have, and no range reaches the last 2 MiB of the
address space, where `map_range` leaves the table.

Counterexample: the memory ends 2 MiB and a page below 512 GiB, and with the first task
running a block of 2 MiB is allocated.

Fix: allocate all 256 layers of the upper half when the bootstrap table is made.
-/
namespace GaOS.Bugs.KernelAgreement

open GaOS.L1 GaOS.L1.PageAllocator GaOS.L2 GaOS.L2.TableManager GaOS.L3.BlockAllocator
open GaOS.L4.Ustar GaOS.L5 GaOS.L5.Elf GaOS.L5.Agreement

variable {σ : Type} {P : PageSource σ}

/-- Every task's table translates the addresses of the upper half as the bootstrap
table does. -/
def Agree (P : PageSource σ) (s : Kernel σ) : Prop :=
  ∀ t ∈ s.tables, ∀ v, 0xFFFF800000000000 ≤ v → v < 2 ^ 64 →
    translateToPhysical P s.machine t v = translateToPhysical P s.machine s.boot v

/-- The table has the entry of the root for `v`. -/
def HasEntry (s : Kernel σ) (table v : Nat) : Prop :=
  Present (s.machine.mem (entryAddress table (pml3Index v)))

instance (s : Kernel σ) (table v : Nat) : Decidable (HasEntry s table v) :=
  inferInstanceAs (Decidable (Present _))

/-- A range of the boot code that has pages, and one of the heap, ends before the last
2 MiB of the address space; pages that an executable gets in the upper half are below
entries that all tables have; new pages of the heap are below entries that all tasks
have. -/
def Meets (s : Kernel σ) : KernelOp → Prop
  | .mapRange v _ _ count => count ≠ 0 → RangeOk v count
  | .load node header buffer => ∀ segments, programHeaders node header buffer = some segments →
      ∀ v ∈ loadedAddresses segments, 0x100 ≤ pml3Index v →
        ∀ table ∈ s.boot :: s.tables, HasEntry s table v
  | .grow pages => Room s.heap pages ∧ ∀ k < pages, ∀ table ∈ s.tables,
      HasEntry s table (pageAfter (alignPage s.heap.currentVirtualAddress) k)
  | _ => True

/-- The runs whose steps all meet the condition. -/
def coveredLTS (P : PageSource σ) : LTS (Kernel σ) KernelOp where
  init := (kernelSpacesLTS P).init
  step s l t := (kernelSpacesLTS P).step s l t ∧ Meets s l

theorem HasEntry.walk {s : Kernel σ} {table v : Nat} (h : HasEntry s table v) :
    TableManager.walk P.hhdm s.machine.mem table [pml3Index v] ≠ none := by
  unfold HasEntry at h
  simp [TableManager.walk, nextLayer, h]

theorem covered_inductive (P : PageSource σ) :
    (coveredLTS P).Inductive fun s => Spaces P s.boot s.tables s.machine where
  init s h := by
    obtain ⟨hnil, ⟨m, hnew⟩, -⟩ := h
    have htree : Tree P 512 s.machine s.boot := archTableManagerNew_tree hnew
    rw [hnil]
    refine ⟨by simp, fun r hr => ?_, fun r hr r' hr' hne => ?_, by simp, by simp⟩
    · rw [List.mem_singleton.mp hr]
      exact htree
    · exact absurd ((List.mem_singleton.mp hr).trans (List.mem_singleton.mp hr').symm) hne
  step s l t hs h := by
    obtain ⟨hst, hmeets⟩ := h
    cases l with
    | map v p f =>
      obtain ⟨hnil, m', hm, rfl⟩ := hst
      rw [hnil] at hs
      exact (hs.map (List.mem_cons_self ..) hm (fun hn => absurd rfl hn) (by simp)).1
    | mapRange v p f count =>
      obtain ⟨hnil, m', hm, rfl⟩ := hst
      rw [hnil] at hs
      by_cases hc : count = 0
      · subst hc
        exact (hs.mapNone hm).1
      · exact (hs.mapRange (hmeets hc) (fun _ _ _ _ => by simp) hm).1
    | load node header buffer =>
      obtain ⟨-, table, stackBase, m', hl, rfl⟩ := hst
      exact hs.loadImage hl fun segments hseg v hv hi r hr => (hmeets segments hseg v hv hi r hr).walk
    | fork parent =>
      obtain ⟨-, cr3, m', hf, rfl⟩ := hst
      exact hs.fork hf
    | grow pages =>
      obtain ⟨block, heap', ha, rfl⟩ := hst
      exact Spaces.allocateBlock hs hmeets.1 ha fun j _ hj _ t ht =>
        (hmeets.2 j (by omega) t ht).walk
    | other =>
      obtain ⟨m', hu, rfl⟩ := hst
      exact (hs.untouched hu).1

/-- **All address spaces agree on the kernel's half** in every state that is reached by
steps that meet the condition. -/
theorem agree_of_covered {s : Kernel σ} (h : (coveredLTS P).Reachable s) : Agree P s := by
  intro t ht v hlow hhigh
  refine ((covered_inductive P).reachable h).agree ht ?_
  rw [pml3Index_eq, vpn]
  omega

/-! ## Memory that ends below 512 GiB -/

/-- 16 MiB of memory for pages. -/
def lowSource : PageSource Nat :=
  bumpSource 0xFFFF800000000000 4096 hhdm_aligned (by decide) (by decide)

/-- The heap behind the end of the memory map. -/
def heapStart : Nat := 0xFFFF807FFFDFF000

/-- The bootstrap table with a page of the kernel's image. -/
def bootKernel : Option (Kernel Nat) := do
  let (boot, m) ← archTableManagerNew lowSource ⟨fun _ => 0xAA, 0⟩
  let m ← TableManager.mapRange lowSource m boot 0xFFFFFFFF80000000 0x5000 TABLE_ENTRY_READ_WRITE 1
  return ⟨boot, [], ⟨fun _ => 0, m, 0, 0, heapStart, heapStart⟩⟩

def growHeap (pages : Nat) (s : Kernel Nat) : Option (Kernel Nat) :=
  (allocateBlock lowSource s.boot pages s.heap).map fun (_, heap) => { s with heap := heap }

def program : Node := elfNode 0x2000 0x400000 [⟨PT_LOAD, 0x1000, 0x400000, 16, 16⟩]

def programHeader : Ehdr := ⟨ELFMAG, ELFDATA2MSB, ET_EXEC, EM_X86_64, 0x400000, 64, 1⟩

def loadProgram (s : Kernel Nat) : Option (Kernel Nat) :=
  (Elf.loadImage lowSource program programHeader s.boot (fun _ => 0) s.machine).map
    fun (table, _, m) => s.become (table :: s.tables) m

/-- `block_allocator_init` and the first task. -/
def firstTask : Option (Kernel Nat) := do
  let s ← bootKernel
  let s ← growHeap 1 s
  loadProgram s

theorem growHeap_step {pages : Nat} {s t : Kernel Nat} (h : growHeap pages s = some t) :
    (kernelSpacesLTS lowSource).step s (.grow pages) t := by
  rw [growHeap, Option.map_eq_some_iff] at h
  obtain ⟨⟨block, heap⟩, ha, rfl⟩ := h
  exact ⟨block, heap, ha, rfl⟩

theorem program_segments : programHeaders program programHeader (fun _ => 0) =
    some ([⟨PT_LOAD, 0x1000, 0x400000, 16, 16⟩], [⟨PT_LOAD, 0x1000, 0x400000, 16, 16⟩]) := by
  decide +kernel

theorem loadProgram_step {s t : Kernel Nat} (h : loadProgram s = some t) :
    (kernelSpacesLTS lowSource).step s (.load program programHeader fun _ => 0) t := by
  rw [loadProgram, Option.map_eq_some_iff] at h
  obtain ⟨⟨table, stackBase, m⟩, hl, rfl⟩ := h
  refine ⟨fun segments hseg => ?_, table, stackBase, m, hl, rfl⟩
  rw [program_segments] at hseg
  cases hseg
  decide

/-- Its pages are in the lower half. -/
theorem loadProgram_meets (s : Kernel Nat) :
    Meets s (.load program programHeader fun _ => 0) := by
  intro segments hseg v hv hi
  rw [program_segments] at hseg
  cases hseg
  have hlow : ∀ v ∈ loadedAddresses ([⟨PT_LOAD, 0x1000, 0x400000, 16, 16⟩],
      [⟨PT_LOAD, 0x1000, 0x400000, 16, 16⟩]), pml3Index v < 0x100 := by decide
  exact absurd (hlow v hv) (Nat.not_lt.mpr hi)

theorem bootKernel_reachable {s : Kernel Nat} (h : bootKernel = some s) :
    (coveredLTS lowSource).Reachable s := by
  simp only [bootKernel, Option.bind_eq_bind, Option.bind_eq_some_iff, Prod.exists,
    Option.pure_def, Option.some.injEq] at h
  obtain ⟨boot, m, hnew, m', hmap, rfl⟩ := h
  have hinit : (coveredLTS lowSource).Reachable
      ⟨boot, [], ⟨fun _ => 0, m, 0, 0, heapStart, heapStart⟩⟩ := by
    refine .init ⟨rfl, ⟨_, hnew⟩, ?_⟩
    show heapStart % PAGE = 0 ∧ 0xFFFF800000000000 ≤ heapStart ∧ heapStart < 2 ^ 64
    decide
  refine hinit.step (l := .mapRange 0xFFFFFFFF80000000 0x5000 TABLE_ENTRY_READ_WRITE 1)
    ⟨⟨rfl, m', hmap, rfl⟩, ?_⟩
  show 1 ≠ 0 → RangeOk 0xFFFFFFFF80000000 1
  decide

theorem bootKernel_tables {s : Kernel Nat} (h : bootKernel = some s) : s.tables = [] := by
  simp only [bootKernel, Option.bind_eq_bind, Option.bind_eq_some_iff, Prod.exists,
    Option.pure_def, Option.some.injEq] at h
  obtain ⟨_, _, _, _, _, rfl⟩ := h
  rfl

theorem bootKernel_room {s : Kernel Nat} (h : bootKernel = some s) : Room s.heap 1 := by
  simp only [bootKernel, Option.bind_eq_bind, Option.bind_eq_some_iff, Prod.exists,
    Option.pure_def, Option.some.injEq] at h
  obtain ⟨_, _, _, _, _, rfl⟩ := h
  show RangeOk (alignPage heapStart) 1
  decide

/-- Up to the first task all is well. -/
theorem firstTask_reachable {s : Kernel Nat} (h : firstTask = some s) :
    (coveredLTS lowSource).Reachable s := by
  simp only [firstTask, Option.bind_eq_bind, Option.bind_eq_some_iff] at h
  obtain ⟨s₁, h₁, s₂, h₂, h₃⟩ := h
  have hr₁ := bootKernel_reachable h₁
  have hmeets : Meets s₁ (.grow 1) := by
    refine ⟨bootKernel_room h₁, fun k _ t ht => ?_⟩
    rw [bootKernel_tables h₁] at ht
    cases ht
  have hr₂ := hr₁.step (l := .grow 1) ⟨growHeap_step h₂, hmeets⟩
  exact hr₂.step (l := .load program programHeader fun _ => 0)
    ⟨loadProgram_step h₃, loadProgram_meets s₂⟩

/-- A block of one page next to the first one. -/
theorem agree_small : ∃ s : Kernel Nat, (coveredLTS lowSource).Reachable s ∧ s.tables ≠ [] ∧
    Agree lowSource s := by
  have hone : (firstTask.bind (growHeap 1)).map (fun u => u.tables.length) = some 1 := by
    decide +kernel
  have hentry : firstTask.map (fun s => decide (Room s.heap 1 ∧ ∀ k < 1, ∀ table ∈ s.tables,
      HasEntry s table (pageAfter (alignPage s.heap.currentVirtualAddress) k))) = some true := by
    decide +kernel
  obtain ⟨u, hu, hlen⟩ := Option.map_eq_some_iff.mp hone
  obtain ⟨s, hs, hg⟩ := Option.bind_eq_some_iff.mp hu
  rw [hs, Option.map_some, Option.some.injEq, decide_eq_true_eq] at hentry
  have hmeets : Meets s (.grow 1) := hentry
  have hreach := (firstTask_reachable hs).step (l := .grow 1) ⟨growHeap_step hg, hmeets⟩
  refine ⟨u, hreach, fun hnil => ?_, agree_of_covered hreach⟩
  rw [hnil] at hlen
  cases hlen

/-- **A block across 512 GiB.** The last of its pages is mapped in the bootstrap table, and
the task does not have it. -/
theorem block_across_boundary : ∃ s : Kernel Nat, (kernelSpacesLTS lowSource).Reachable s ∧
    ¬Agree lowSource s := by
  have hlast : (firstTask.bind (growHeap 513)).map (fun u =>
      decide (∃ t ∈ u.tables, translateToPhysical lowSource u.machine t 0xFFFF808000000000 ≠
        translateToPhysical lowSource u.machine u.boot 0xFFFF808000000000)) = some true := by
    decide +kernel
  obtain ⟨u, hu, hne⟩ := Option.map_eq_some_iff.mp hlast
  obtain ⟨s, hs, hg⟩ := Option.bind_eq_some_iff.mp hu
  have hr : (kernelSpacesLTS lowSource).Reachable s :=
    (firstTask_reachable hs).mono (fun _ hi => hi) fun _ _ _ h => h.1
  obtain ⟨t, ht, hne⟩ := of_decide_eq_true hne
  exact ⟨u, hr.step (growHeap_step hg), fun ha => hne (ha t ht _ (by decide) (by decide))⟩

end GaOS.Bugs.KernelAgreement
