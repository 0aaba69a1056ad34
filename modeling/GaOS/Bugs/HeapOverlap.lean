import GaOS.L3Heap.BootHeap

/-!
# The heap can grow over the registers of devices

`block_allocator_find_lowest_free_virtual_address_limine`
(kernel/src/memory/physical/block_allocator.c:137-151) lets the heap start behind the last
entry of the memory map, "to choose an address above all of those in the map". But
`arch_xapic_init` and `arch_hpet_init` have mapped registers into the direct map as well, at
physical addresses that the memory map need not mention (0xFEE00000 for the xAPIC), and the
kernel's image is above the direct map. Nothing stops the heap from growing into these
pages: `arch_table_manager_map_range` then puts memory in their place.

`maps_unmapped_iff_avoids` is the exact condition for every block in every run: its pages are
none of the xAPIC's, the HPET's and the image's. The pages of the memory map itself are
never covered.

Counterexample: a memory map that ends at 0xFEE00000. The first block of the heap is mapped
over the registers of the xAPIC.

Fix: start the heap above the image, or at an offset of its own that neither the direct map
nor the image reaches.
-/
namespace GaOS.Bugs.HeapOverlap

open GaOS.L1 GaOS.L1.PageAllocator GaOS.L2.TableManager GaOS.L2.Bootstrap GaOS.L3.BlockAllocator
open GaOS.L3.BootHeap

variable {σ : Type} {P : PageSource σ} {info : BootInfo} {dev : Devices} {s t : Kernel σ}
  {pages : Nat}

/-- The pages of the next block. -/
def blockPage (s : Kernel σ) (k : Nat) : Nat :=
  pageAfter (alignPage s.heap.currentVirtualAddress) k

/-- The pages of the next block are not mapped. -/
def MapsUnmapped (P : PageSource σ) (s : Kernel σ) (pages : Nat) : Prop :=
  ∀ k, k < pages → ¬Present (leafEntry P.hhdm s.heap.machine.mem s.boot (blockPage s k))

/-- They are no page of the registers or of the image. -/
def Avoids (P : PageSource σ) (info : BootInfo) (dev : Devices) (s : Kernel σ) (pages : Nat) :
    Prop :=
  ∀ k, k < pages → ¬Fixed P info dev (blockPage s k)

/-- They are no page that the direct map has for the memory map. -/
def AboveMap (P : PageSource σ) (info : BootInfo) (s : Kernel σ) (pages : Nat) : Prop :=
  ∀ k, k < pages → ∀ e ∈ info.memmap, ∀ a, a < e.base + e.length →
    vpn (blockPage s k) ≠ vpn (P.hhdm + a)

theorem vpn_blockPage (h : Below P info dev s)
    (hr : RangeOk (alignPage s.heap.currentVirtualAddress) pages) {k : Nat} (hk : k < pages) :
    vpn (blockPage s k) = vpn s.heap.currentVirtualAddress + k := by
  obtain ⟨hcur, hroom⟩ := h.range hr
  rw [blockPage, hcur, vpn_pageAfter]
  omega

/-- **The heap maps unmapped pages iff it avoids the fixed ones.** For every memory map that
is sorted and without overlaps, every run after the boot sequence and every block that the
heap grows by in it: the pages of the block were unmapped just before iff none of them is a
page of the xAPIC's or the HPET's registers or of the kernel's image. They are never pages of
the memory map in the direct map. -/
theorem maps_unmapped_iff_avoids (hm : SortedMap P info)
    (hs : (bootHeapLTS P info dev).Reachable s)
    (hst : (bootHeapLTS P info dev).step s (.grow pages) t) :
    (MapsUnmapped P s pages ↔ Avoids P info dev s pages) ∧ AboveMap P info s pages := by
  have h := (below_inductive hm).reachable hs
  obtain ⟨hr, -⟩ := hst.2
  refine ⟨⟨fun hun k hk hfix => ?_, fun hav k hk hp => ?_⟩, fun k hk e he a hlt hv => ?_⟩
  · exact hun k hk (h.fixed _ hfix)
  · rcases h.present _ hp with hlt | hfix
    · rw [vpn_blockPage h hr hk] at hlt
      omega
    · exact hav k hk hfix
  · have hu := hm.upper
    have habove := h.above e he
    have hlt64 := h.lt
    have hcur := vpn_direct (P := P) hu (a := s.heap.currentVirtualAddress - P.hhdm) (by omega)
    have haddr := vpn_direct (P := P) hu (a := a) (by omega)
    rw [Nat.add_sub_cancel' (by omega)] at hcur
    rw [vpn_blockPage h hr hk, haddr, hcur] at hv
    have hal := h.aligned
    have hhal := P.hhdm_aligned
    simp only [PAGE] at *
    omega

/-! ## Inputs -/

/-- The boot sequence up to the heap, on 64 pages. -/
def bootKernel (info : BootInfo) (dev : Devices) : Option (Kernel Nat) := do
  let (boot, m) ← createBootstrapTable smallSource info ⟨fun _ => 0, 0⟩
  let m ← archXapicInit smallSource dev boot m
  let m ← archHpetInit smallSource dev boot m
  let highest ← info.memmap.getLast?
  let base := findLowestFreeVirtualAddress smallSource highest
  return ⟨boot, ⟨fun _ => 0, m, 0, 0, base, base⟩⟩

theorem bootKernel_init {s : Kernel Nat} (h : bootKernel info dev = some s) :
    (bootHeapLTS smallSource info dev).init s := by
  simp only [bootKernel, Option.bind_eq_bind, Option.bind_eq_some_iff, Option.pure_def,
    Option.some.injEq, Prod.exists] at h
  obtain ⟨boot, m₁, hboot, m₂, hx, m₃, hh, highest, hl, rfl⟩ := h
  exact ⟨_, m₁, m₂, m₃, _, highest, hboot, hx, hh, hl, rfl⟩

/-- A machine with an HPET. -/
def pcDevices : Devices := ⟨0xFEE00900, some ⟨0, 0xFED00000⟩⟩

/-- The memory map ends with the image. -/
def lowBoot : BootInfo :=
  ⟨[⟨0x1000, 0x3000, .usable⟩, ⟨0x200000, 0x1000, .executableAndModules⟩], 0x200000,
    0xFFFFFFFF80000000⟩

/-- Its last entry ends at the registers of the xAPIC. -/
def edgeBoot : BootInfo :=
  ⟨[⟨0x1000, 0x3000, .usable⟩, ⟨0x200000, 0x1000, .executableAndModules⟩,
    ⟨0xFEDFF000, 0x1000, .other⟩], 0x200000, 0xFFFFFFFF80000000⟩

theorem lowBoot_sorted : SortedMap smallSource lowBoot where
  upper := by decide
  direct := by decide
  image := by decide
  aligned := by decide
  above := by decide
  room := by decide
  sorted := by decide
  physical := by decide

theorem edgeBoot_sorted : SortedMap smallSource edgeBoot where
  upper := by decide
  direct := by decide
  image := by decide
  aligned := by decide
  above := by decide
  room := by decide
  sorted := by decide
  physical := by decide

/-- Below the registers the first block of the heap is mapped to where nothing was. -/
theorem low_heap_unmapped : ∃ s t, (bootHeapLTS smallSource lowBoot pcDevices).Reachable s ∧
    (bootHeapLTS smallSource lowBoot pcDevices).step s (.grow 1) t ∧
    MapsUnmapped smallSource s 1 := by
  have hrun : ((bootKernel lowBoot pcDevices).bind fun s =>
      (allocateBlock smallSource s.boot 1 s.heap).map fun _ =>
        (decide (Room s.heap 1), blockPage s 0)) =
      some (true, 0xFFFF800000201000) := by decide +kernel
  simp only [Option.bind_eq_some_iff, Option.map_eq_some_iff, Prod.exists, Prod.mk.injEq] at hrun
  obtain ⟨s, hboot, b, heap, ha, hroom, hpage⟩ := hrun
  have hst : (bootHeapLTS smallSource lowBoot pcDevices).step s (.grow 1) ⟨s.boot, heap⟩ :=
    ⟨rfl, of_decide_eq_true hroom, b, ha⟩
  have hs := LTS.Reachable.init (bootKernel_init hboot)
  refine ⟨s, _, hs, hst, (maps_unmapped_iff_avoids lowBoot_sorted hs hst).1.mpr fun k hk => ?_⟩
  have hk0 : k = 0 := by omega
  rw [hk0, hpage]
  intro hfix
  rcases hfix with hv | ⟨hpet, hsome, -, hv⟩ | ⟨e, he, -, hlo, -⟩
  · revert hv
    decide
  · cases hsome
    revert hv
    decide
  · revert hlo
    decide

/-- **Counterexample**: the first block of the heap is mapped over the xAPIC's registers, which
then lead to ordinary memory. -/
theorem heap_over_xapic : ∃ s t, SortedMap smallSource edgeBoot ∧
    (bootHeapLTS smallSource edgeBoot pcDevices).Reachable s ∧
    (bootHeapLTS smallSource edgeBoot pcDevices).step s (.grow 1) t ∧
    translateToPhysical smallSource s.heap.machine s.boot (add64 XAPIC_BASE smallSource.hhdm) =
      XAPIC_BASE ∧
    translateToPhysical smallSource t.heap.machine t.boot (add64 XAPIC_BASE smallSource.hhdm) ≠
      XAPIC_BASE ∧
    ¬MapsUnmapped smallSource s 1 := by
  have hrun : ((bootKernel edgeBoot pcDevices).bind fun s =>
      (allocateBlock smallSource s.boot 1 s.heap).map fun r =>
        (translateToPhysical smallSource s.heap.machine s.boot (add64 XAPIC_BASE smallSource.hhdm),
          decide (translateToPhysical smallSource r.2.machine s.boot
            (add64 XAPIC_BASE smallSource.hhdm) = XAPIC_BASE),
          decide (Present (leafEntry smallSource.hhdm s.heap.machine.mem s.boot
            (blockPage s 0))), decide (Room s.heap 1))) =
      some (XAPIC_BASE, false, true, true) := by decide +kernel
  simp only [Option.bind_eq_some_iff, Option.map_eq_some_iff, Prod.exists, Prod.mk.injEq] at hrun
  obtain ⟨s, hboot, b, heap, ha, hold, hnew, hp, hroom⟩ := hrun
  exact ⟨s, ⟨s.boot, heap⟩, edgeBoot_sorted, .init (bootKernel_init hboot),
    ⟨rfl, of_decide_eq_true hroom, b, ha⟩, hold, of_decide_eq_false hnew,
    fun hun => hun 0 (by decide) (of_decide_eq_true hp)⟩

end GaOS.Bugs.HeapOverlap
