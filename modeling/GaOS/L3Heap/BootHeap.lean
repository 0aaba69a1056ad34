import GaOS.L2Paging.Bootstrap
import GaOS.L3Heap.HeapInv

/-!
# Where the heap grows

The boot sequence up to the heap: the bootstrap table, the page of the xAPIC's registers
(`arch_xapic_init`, kernel/src/arch/x86_64/xapic/xapic.c:25-60), that of the HPET's
(`arch_hpet_init`, kernel/src/arch/x86_64/timers/hpet.c:62-85), and the address behind the
last entry of the memory map, from which the heap grows upwards
(kernel/src/memory/physical/block_allocator.c:137-151).

`bootHeapLTS` is the kernel from there on: the heap grows (`block_allocator_allocate_block`)
by a range that `map_range` can map, and between that anything happens that leaves the
bootstrap table alone.
`blockAllocatorInit_run`, `blockAllocate_run` and `blockDeallocate_run` show the functions
of the allocator as such runs.

`Below` is the invariant: what is mapped is below the end of the heap, or one of the pages
that were mapped at fixed addresses, and these are all still mapped.
-/
namespace GaOS.L3.BootHeap

open GaOS.L1 GaOS.L1.PageAllocator GaOS.L2.TableManager GaOS.L2.Bootstrap GaOS.L3.BlockAllocator

/-! ## The boot sequence -/

/-- mirrors kernel/src/arch/x86_64/xapic/xapic.h:21 -/
def XAPIC_BASE : Nat := 0xFEE00000

/-- mirrors kernel/src/arch/x86_64/page_table_manager/table_manager.h:12 -/
def TABLE_ENTRY_CACHE_DISABLE : Nat := 1 <<< 4

/-- mirrors kernel/src/acpi/acpi.h:4 -/
def ACPI_ADDRESS_SPACE_SYSTEM_MEMORY : Nat := 0

/-- `base_address` of the table. -/
structure Hpet where
  addressSpace : Nat
  address : Nat

structure Devices where
  /-- `rdmsr(MSR_APIC_BASE)` -/
  apicBase : Nat
  /-- `acpi_get_table("HPET")` -/
  hpet : Option Hpet

section
variable {σ : Type} (P : PageSource σ) (dev : Devices)

/-- `none` is the panic about the address.
mirrors kernel/src/arch/x86_64/xapic/xapic.c:25-60 -/
def archXapicInit (boot : Nat) (m : Machine σ) : Option (Machine σ) :=
  if dev.apicBase &&& 0xFFFFF000 ≠ XAPIC_BASE then none
  else map P m boot (add64 XAPIC_BASE P.hhdm) XAPIC_BASE
    (TABLE_ENTRY_READ_WRITE ||| TABLE_ENTRY_CACHE_DISABLE)

/-- mirrors kernel/src/arch/x86_64/timers/hpet.c:62-85 -/
def archHpetInit (boot : Nat) (m : Machine σ) : Option (Machine σ) :=
  match dev.hpet with
  | none => some m
  | some hpet =>
    if hpet.addressSpace ≠ ACPI_ADDRESS_SPACE_SYSTEM_MEMORY then some m
    else map P m boot (add64 hpet.address P.hhdm) hpet.address
      (TABLE_ENTRY_READ_WRITE ||| TABLE_ENTRY_CACHE_DISABLE)

/-- mirrors kernel/src/memory/physical/block_allocator.c:137-151 -/
def findLowestFreeVirtualAddress (highest : MemmapEntry) : Nat :=
  alignPage (add64 (add64 highest.base highest.length) P.hhdm)

end

/-! ## The heap in use -/

/-- The bootstrap table and the heap. -/
structure Kernel (σ : Type) where
  boot : Nat
  heap : Heap σ

inductive HeapStep where
  /-- `block_allocator_allocate_block` -/
  | grow (pages : Nat)
  /-- lists and payloads, and the rest of the kernel away from the table -/
  | other

def bootHeapLTS {σ : Type} (P : PageSource σ) (info : BootInfo) (dev : Devices) :
    LTS (Kernel σ) HeapStep where
  init s := ∃ m m₁ m₂ machine mem highest, createBootstrapTable P info m = some (s.boot, m₁) ∧
    archXapicInit P dev s.boot m₁ = some m₂ ∧ archHpetInit P dev s.boot m₂ = some machine ∧
    info.memmap.getLast? = some highest ∧
    s.heap = ⟨mem, machine, 0, 0, findLowestFreeVirtualAddress P highest,
      findLowestFreeVirtualAddress P highest⟩
  step s l t := t.boot = s.boot ∧ match l with
    | .grow pages => Room s.heap pages ∧
        ∃ block, allocateBlock P s.boot pages s.heap = some (block, t.heap)
    | .other => t.heap.currentVirtualAddress = s.heap.currentVirtualAddress ∧
        Untouched P 512 s.boot s.heap.machine t.heap.machine

variable {σ : Type} {P : PageSource σ} {info : BootInfo} {dev : Devices} {boot : Nat}
  {h h' : Heap σ}

/-! ## The allocator's functions as runs -/

/-- Only the memory of the heap and its lists differ. -/
structure SameSpace (h h' : Heap σ) : Prop where
  machine : h'.machine = h.machine
  current : h'.currentVirtualAddress = h.currentVirtualAddress

theorem untouched_refl {m : Machine σ} {root : Nat} (ht : Tree P 512 m root) :
    Untouched P 512 root m m :=
  fun p a hp hw => ⟨fun _ _ _ => rfl, (ht.layer p a hp hw).taken⟩

theorem pushBlock_space (list : BlockList) (b : Nat) (h : Heap σ) :
    SameSpace h (pushBlock list b h) := by
  cases list <;> exact ⟨rfl, rfl⟩

theorem moveTo_space (list : BlockList) (b : Nat) (h : Heap σ) : SameSpace h (moveTo list b h) := by
  cases list <;> exact ⟨rfl, rfl⟩

theorem step_space (ht : Tree P 512 h.machine boot) (hs : SameSpace h h') :
    (bootHeapLTS P info dev).step ⟨boot, h⟩ .other ⟨boot, h'⟩ := by
  refine ⟨rfl, hs.current, ?_⟩
  rw [hs.machine]
  exact untouched_refl ht

/-- What `allocate_block` does to the table. -/
theorem allocateBlock_maps {pages b : Nat} (hs : allocateBlock P boot pages h = some (b, h')) :
    ∃ page m₁, h.machine.pageAllocate P pages = some (page, m₁) ∧
      mapRange P m₁ boot (alignPage h.currentVirtualAddress) (sub64 page P.hhdm)
        TABLE_ENTRY_READ_WRITE pages = some h'.machine ∧
      h'.currentVirtualAddress =
        add64 (alignPage h.currentVirtualAddress) (mul64 pages PAGE) := by
  obtain ⟨rfl, -, page, m₁, machine, hpage, hmap, rfl⟩ := allocateBlock_cases hs
  exact ⟨page, m₁, hpage, hmap, rfl⟩

/-- After a block the table is a tree, and has the pages of the block in addition. -/
theorem allocateBlock_table {pages b : Nat} (ht : Tree P 512 h.machine boot) (hr : Room h pages)
    (hs : allocateBlock P boot pages h = some (b, h')) :
    Tree P 512 h'.machine boot ∧ ∀ v, Present (leafEntry P.hhdm h'.machine.mem boot v) ↔
      Present (leafEntry P.hhdm h.machine.mem boot v) ∨
        vpn (alignPage h.currentVirtualAddress) ≤ vpn v ∧
          vpn v < vpn (alignPage h.currentVirtualAddress) + pages := by
  obtain ⟨page, m₁, hpage, hmap, -⟩ := allocateBlock_maps hs
  have hlt : pages < 2 ^ 64 := by
    have hroom := hr
    simp only [Room, RangeOk, PAGE] at hroom
    omega
  have hu := untouched_allocate ht hlt hpage
  obtain ⟨m₂, -, -, hg, -⟩ := mapRange_some (hu.tree ht) hr hmap
  refine ⟨hg.tree, fun v => ?_⟩
  rw [mapRange_present (hu.tree ht) hr hmap v, hu.leafEntry (pml3Index_lt v)]

theorem createFreeBlock_run {pages b : Nat} (ht : Tree P 512 h.machine boot) (hr : Room h pages)
    (hs : createFreeBlock P boot pages h = some (b, h')) :
    (bootHeapLTS P info dev).Run ⟨boot, h⟩ [.grow pages, .other] ⟨boot, h'⟩ ∧
      Tree P 512 h'.machine boot := by
  obtain ⟨h₁, ha, rfl⟩ := createFreeBlock_some hs
  have ht₁ := (allocateBlock_table ht hr ha).1
  have hsame := pushBlock_space .free b { h₁ with mem := initHeader h₁.mem b pages }
  have h1 : (bootHeapLTS P info dev).step ⟨boot, h⟩ (.grow pages) ⟨boot, h₁⟩ :=
    ⟨rfl, hr, b, ha⟩
  have h2 : (bootHeapLTS P info dev).step ⟨boot, h₁⟩ .other
      ⟨boot, pushBlock .free b { h₁ with mem := initHeader h₁.mem b pages }⟩ :=
    step_space ht₁ ⟨hsame.machine, hsame.current⟩
  exact ⟨.cons h1 (.cons h2 (.nil _)), hsame.machine ▸ ht₁⟩

/-- `block_allocator_init` is the first growth. -/
theorem blockAllocatorInit_run {highest : MemmapEntry} {mem : Mem} {machine : Machine σ}
    (ht : Tree P 512 machine boot)
    (hr : Room (⟨mem, machine, 0, 0, findLowestFreeVirtualAddress P highest,
      findLowestFreeVirtualAddress P highest⟩ : Heap σ) 1)
    (hs : blockAllocatorInit P boot highest mem machine = some h) :
    (bootHeapLTS P info dev).Run
      ⟨boot, mem, machine, 0, 0, findLowestFreeVirtualAddress P highest,
        findLowestFreeVirtualAddress P highest⟩ [.grow 1, .other] ⟨boot, h⟩ := by
  simp only [blockAllocatorInit, Option.bind_eq_bind, Option.bind_eq_some_iff, Option.pure_def,
    Option.some.injEq, Prod.exists] at hs
  obtain ⟨b, h₁, hc, rfl⟩ := hs
  exact (createFreeBlock_run ht hr hc).1

/-- An allocation grows the heap at most once. -/
theorem blockAllocate_run {sz q : Nat} (ht : Tree P 512 h.machine boot)
    (hr : RoomToGrow h (roundSize sz))
    (hs : blockAllocate P boot sz h = some (q, h')) :
    ∃ ls, (bootHeapLTS P info dev).Run ⟨boot, h⟩ ls ⟨boot, h'⟩ := by
  simp only [blockAllocate, Option.bind_eq_bind, Option.bind_eq_some_iff, Option.pure_def,
    Option.some.injEq, Prod.mk.injEq, Prod.exists] at hs
  obtain ⟨b, h₁, hchoose, -, rfl⟩ := hs
  obtain ⟨ls, hrun, ht₁⟩ : ∃ ls, (bootHeapLTS P info dev).Run ⟨boot, h⟩ ls ⟨boot, h₁⟩ ∧
      Tree P 512 h₁.machine boot := by
    simp only [chooseBlock, Option.bind_eq_bind, Option.bind_eq_some_iff] at hchoose
    obtain ⟨c, hfind, hc⟩ := hchoose
    split at hc
    · rename_i h0
      exact ⟨_, createFreeBlock_run ht (hr (h0 ▸ hfind)) hc⟩
    · cases hc
      exact ⟨[], .nil _, ht⟩
  have hsame := moveTo_space .busy b { h₁ with mem := splitBlock b (roundSize sz) h₁.mem }
  refine ⟨ls ++ [.other], hrun.snoc ?_⟩
  exact step_space ht₁ ⟨hsame.machine, hsame.current⟩

theorem blockDeallocate_run (q : Nat) (ht : Tree P 512 h.machine boot) :
    (bootHeapLTS P info dev).Run ⟨boot, h⟩ [.other] ⟨boot, blockDeallocate q h⟩ := by
  have hsame : SameSpace h (blockDeallocate q h) := by
    unfold blockDeallocate
    split
    · exact ⟨rfl, rfl⟩
    · simp only
      split
      · exact ⟨rfl, rfl⟩
      · split
        · exact moveTo_space .free _ h
        · exact ⟨rfl, rfl⟩
  exact .cons (step_space ht hsame) (.nil _)

/-! ## What is mapped -/

/-- Pages that are mapped before the heap, away from the memory map. -/
def Fixed (P : PageSource σ) (info : BootInfo) (dev : Devices) (v : Nat) : Prop :=
  vpn v = vpn (add64 XAPIC_BASE P.hhdm) ∨
    (∃ hpet, dev.hpet = some hpet ∧ hpet.addressSpace = ACPI_ADDRESS_SPACE_SYSTEM_MEMORY ∧
      vpn v = vpn (add64 hpet.address P.hhdm)) ∨
    InImage info v

/-- What the boot protocol says of the memory map: the entries are sorted and do not
overlap, and all physical memory is in the direct map. -/
structure SortedMap (P : PageSource σ) (info : BootInfo) : Prop extends Bootable P info where
  sorted : info.memmap.Pairwise fun e e' => e.base + e.length ≤ e'.base
  physical : ∀ e ∈ info.memmap, P.hhdm + (e.base + e.length) ≤ info.virtualBase

/-- The table and the heap after the boot sequence. -/
structure Below (P : PageSource σ) (info : BootInfo) (dev : Devices) (s : Kernel σ) : Prop where
  tree : Tree P 512 s.heap.machine s.boot
  aligned : s.heap.currentVirtualAddress % PAGE = 0
  lt : s.heap.currentVirtualAddress < 2 ^ 64
  above : ∀ e ∈ info.memmap, P.hhdm + (e.base + e.length) ≤ s.heap.currentVirtualAddress
  present : ∀ v, Present (leafEntry P.hhdm s.heap.machine.mem s.boot v) →
    vpn v < vpn s.heap.currentVirtualAddress ∨ Fixed P info dev v
  fixed : ∀ v, Fixed P info dev v → Present (leafEntry P.hhdm s.heap.machine.mem s.boot v)

theorem archXapicInit_present {m m' : Machine σ} (ht : Tree P 512 m boot)
    (h : archXapicInit P dev boot m = some m') :
    Tree P 512 m' boot ∧ ∀ v, Present (leafEntry P.hhdm m'.mem boot v) ↔
      Present (leafEntry P.hhdm m.mem boot v) ∨ vpn v = vpn (add64 XAPIC_BASE P.hhdm) := by
  unfold archXapicInit at h
  split at h
  · cases h
  · exact ⟨(map_spec ht (pml3Index_lt _) h).1.tree, map_present ht h⟩

theorem archHpetInit_present {m m' : Machine σ} (ht : Tree P 512 m boot)
    (h : archHpetInit P dev boot m = some m') :
    Tree P 512 m' boot ∧ ∀ v, Present (leafEntry P.hhdm m'.mem boot v) ↔
      Present (leafEntry P.hhdm m.mem boot v) ∨
        ∃ hpet, dev.hpet = some hpet ∧ hpet.addressSpace = ACPI_ADDRESS_SPACE_SYSTEM_MEMORY ∧
          vpn v = vpn (add64 hpet.address P.hhdm) := by
  unfold archHpetInit at h
  cases hd : dev.hpet with
  | none =>
    simp only [hd, Option.some.injEq] at h
    subst h
    exact ⟨ht, fun v => by simp⟩
  | some hpet =>
    simp only [hd] at h
    split at h
    · rename_i hne
      cases h
      exact ⟨ht, fun v => by simp [hne]⟩
    · rename_i hsys
      rw [not_not] at hsys
      refine ⟨(map_spec ht (pml3Index_lt _) h).1.tree, fun v => ?_⟩
      rw [map_present ht h]
      simp [hsys]

/-- The heap starts behind all entries. -/
theorem findLowest_spec (hm : SortedMap P info) {highest : MemmapEntry}
    (hl : info.memmap.getLast? = some highest) :
    findLowestFreeVirtualAddress P highest % PAGE = 0 ∧
      findLowestFreeVirtualAddress P highest < 2 ^ 64 ∧
      ∀ e ∈ info.memmap, P.hhdm + (e.base + e.length) ≤ findLowestFreeVirtualAddress P highest := by
  have hp := hm.physical highest (List.mem_of_getLast? hl)
  have hroom := hm.room
  have hend : add64 (add64 highest.base highest.length) P.hhdm =
      P.hhdm + (highest.base + highest.length) := by
    simp only [add64]
    omega
  have hlast : ∀ e ∈ info.memmap, e.base + e.length ≤ highest.base + highest.length := by
    obtain ⟨es, hes⟩ := List.getLast?_eq_some_iff.mp hl
    intro e he
    have hs := hm.sorted
    rw [hes] at he hs
    rcases List.mem_append.mp he with he | he
    · have := (List.pairwise_append.mp hs).2.2 e he highest (List.mem_singleton_self _)
      omega
    · rw [List.mem_singleton.mp he]
  rw [findLowestFreeVirtualAddress, hend, alignPage_eq,
    add64_of_lt (by simp only [PAGE]; omega)]
  refine ⟨Nat.mul_mod_left _ _, by simp only [PAGE]; omega, fun e he => ?_⟩
  have := hlast e he
  simp only [PAGE]
  omega

/-- A page that is mapped for an entry is below an address that the entry is below of. -/
theorem maps_below (hu : 2 ^ 64 - 2 ^ 48 ≤ P.hhdm) {e : MemmapEntry} {n cur : Nat} (hn : Maps e n)
    (hlt : cur < 2 ^ 64) (hle : P.hhdm + (e.base + e.length) ≤ cur) :
    vpn P.hhdm + n < vpn cur := by
  obtain ⟨-, h1, h2⟩ := hn
  have hv := vpn_direct (P := P) hu (a := cur - P.hhdm) (by omega)
  rw [Nat.add_sub_cancel' (by omega)] at hv
  rw [hv]
  simp only [PAGE] at *
  omega

theorem below_init (hm : SortedMap P info) {s : Kernel σ} (hs : (bootHeapLTS P info dev).init s) :
    Below P info dev s := by
  obtain ⟨boot, heap⟩ := s
  obtain ⟨m, m₁, m₂, machine, mem, highest, hboot, hx, hh, hl, rfl⟩ := hs
  have hb := hm.toBootable
  obtain ⟨htx, hpx⟩ := archXapicInit_present (bootstrap_tree hb hboot) hx
  obtain ⟨hth, hph⟩ := archHpetInit_present htx hh
  obtain ⟨hal, hlt, habove⟩ := findLowest_spec hm hl
  refine ⟨hth, hal, hlt, habove, fun v hv => ?_, fun v hv => ?_⟩
  · rw [hph, hpx] at hv
    rcases hv with (hv | hv) | hv
    · rcases bootstrap_present hb hboot hv with ⟨e, he, n, hn, hvn⟩ | hv
      · left
        rw [hvn]
        exact maps_below hb.upper hn hlt (habove e he)
      · exact .inr (.inr (.inr hv))
    · exact .inr (.inl hv)
    · exact .inr (.inr (.inl hv))
  · rw [hph, hpx]
    rcases hv with hv | hv | hv
    · exact .inl (.inr hv)
    · exact .inr hv
    · exact .inl (.inl (bootstrap_image hb hboot hv))

/-- The pages of the next block are those from the end of the heap on. -/
theorem Below.range {s : Kernel σ} (h : Below P info dev s) {pages : Nat}
    (hr : RangeOk (alignPage s.heap.currentVirtualAddress) pages) :
    alignPage s.heap.currentVirtualAddress = s.heap.currentVirtualAddress ∧
      vpn s.heap.currentVirtualAddress + pages < 2 ^ 36 := by
  have hcur := alignPage_of_aligned h.aligned h.lt
  rw [hcur] at hr
  have := hr.vpn
  exact ⟨hcur, by omega⟩

theorem below_step {s t : Kernel σ} {l : HeapStep} (h : Below P info dev s)
    (hst : (bootHeapLTS P info dev).step s l t) : Below P info dev t := by
  obtain ⟨boot, heap⟩ := s
  obtain ⟨boot', heap'⟩ := t
  obtain ⟨rfl, hst⟩ := hst
  cases l with
  | grow pages =>
    obtain ⟨hr, b, ha⟩ := hst
    obtain ⟨page, m₁, -, -, hnext⟩ := allocateBlock_maps ha
    obtain ⟨ht, hpresent⟩ := allocateBlock_table h.tree hr ha
    rw [Room] at hr
    obtain ⟨hcur, hroom⟩ := h.range hr
    simp only at hcur hroom hr hnext hpresent
    have hal := h.aligned
    have hlt := h.lt
    have hnext' : heap'.currentVirtualAddress = heap.currentVirtualAddress + pages * PAGE ∧
        heap'.currentVirtualAddress < 2 ^ 64 ∧
        vpn heap'.currentVirtualAddress = vpn heap.currentVirtualAddress + pages := by
      rw [hnext, hcur]
      simp only [RangeOk, add64, mul64, PAGE, vpn] at *
      omega
    obtain ⟨hnext, hlt', hvpn⟩ := hnext'
    refine ⟨ht, ?_, hlt', fun e he => ?_, fun v hv => ?_, fun v hv => ?_⟩
    · simp only [hnext, PAGE] at *
      omega
    · exact Nat.le_trans (h.above e he) (hnext ▸ Nat.le_add_right _ _)
    · simp only [hvpn]
      rcases (hpresent v).mp hv with hv | hv
      · rcases h.present v hv with hv | hv
        · exact .inl (Nat.lt_of_lt_of_le hv (Nat.le_add_right _ _))
        · exact .inr hv
      · exact .inl (hcur ▸ hv.2)
    · exact (hpresent v).mpr (.inl (h.fixed v hv))
  | other =>
    obtain ⟨hcur, hu⟩ := hst
    simp only at hcur hu
    refine ⟨hu.tree h.tree, hcur ▸ h.aligned, hcur ▸ h.lt, hcur ▸ h.above, fun v hv => ?_,
      fun v hv => ?_⟩
    · rw [hu.leafEntry (pml3Index_lt v)] at hv
      simp only [hcur]
      exact h.present v hv
    · rw [hu.leafEntry (pml3Index_lt v)]
      exact h.fixed v hv

theorem below_inductive (hm : SortedMap P info) :
    (bootHeapLTS P info dev).Inductive (Below P info dev) :=
  ⟨fun _ hs => below_init hm hs, fun _ _ _ h hst => below_step h hst⟩

end GaOS.L3.BootHeap
