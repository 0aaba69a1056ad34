import GaOS.L2Paging.MapRange

/-!
# The block allocator

Model of kernel/src/memory/physical/block_allocator.c: the kernel heap. A block
is a 48-byte header (signature, size, next, previous; the last one aligned to
16) followed by `size` bytes, and sits on the free list or on the busy list.

The heap's memory is `Heap.mem`, words by virtual address; the frames behind it
come from `page_allocate` and are mapped in the bootstrap table by
`arch_table_manager_map_range`. The new range then reads as zeros, because the
frames are fresh and `page_allocate` clears them. `allocateBlock` is `none` when
`page_allocate` panics and for zero pages, where the store to the header faults:
nothing was mapped. The lock is left out: a call is one step.

Nothing checks that the heap ends before the last 2 MiB of the address space, where
`map_range` leaves the table. The results are about runs whose calls have `Room`.
-/
namespace GaOS.L3.BlockAllocator

open GaOS.L1 GaOS.L1.PageAllocator GaOS.L2.TableManager

/-! ## Blocks
mirrors kernel/src/memory/physical/block_allocator.c:9-18 -/

def BLOCK_MINIMUM_ALLOCATION : Nat := 16
def BLOCK_SIGNATURE : Nat := 0x7B3CC1F2D2FACAE0

/-- `sizeof(block_header_t)` -/
abbrev HEADER : Nat := 48

def signature (mem : Mem) (block : Nat) : Nat := mem block
def size (mem : Mem) (block : Nat) : Nat := mem (block + 8)
def next (mem : Mem) (block : Nat) : Nat := mem (block + 16)
def previous (mem : Mem) (block : Nat) : Nat := mem (block + 32)

def setSignature (mem : Mem) (block v : Nat) : Mem := mem.store block v
def setSize (mem : Mem) (block v : Nat) : Mem := mem.store (block + 8) v
def setNext (mem : Mem) (block v : Nat) : Mem := mem.store (block + 16) v
def setPrevious (mem : Mem) (block v : Nat) : Mem := mem.store (block + 32) v

structure Heap (σ : Type) where
  mem : Mem
  machine : Machine σ
  freeListStart : Nat
  busyListStart : Nat
  virtualBase : Nat
  currentVirtualAddress : Nat

/-- Which of the two list heads a `block_header_t **` points to. -/
inductive BlockList where
  | free
  | busy
  deriving DecidableEq

def Heap.start {σ : Type} (h : Heap σ) : BlockList → Nat
  | .free => h.freeListStart
  | .busy => h.busyListStart

def Heap.setStart {σ : Type} (h : Heap σ) (list : BlockList) (block : Nat) : Heap σ :=
  match list with
  | .free => { h with freeListStart := block }
  | .busy => { h with busyListStart := block }

section
variable {σ : Type} (P : PageSource σ)

/-! ## Lists -/

/-- mirrors kernel/src/memory/physical/block_allocator.c:52-60 -/
def pushBlock (list : BlockList) (block : Nat) (h : Heap σ) : Heap σ :=
  let start := h.start list
  let mem := setPrevious (setNext h.mem block start) block 0
  let mem := if start ≠ 0 then setPrevious mem start block else mem
  { h with mem := mem }.setStart list block

/-- The neighbours are made to skip the block.
mirrors kernel/src/memory/physical/block_allocator.c:64-68 -/
def unlink (mem : Mem) (block : Nat) : Mem :=
  let mem := if previous mem block ≠ 0 then
      setNext mem (previous mem block) (next mem block) else mem
  if next mem block ≠ 0 then setPrevious mem (next mem block) (previous mem block) else mem

/-- mirrors kernel/src/memory/physical/block_allocator.c:62-76 -/
def removeBlockFromList (block : Nat) (h : Heap σ) : Heap σ :=
  let mem := unlink h.mem block
  { h with
    freeListStart := if block = h.freeListStart then next mem block else h.freeListStart
    busyListStart := if block = h.busyListStart then next mem block else h.busyListStart
    mem := setNext (setPrevious mem block 0) block 0 }

/-- mirrors kernel/src/memory/physical/block_allocator.c:96-106 -/
def moveTo (list : BlockList) (block : Nat) (h : Heap σ) : Heap σ :=
  pushBlock list block (removeBlockFromList block h)

def moveToFreeList (block : Nat) (h : Heap σ) : Heap σ := moveTo .free block h
def moveToBusyList (block : Nat) (h : Heap σ) : Heap σ := moveTo .busy block h

/-! ## Growing the heap -/

/-- `(x + PAGE - 1) & ~(PAGE - 1)` -/
def alignPage (x : Nat) : Nat := add64 x (PAGE - 1) &&& not64 (PAGE - 1)

/-- The header of a block that spans `pages` pages.
mirrors kernel/src/memory/physical/block_allocator.c:43-46 and 82-84 -/
def initHeader (mem : Mem) (block pages : Nat) : Mem :=
  let mem := setSignature mem block BLOCK_SIGNATURE
  let mem := setNext (setPrevious mem block 0) block 0
  setSize mem block (sub64 (mul64 pages PAGE) HEADER)

/-- mirrors kernel/src/memory/physical/block_allocator.c:30-50 -/
def allocateBlock (boot pages : Nat) (h : Heap σ) : Option (Nat × Heap σ) := do
  let (page, machine) ← h.machine.pageAllocate P pages
  let physicalBase := sub64 page P.hhdm
  let virtualBase := alignPage h.currentVirtualAddress
  if pages = 0 then none
  else
    let machine ← mapRange P machine boot virtualBase physicalBase TABLE_ENTRY_READ_WRITE pages
    return (virtualBase, { h with
      mem := initHeader (h.mem.zero virtualBase (pages * PAGE)) virtualBase pages
      machine := machine
      currentVirtualAddress := add64 virtualBase (mul64 pages PAGE) })

/-- mirrors kernel/src/memory/physical/block_allocator.c:78-94 -/
def createFreeBlock (boot pages : Nat) (h : Heap σ) : Option (Nat × Heap σ) := do
  let (b, h) ← allocateBlock P boot pages h
  let h := { h with mem := initHeader h.mem b pages }
  if h.freeListStart = 0 then return (b, { h with freeListStart := b })
  else return (b, pushBlock .free b h)

/-- The last entry of the memory map gives where the heap starts.
mirrors kernel/src/memory/physical/block_allocator.c:137-158 -/
def blockAllocatorInit (boot : Nat) (highest : MemmapEntry) (mem : Mem) (machine : Machine σ) :
    Option (Heap σ) := do
  let base := alignPage (add64 (add64 highest.base highest.length) P.hhdm)
  let (_, h) ← createFreeBlock P boot 1 ⟨mem, machine, 0, 0, base, base⟩
  return h

/-! ## Allocation -/

/-- First fit; the first argument is the fuel.
mirrors kernel/src/memory/physical/block_allocator.c:171-173 -/
def findFit (mem : Mem) (sz : Nat) : Nat → Nat → Option Nat
  | fuel, block =>
    if block = 0 ∨ sz ≤ size mem block then some block
    else
      match fuel with
      | 0 => none
      | fuel + 1 => findFit mem sz fuel (next mem block)

/-- mirrors kernel/src/memory/physical/block_allocator.c:185-200 -/
def splitBlock (block sz : Nat) (mem : Mem) : Mem :=
  if size mem block > add64 (add64 sz HEADER) BLOCK_MINIMUM_ALLOCATION then
    let oldSize := size mem block
    let newBlockSize := sub64 (sub64 oldSize sz) HEADER
    let mem := setSize mem block sz
    let newBlock := add64 (add64 block HEADER) (size mem block)
    let mem := setSize mem newBlock newBlockSize
    let mem := setNext mem newBlock (next mem block)
    let mem := setPrevious mem newBlock block
    let mem := setSignature mem newBlock BLOCK_SIGNATURE
    let mem := if next mem newBlock ≠ 0 then setPrevious mem (next mem newBlock) newBlock else mem
    setNext mem block newBlock
  else mem

/-- The size that is looked for.
mirrors kernel/src/memory/physical/block_allocator.c:162-166 -/
def roundSize (sz : Nat) : Nat :=
  let sz := if sz < BLOCK_MINIMUM_ALLOCATION then BLOCK_MINIMUM_ALLOCATION else sz
  if sz % 16 ≠ 0 then add64 sz (16 - sz % 16) else sz

/-- The block to allocate: the first that fits, or a new one.
mirrors kernel/src/memory/physical/block_allocator.c:171-180 -/
def chooseBlock (boot sz : Nat) (h : Heap σ) : Option (Nat × Heap σ) := do
  let currentBlock ← findFit h.mem sz h.currentVirtualAddress h.freeListStart
  if currentBlock = 0 then
    let need := add64 sz HEADER
    createFreeBlock P boot (add64 need (PAGE - 1) / PAGE) h
  else return (currentBlock, h)

/-- `map_range` can map `pages` pages behind the heap. -/
def Room (h : Heap σ) (pages : Nat) : Prop := RangeOk (alignPage h.currentVirtualAddress) pages

/-- If the heap has to grow for a block of `sz` bytes, it has room. -/
def RoomToGrow (h : Heap σ) (sz : Nat) : Prop :=
  findFit h.mem sz h.currentVirtualAddress h.freeListStart = some 0 →
    Room h (add64 (add64 sz HEADER) (PAGE - 1) / PAGE)

instance (h : Heap σ) (pages : Nat) : Decidable (Room h pages) :=
  inferInstanceAs (Decidable (RangeOk _ _))

instance (h : Heap σ) (sz : Nat) : Decidable (RoomToGrow h sz) :=
  inferInstanceAs (Decidable (_ → _))

/-- mirrors kernel/src/memory/physical/block_allocator.c:160-209 -/
def blockAllocate (boot sz : Nat) (h : Heap σ) : Option (Nat × Heap σ) := do
  let sz := roundSize sz
  let (currentBlock, h) ← chooseBlock P boot sz h
  let h := { h with mem := splitBlock currentBlock sz h.mem }
  let h := moveToBusyList currentBlock h
  let contents := add64 currentBlock HEADER
  return (contents, { h with mem := h.mem.zero contents sz })

/-- mirrors kernel/src/memory/physical/block_allocator.c:211-235 -/
def blockDeallocate (block : Nat) (h : Heap σ) : Heap σ :=
  if block = 0 then h
  else
    let header := sub64 block HEADER
    if signature h.mem header ≠ BLOCK_SIGNATURE then h
    else if h.virtualBase < block ∧ block < h.currentVirtualAddress then
      moveToFreeList header h
    else h

end

end GaOS.L3.BlockAllocator
