import GaOS.Core.Words

/-!
# The physical page allocator

Model of kernel/src/memory/physical/page_allocator.c. A pool covers one usable
region of the memory map: its first bytes hold the bitmap, the pages after it
are handed out. `page_allocate` scans each pool's bitmap from
`last_allocated_page_index` on and takes the first run of clear bits in the
first pool with enough `available` bytes; `page_deallocate` clears bits and
leaves the counters alone.

The bitmap of a pool is storage of its own (`Pool.bitmap`, one 64-bit word per
index), separate from the memory the pages live in (`State.mem`). The array
`allocator_pools[128]` with its fill count `allocator_pool_index` is the list
`State.pools`. `none` stands for the branches that do not return: `panic` in
the allocation functions, and in `pageAllocatorCreatePoolsLimine` the write
past the array's end. The spinlock makes each call one step, so it does not
appear, and neither do the log lines.
-/
namespace GaOS.L1.PageAllocator

/-- mirrors kernel/src/arch/x86_64/arch.h:16 -/
abbrev PAGE : Nat := 4096

/-- The `type` field of a memory map entry; the code tells only these apart. -/
inductive MemmapType where
  | usable
  | executableAndModules
  | other
  deriving DecidableEq, Repr

/-- `struct limine_memmap_entry`. -/
structure MemmapEntry where
  base : Nat
  length : Nat
  type : MemmapType
  deriving DecidableEq, Repr

/-- mirrors kernel/src/memory/physical/page_allocator.c:9-20 -/
structure Pool where
  allocateBase : Nat
  bitmapBase : Nat
  used : Nat
  available : Nat
  total : Nat
  bitmapEntries : Nat
  lastAllocatedPageIndex : Nat
  /-- the words at `bitmap_base` -/
  bitmap : Nat → Nat

structure State where
  pools : List Pool
  mem : Mem

/-! ## Pool creation -/

/-- mirrors kernel/src/memory/physical/page_allocator.c:49-52 -/
def requiredBitmapBytes (length : Nat) : Nat :=
  let bytes := length / PAGE / 8
  if bytes % PAGE ≠ 0 then bytes + (PAGE - bytes % PAGE) else bytes

/-- mirrors kernel/src/memory/physical/page_allocator.c:54-63 -/
def createPool (hhdm : Nat) (e : MemmapEntry) : Pool where
  bitmapEntries := e.length / PAGE
  bitmapBase := add64 e.base hhdm
  allocateBase := add64 (add64 e.base (requiredBitmapBytes e.length)) hhdm
  used := 0
  available := sub64 e.length (requiredBitmapBytes e.length)
  total := sub64 e.length (requiredBitmapBytes e.length)
  lastAllocatedPageIndex := 0
  bitmap := fun _ => 0

/-- The loop over the memory map; `pools` is the part of `allocator_pools`
filled so far. -/
def createPoolsFrom (hhdm : Nat) : List MemmapEntry → List Pool → Option (List Pool)
  | [], pools => some pools
  | e :: es, pools =>
    if e.type ≠ .usable then createPoolsFrom hhdm es pools
    else if e.length ≤ 128 * 1024 then createPoolsFrom hhdm es pools
    else if pools.length < 128 then createPoolsFrom hhdm es (pools ++ [createPool hhdm e])
    else none

/-- mirrors kernel/src/memory/physical/page_allocator.c:28-65 -/
def pageAllocatorCreatePoolsLimine (hhdm : Nat) (entries : List MemmapEntry) :
    Option (List Pool) :=
  createPoolsFrom hhdm entries []

/-! ## Bitmap access -/

/-- The address of the word that the three bitmap functions access.
mirrors kernel/src/memory/physical/page_allocator.c:87-90 -/
def bitmapPointer (bitmap index : Nat) : Nat := add64 bitmap (8 * (index / 64))

/-- mirrors kernel/src/memory/physical/page_allocator.c:85-93 -/
def bitmapSet (bitmap : Nat → Nat) (index : Nat) : Nat → Nat :=
  let mask := 1 <<< (index % 64)
  Function.update bitmap (index / 64) (bitmap (index / 64) ||| mask)

/-- mirrors kernel/src/memory/physical/page_allocator.c:95-103 -/
def bitmapUnset (bitmap : Nat → Nat) (index : Nat) : Nat → Nat :=
  let mask := 1 <<< (index % 64)
  Function.update bitmap (index / 64) (bitmap (index / 64) &&& not64 mask)

/-- mirrors kernel/src/memory/physical/page_allocator.c:105-113 -/
def bitmapGet (bitmap : Nat → Nat) (index : Nat) : Nat :=
  let mask := 1 <<< (index % 64)
  bitmap (index / 64) &&& mask

/-! ## Allocation -/

/-- The metadata update and the pointer both paths end with.
mirrors kernel/src/memory/physical/page_allocator.c:137-143,201-207 -/
def take (p : Pool) (bitmap : Nat → Nat) (requiredBytes index : Nat) : Nat × Pool :=
  (add64 p.allocateBase (mul64 index PAGE),
    { p with
      bitmap := bitmap
      used := add64 p.used requiredBytes
      available := sub64 p.available requiredBytes
      lastAllocatedPageIndex := index })

/-- `for (i = 0; i < allocator_pool_index; i++)`: the first pool that serves. -/
def firstServing (serve : Pool → Option (Nat × Pool)) : List Pool → Option (Nat × List Pool)
  | [] => none
  | p :: ps =>
    match serve p with
    | some (pointer, p') => some (pointer, p' :: ps)
    | none => (firstServing serve ps).map fun (pointer, ps') => (pointer, p :: ps')

/-- The index loop of the fast path; the first argument counts the indices
left below `bitmap_entries`.
mirrors kernel/src/memory/physical/page_allocator.c:129-149 -/
def scanSingle (bitmap : Nat → Nat) : Nat → Nat → Option Nat
  | 0, _ => none
  | left + 1, index =>
    if bitmapGet bitmap index ≠ 0 then scanSingle bitmap left (index + 1) else some index

/-- One pool's turn in the fast path. -/
def serveSingle (p : Pool) : Option (Nat × Pool) :=
  if p.available < PAGE then none
  else
    (scanSingle p.bitmap (p.bitmapEntries - p.lastAllocatedPageIndex)
        p.lastAllocatedPageIndex).map fun index =>
      take p (bitmapSet p.bitmap index) PAGE index

/-- mirrors kernel/src/memory/physical/page_allocator.c:115-157 -/
def pageAllocateSingleFast (s : State) : Option (Nat × State) :=
  (firstServing serveSingle s.pools).map fun (pointer, pools) =>
    (pointer, ⟨pools, s.mem.zero pointer PAGE⟩)

/-- The contiguity check; the last argument counts the offsets left.
mirrors kernel/src/memory/physical/page_allocator.c:192-195 -/
def rangeClear (bitmap : Nat → Nat) (index : Nat) : Nat → Nat → Bool
  | _, 0 => true
  | offset, left + 1 =>
    if bitmapGet bitmap (add64 offset index) ≠ 0 then false
    else rangeClear bitmap index (offset + 1) left

/-- mirrors kernel/src/memory/physical/page_allocator.c:197-199 -/
def setRange (bitmap : Nat → Nat) (index : Nat) : Nat → Nat → (Nat → Nat)
  | _, 0 => bitmap
  | offset, left + 1 => setRange (bitmapSet bitmap (add64 offset index)) index (offset + 1) left

/-- The index loop of the general path.
mirrors kernel/src/memory/physical/page_allocator.c:184-215 -/
def scanRange (bitmap : Nat → Nat) (entries pages : Nat) : Nat → Nat → Option Nat
  | 0, _ => none
  | left + 1, index =>
    if bitmapGet bitmap index ≠ 0 then scanRange bitmap entries pages left (index + 1)
    else if entries < add64 index pages then scanRange bitmap entries pages left (index + 1)
    else if rangeClear bitmap index 0 pages then some index
    else scanRange bitmap entries pages left (index + 1)

/-- One pool's turn in the general path. -/
def serveRange (pages : Nat) (p : Pool) : Option (Nat × Pool) :=
  let requiredBytes := mul64 pages PAGE
  if p.available < requiredBytes then none
  else
    (scanRange p.bitmap p.bitmapEntries pages (p.bitmapEntries - p.lastAllocatedPageIndex)
        p.lastAllocatedPageIndex).map fun index =>
      take p (setRange p.bitmap index 0 pages) requiredBytes index

/-- The general path, lines 170-222.
mirrors kernel/src/memory/physical/page_allocator.c:170-222 -/
def pageAllocateRange (s : State) (pages : Nat) : Option (Nat × State) :=
  (firstServing (serveRange pages) s.pools).map fun (pointer, pools) =>
    (pointer, ⟨pools, s.mem.zero pointer (pages * PAGE)⟩)

/-- mirrors kernel/src/memory/physical/page_allocator.c:159-223 -/
def pageAllocate (s : State) (pages : Nat) : Option (Nat × State) :=
  let pages := if pages = 0 then 1 else pages
  if pages = 1 then pageAllocateSingleFast s else pageAllocateRange s pages

/-! ## Deallocation -/

/-- mirrors kernel/src/memory/physical/page_allocator.c:240-249 -/
def unsetRange (bitmap : Nat → Nat) (index : Nat) : Nat → Nat → (Nat → Nat)
  | _, 0 => bitmap
  | offset, left + 1 =>
    if bitmapGet bitmap (add64 index offset) = 0 then unsetRange bitmap index (offset + 1) left
    else unsetRange (bitmapUnset bitmap (add64 index offset)) index (offset + 1) left

/-- The test that picks the pool, inclusive at the upper end.
mirrors kernel/src/memory/physical/page_allocator.c:234 -/
def Pool.covers (p : Pool) (base : Nat) : Bool :=
  decide (p.allocateBase ≤ base ∧ base ≤ add64 p.allocateBase p.total)

/-- Index of the pool `page_deallocate` works on. -/
def findPool (pools : List Pool) (base : Nat) : Option Nat := pools.findIdx? (·.covers base)

/-- mirrors kernel/src/memory/physical/page_allocator.c:236-249 -/
def Pool.release (p : Pool) (base pages : Nat) : Pool :=
  { p with bitmap := unsetRange p.bitmap (sub64 base p.allocateBase / PAGE) 0 pages }

/-- mirrors kernel/src/memory/physical/page_allocator.c:225-260 -/
def pageDeallocate (s : State) (base pages : Nat) : State :=
  match findPool s.pools base with
  | some i => { s with pools := s.pools.modify i (·.release base pages) }
  | none => s

end GaOS.L1.PageAllocator
