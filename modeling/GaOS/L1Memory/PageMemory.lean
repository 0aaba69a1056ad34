import GaOS.L1Memory.PageBitmap

/-!
# The two scans in one memory

`PageAllocator` gives every pool a bitmap of its own. In the kernel the bitmaps are words of
the memory that the pages are in, and nothing in the allocation functions looks whether two
bitmaps share a word, or a bitmap and a page. Here the pools are what `allocator_pools`
holds, and a bitmap is what memory has at `bitmap_base`, so a state may be as damaged as one
likes.

* `single_fast_eq_general`: the fast path for one page and the general scan with `pages = 1`
  give the same result in every state.
* `pageAllocateRange_view`: which page is taken, and what becomes of the counters, is as in
  `PageAllocator`, on the bitmaps that memory shows at the time of the call.
-/
namespace GaOS.L1.PageMemory

open GaOS.L1.PageAllocator

/-- One entry of `allocator_pools`.
mirrors kernel/src/memory/physical/page_allocator.c:9-20 -/
structure PoolRecord where
  allocateBase : Nat
  bitmapBase : Nat
  used : Nat
  available : Nat
  total : Nat
  bitmapEntries : Nat
  lastAllocatedPageIndex : Nat
  /-- `bitmap_entries` is a `size_t` -/
  entries_lt : bitmapEntries < 2 ^ 64

/-- `allocator_pools` up to `allocator_pool_index`, and memory. -/
structure MemState where
  pools : List PoolRecord
  mem : Mem

/-- The words at `bitmap_base`. -/
def PoolRecord.bitmap (r : PoolRecord) (mem : Mem) : Nat → Nat := fun w =>
  mem (add64 r.bitmapBase (8 * w))

/-- mirrors kernel/src/memory/physical/page_allocator.c:85-93 -/
def bitmapSet (mem : Mem) (bitmap index : Nat) : Mem :=
  let mask := 1 <<< (index % 64)
  let pointer := bitmapPointer bitmap index
  mem.store pointer (mem pointer ||| mask)

/-- The metadata update and the pointer both paths end with.
mirrors kernel/src/memory/physical/page_allocator.c:137-143,201-207 -/
def take (r : PoolRecord) (requiredBytes index : Nat) : Nat × PoolRecord :=
  (add64 r.allocateBase (mul64 index PAGE),
    { r with
      used := add64 r.used requiredBytes
      available := sub64 r.available requiredBytes
      lastAllocatedPageIndex := index })

/-- `for (i = 0; i < allocator_pool_index; i++)`: the first pool that serves. A pool that does
not has written nothing. -/
def firstServing (serve : PoolRecord → Option (Nat × PoolRecord × Mem)) :
    List PoolRecord → Option (Nat × List PoolRecord × Mem)
  | [] => none
  | r :: rs =>
    match serve r with
    | some (pointer, r', mem) => some (pointer, r' :: rs, mem)
    | none => (firstServing serve rs).map fun (pointer, rs', mem) => (pointer, r :: rs', mem)

/-! ## The fast path -/

/-- One pool's turn; the scan only reads.
mirrors kernel/src/memory/physical/page_allocator.c:121-149 -/
def serveSingle (mem : Mem) (r : PoolRecord) : Option (Nat × PoolRecord × Mem) :=
  if r.available < PAGE then none
  else
    (scanSingle (r.bitmap mem) (r.bitmapEntries - r.lastAllocatedPageIndex)
        r.lastAllocatedPageIndex).map fun index =>
      let mem := bitmapSet mem r.bitmapBase index
      let (pointer, r) := take r PAGE index
      (pointer, r, mem.zero pointer PAGE)

/-- mirrors kernel/src/memory/physical/page_allocator.c:115-157 -/
def pageAllocateSingleFast (s : MemState) : Option (Nat × MemState) :=
  (firstServing (serveSingle s.mem) s.pools).map fun (pointer, pools, mem) =>
    (pointer, ⟨pools, mem⟩)

/-! ## The general path -/

/-- mirrors kernel/src/memory/physical/page_allocator.c:197-199 -/
def setRange (mem : Mem) (bitmap index : Nat) : Nat → Nat → Mem
  | _, 0 => mem
  | offset, left + 1 =>
    setRange (bitmapSet mem bitmap (add64 offset index)) bitmap index (offset + 1) left

/-- One pool's turn.
mirrors kernel/src/memory/physical/page_allocator.c:176-215 -/
def serveRange (pages : Nat) (mem : Mem) (r : PoolRecord) : Option (Nat × PoolRecord × Mem) :=
  let requiredBytes := mul64 pages PAGE
  if r.available < requiredBytes then none
  else
    (scanRange (r.bitmap mem) r.bitmapEntries pages (r.bitmapEntries - r.lastAllocatedPageIndex)
        r.lastAllocatedPageIndex).map fun index =>
      let mem := setRange mem r.bitmapBase index 0 pages
      let (pointer, r) := take r requiredBytes index
      (pointer, r, mem.zero pointer (pages * PAGE))

/-- mirrors kernel/src/memory/physical/page_allocator.c:170-222 -/
def pageAllocateRange (s : MemState) (pages : Nat) : Option (Nat × MemState) :=
  (firstServing (serveRange pages s.mem) s.pools).map fun (pointer, pools, mem) =>
    (pointer, ⟨pools, mem⟩)

/-! ## They agree on one page -/

theorem scans_agree (mem : Mem) (r : PoolRecord) :
    scanSingle (r.bitmap mem) (r.bitmapEntries - r.lastAllocatedPageIndex)
        r.lastAllocatedPageIndex =
      scanRange (r.bitmap mem) r.bitmapEntries 1 (r.bitmapEntries - r.lastAllocatedPageIndex)
        r.lastAllocatedPageIndex := by
  by_cases hl : r.lastAllocatedPageIndex ≤ r.bitmapEntries
  · exact scanSingle_eq r.entries_lt (by omega)
  · rw [show r.bitmapEntries - r.lastAllocatedPageIndex = 0 by omega]
    rfl

/-- The index that a scan stops at is below `bitmap_entries`, so offset 0 is that index. -/
theorem setRange_one (mem : Mem) (bitmap : Nat) {index : Nat} (h : index < 2 ^ 64) :
    setRange mem bitmap index 0 1 = bitmapSet mem bitmap index := by
  have hadd : add64 0 index = index := by rw [add64_of_lt (by omega), Nat.zero_add]
  simp only [setRange, hadd]

theorem serveSingle_eq (mem : Mem) (r : PoolRecord) : serveSingle mem r = serveRange 1 mem r := by
  unfold serveSingle serveRange
  simp only [show mul64 1 PAGE = PAGE from rfl, Nat.one_mul, scans_agree]
  split
  · rfl
  · cases h : scanRange (r.bitmap mem) r.bitmapEntries 1
        (r.bitmapEntries - r.lastAllocatedPageIndex) r.lastAllocatedPageIndex with
    | none => rfl
    | some index =>
      have hlt : index < 2 ^ 64 := by
        obtain ⟨hfrom, hto, -⟩ := scanRange_some h
        have := r.entries_lt
        omega
      simp only [Option.map_some, setRange_one mem r.bitmapBase hlt]

/-- **The fast path is the general path for one page.** In every state, with any pools,
counters, cursors and bitmaps, the two return the same page, or both panic, and they leave
the same pools and the same memory, bitmaps and cleared page included. -/
theorem single_fast_eq_general (s : MemState) :
    pageAllocateSingleFast s = pageAllocateRange s 1 := by
  have hserve : serveSingle s.mem = serveRange 1 s.mem := by
    funext r
    exact serveSingle_eq s.mem r
  unfold pageAllocateSingleFast pageAllocateRange
  rw [hserve]

/-! ## The pools that memory shows -/

/-- The pool with the bitmap that memory has for it. -/
def PoolRecord.pool (r : PoolRecord) (mem : Mem) : Pool where
  allocateBase := r.allocateBase
  bitmapBase := r.bitmapBase
  used := r.used
  available := r.available
  total := r.total
  bitmapEntries := r.bitmapEntries
  lastAllocatedPageIndex := r.lastAllocatedPageIndex
  bitmap := r.bitmap mem

def MemState.view (s : MemState) : State := ⟨s.pools.map (·.pool s.mem), s.mem⟩

/-- What an allocation changes in a pool, next to the bitmap. -/
def PoolRecord.counters (r : PoolRecord) : Nat × Nat × Nat :=
  (r.used, r.available, r.lastAllocatedPageIndex)

def poolCounters (p : Pool) : Nat × Nat × Nat := (p.used, p.available, p.lastAllocatedPageIndex)

theorem serveRange_view (pages : Nat) (mem : Mem) (r : PoolRecord) :
    (serveRange pages mem r).map (fun (a, r', _) => (a, r'.counters)) =
      (PageAllocator.serveRange pages (r.pool mem)).map fun (a, p) => (a, poolCounters p) := by
  have hav : (r.pool mem).available = r.available := rfl
  by_cases hlt : r.available < mul64 pages PAGE
  · simp only [serveRange, PageAllocator.serveRange, hav, if_pos hlt, Option.map_none]
  · simp only [serveRange, PageAllocator.serveRange, hav, if_neg hlt, Option.map_map]
    rfl

theorem firstServing_view (pages : Nat) (mem : Mem) (rs : List PoolRecord) :
    (firstServing (serveRange pages mem) rs).map (fun (a, rs', _) => (a, rs'.map (·.counters))) =
      (PageAllocator.firstServing (PageAllocator.serveRange pages) (rs.map (·.pool mem))).map
        fun (a, ps) => (a, ps.map poolCounters) := by
  induction rs with
  | nil => rfl
  | cons r rs ih =>
    have hserve := serveRange_view pages mem r
    have hpools : (rs.map (·.pool mem)).map poolCounters = rs.map (·.counters) := by
      rw [List.map_map]
      rfl
    simp only [List.map_cons, firstServing, PageAllocator.firstServing]
    cases hr : serveRange pages mem r with
    | none =>
      rw [hr] at hserve
      rw [Option.map_eq_none_iff.mp hserve.symm]
      have hrest := congrArg (Option.map fun x => (x.1, r.counters :: x.2)) ih
      simp only [Option.map_map] at hrest ⊢
      exact hrest
    | some x =>
      rw [hr] at hserve
      obtain ⟨y, hp, hxy⟩ := Option.map_eq_some_iff.mp hserve.symm
      rw [hp]
      simp only [Option.map_some, List.map_cons, hpools]
      simp only [Prod.mk.injEq] at hxy
      rw [hxy.1, hxy.2]

/-- **The page that is taken is the one of the abstract pools.** In every state. -/
theorem pageAllocateRange_view (s : MemState) (pages : Nat) :
    (pageAllocateRange s pages).map (fun (a, t) => (a, t.pools.map (·.counters))) =
      (PageAllocator.pageAllocateRange s.view pages).map
        fun (a, t) => (a, t.pools.map poolCounters) := by
  have h := firstServing_view pages s.mem s.pools
  unfold pageAllocateRange PageAllocator.pageAllocateRange
  rw [Option.map_map, Option.map_map]
  exact h

end GaOS.L1.PageMemory
