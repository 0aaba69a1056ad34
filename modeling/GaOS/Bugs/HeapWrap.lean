import GaOS.L3Heap.HeapInv

/-!
# A large request can wrap into a small one

`block_allocate` (kernel/src/memory/physical/block_allocator.c:160-209) computes with the size
that it is given three times before it has a block: it rounds it up to 16, adds the header,
and rounds the sum up to pages. None of them is checked, and each can wrap:

* above 2^64 - 16 the rounded size is 0, so the first free block fits, is cut at 0 bytes and
  is handed out;
* above 2^64 - 48 the header takes the sum past 2^64, and a block of one page is made for it;
* above 2^64 - 4144 and up to there the pages come out as 0, for the last 16 of these sizes
  because the sum is 2^64. `page_allocate` takes that for 1, nothing is mapped, and the store
  to the header faults.

`served_iff` is the exact condition, in every run: the size is at most 2^64 - 4144. A free
block cannot help a larger one, because the heap has no room for a block of that size. Up to
there the header is right also for a new block that `map_range` cannot map.

Counterexample: 2^64 - 1 bytes in a heap that was just made.

Fix: panic on a size above 2^64 - 4144.
-/
namespace GaOS.Bugs.HeapWrap

open GaOS.L1 GaOS.L1.PageAllocator GaOS.L2.TableManager GaOS.L3.BlockAllocator

variable {σ : Type} {P : PageSource σ} {boot sz : Nat} {h h' : Heap σ} {L : BlockList → List Nat}
  {tiles : List Nat}

/-! ## What should hold -/

/-- The size rounded up to 16, at least 16. -/
def wholeSize (sz : Nat) : Nat := (max sz BLOCK_MINIMUM_ALLOCATION + 15) / 16 * 16

/-- The pages that hold a block of this size. -/
def wholePages (sz : Nat) : Nat := (wholeSize sz + HEADER + PAGE - 1) / PAGE

/-- No free block is large enough. -/
def NoFit (h : Heap σ) (sz : Nat) : Prop :=
  findFit h.mem (roundSize sz) h.currentVirtualAddress h.freeListStart = some 0

/-- A call of `block_allocate` serves what it was asked for: if it returns, the header of the
block has the bytes, and if it does not, then the heap could not grow by the pages that hold
them. What it computes on the way is what it would be without a bound on the numbers. -/
structure Served (P : PageSource σ) (boot : Nat) (h : Heap σ) (sz : Nat) : Prop where
  recorded : ∀ q h', blockAllocate P boot sz h = some (q, h') → sz ≤ size h'.mem (sub64 q HEADER)
  refused : blockAllocate P boot sz h = none → createFreeBlock P boot (wholePages sz) h = none
  rounded : roundSize sz = wholeSize sz
  need : NoFit h sz → add64 (roundSize sz) HEADER = wholeSize sz + HEADER
  pages : NoFit h sz → add64 (add64 (roundSize sz) HEADER) (PAGE - 1) / PAGE = wholePages sz
  bytes : NoFit h sz → mul64 (wholePages sz) PAGE = wholePages sz * PAGE
  split : ∀ c h₁, chooseBlock P boot (roundSize sz) h = some (c, h₁) →
    add64 (add64 (roundSize sz) HEADER) BLOCK_MINIMUM_ALLOCATION =
      wholeSize sz + HEADER + BLOCK_MINIMUM_ALLOCATION

/-- The largest size for which nothing wraps. -/
def LARGEST : Nat := 2 ^ 64 - 4144

/-! ## A new block

The header of a new block records the size also where `map_range` cannot map the block: all
pointers between headers are multiples of 16, so no write of a pointer lands on a size. -/

/-- The header of `c` has the size, and pointers to headers. -/
structure Sized (mem : Mem) (c z : Nat) : Prop where
  size_eq : size mem c = z
  next_mod : next mem c % 16 = 0
  previous_mod : previous mem c % 16 = 0

section
variable {mem : Mem} {c x v z : Nat}

theorem Sized.store (hs : Sized mem c z) (hc : c % 16 = 0) (hx : x % 16 = 0) (hv : v % 16 = 0) :
    Sized (mem.store x v) c z := by
  refine ⟨(Mem.store_ne _ _ (by omega)).trans hs.size_eq, ?_, ?_⟩
  · by_cases he : c + 16 = x
    · rw [next, he, Mem.store_self]
      exact hv
    · rw [next, Mem.store_ne _ _ he]
      exact hs.next_mod
  · by_cases he : c + 32 = x
    · rw [previous, he, Mem.store_self]
      exact hv
    · rw [previous, Mem.store_ne _ _ he]
      exact hs.previous_mod

theorem Sized.withNext (hs : Sized mem c z) (hc : c % 16 = 0) (hx : x % 16 = 0) (hv : v % 16 = 0) :
    Sized (setNext mem x v) c z := hs.store hc (by omega) hv

theorem Sized.withPrevious (hs : Sized mem c z) (hc : c % 16 = 0) (hx : x % 16 = 0)
    (hv : v % 16 = 0) : Sized (setPrevious mem x v) c z := hs.store hc (by omega) hv

theorem Sized.withSize (hs : Sized mem c z) (hc : c % 16 = 0) (hx : x % 16 = 0) (hne : x ≠ c) :
    Sized (setSize mem x v) c z :=
  ⟨(Mem.store_ne _ _ (by omega)).trans hs.size_eq,
    (congrArg (· % 16) (Mem.store_ne _ _ (by omega))).trans hs.next_mod,
    (congrArg (· % 16) (Mem.store_ne _ _ (by omega))).trans hs.previous_mod⟩

theorem Sized.ownSize (hs : Sized mem c z) : Sized (setSize mem c v) c v :=
  ⟨Mem.store_self _ _ _,
    (congrArg (· % 16) (Mem.store_ne _ _ (by omega))).trans hs.next_mod,
    (congrArg (· % 16) (Mem.store_ne _ _ (by omega))).trans hs.previous_mod⟩

theorem initHeader_sized (mem : Mem) (c pages : Nat) :
    Sized (initHeader mem c pages) c (sub64 (mul64 pages PAGE) HEADER) := by
  refine ⟨Mem.store_self _ _ _, ?_, ?_⟩
  · rw [initHeader, next, setSize, Mem.store_ne _ _ (by omega), setNext, Mem.store_self]
  · rw [initHeader, previous, setSize, Mem.store_ne _ _ (by omega), setNext,
      Mem.store_ne _ _ (by omega), setPrevious, Mem.store_self]

theorem Sized.push {list : BlockList} (hs : Sized h.mem c z) (hc : c % 16 = 0)
    (hstart : h.start list % 16 = 0) : Sized (pushBlock list c h).mem c z := by
  have hown := (hs.withNext hc hc hstart).withPrevious (v := 0) hc hc rfl
  rw [pushBlock, Heap.setStart_mem]
  simp only
  split
  · exact hown.withPrevious hc hstart hc
  · exact hown

theorem Sized.unlinked (hs : Sized mem c z) (hc : c % 16 = 0) : Sized (unlink mem c) c z := by
  have hfirst : Sized (if previous mem c ≠ 0 then
      setNext mem (previous mem c) (next mem c) else mem) c z := by
    split
    · exact hs.withNext hc hs.previous_mod hs.next_mod
    · exact hs
  simp only [unlink]
  generalize (if previous mem c ≠ 0 then
      setNext mem (previous mem c) (next mem c) else mem) = mem' at hfirst ⊢
  split
  · exact hfirst.withPrevious hc hfirst.next_mod hfirst.previous_mod
  · exact hfirst

theorem Sized.moveToBusy (hs : Sized h.mem c z) (hc : c % 16 = 0)
    (hstart : h.busyListStart % 16 = 0) : Sized (moveToBusyList c h).mem c z := by
  have hun := hs.unlinked hc
  have hremoved : Sized (removeBlockFromList c h).mem c z :=
    (hun.withPrevious (v := 0) hc hc rfl).withNext (v := 0) hc hc rfl
  have hbusy : (removeBlockFromList c h).start .busy % 16 = 0 := by
    show (if c = h.busyListStart then next (unlink h.mem c) c else h.busyListStart) % 16 = 0
    split
    · exact hun.next_mod
    · exact hstart
  exact hremoved.push hc hbusy

/-- The block keeps its size or is cut at the size that is asked for. -/
theorem Sized.split (hs : Sized mem c z) (hc : c % 16 = 0) (hv : v % 16 = 0)
    (hle : v ≤ LARGEST) : Sized (splitBlock c v mem) c z ∨ Sized (splitBlock c v mem) c v := by
  simp only [splitBlock]
  split
  · right
    have hcut : Sized (setSize mem c v) c v := hs.ownSize
    have hnew : add64 (add64 c HEADER) v % 16 = 0 := by
      simp only [add64, HEADER]
      omega
    have hne : add64 (add64 c HEADER) v ≠ c := by
      simp only [add64, HEADER, LARGEST] at *
      omega
    rw [hcut.size_eq]
    generalize add64 (add64 c HEADER) v = b at hnew hne
    generalize sub64 (sub64 (size mem c) v) HEADER = rest
    generalize setSize mem c v = m₁ at hcut
    have h₂ : Sized (setSize m₁ b rest) c v := hcut.withSize hc hnew hne
    generalize setSize m₁ b rest = m₂ at h₂
    have h₅ := ((h₂.withNext hc hnew h₂.next_mod).withPrevious hc hnew hc).store (x := b)
      (v := BLOCK_SIGNATURE) hc hnew (by decide)
    have hnext : next (setSignature (setPrevious (setNext m₂ b (next m₂ c)) b c) b
        BLOCK_SIGNATURE) b = next m₂ c := by
      rw [next, setSignature, Mem.store_ne _ _ (by omega), setPrevious,
        Mem.store_ne _ _ (by omega), setNext, Mem.store_self]
    rw [hnext]
    refine Sized.withNext ?_ hc hc hnew
    split
    · exact h₅.withPrevious hc h₂.next_mod hnew
    · exact h₅
  · exact .inl hs

/-- Cut and taken, the block still has the bytes. -/
theorem Sized.taken {n : Nat} (hs : Sized h.mem c z) (hc : c % 16 = 0)
    (hstart : h.busyListStart % 16 = 0) (hv : v % 16 = 0) (hle : v ≤ LARGEST) (hn : n ≤ v)
    (hz : n ≤ z) :
    n ≤ size (moveToBusyList c { h with mem := splitBlock c v h.mem }).mem c := by
  rcases hs.split hc hv hle with hcut | hcut
  · have hmoved := Sized.moveToBusy (h := { h with mem := splitBlock c v h.mem }) hcut hc hstart
    rw [hmoved.size_eq]
    exact hz
  · have hmoved := Sized.moveToBusy (h := { h with mem := splitBlock c v h.mem }) hcut hc hstart
    rw [hmoved.size_eq]
    exact hn

end

theorem start_mod (hi : HeapInv h L tiles) (k : BlockList) : h.start k % 16 = 0 := by
  rcases (hi.lists.dlist k).seg.start with h0 | hm
  · rw [h0]
  · exact (hi.block _ (hi.mem_tiles k _ hm)).address

/-! ## Up to the largest size -/

theorem wholeSize_le (hsz : sz ≤ LARGEST) : wholeSize sz ≤ LARGEST := by
  simp only [wholeSize, LARGEST, BLOCK_MINIMUM_ALLOCATION] at *
  omega

theorem roundSize_of_le (hsz : sz ≤ LARGEST) : roundSize sz = wholeSize sz :=
  roundSize_eq (Nat.lt_of_le_of_lt (wholeSize_le hsz) (by decide))

theorem noWrap_of_le (hsz : sz ≤ LARGEST) : NoWrap sz := by
  have hle : wholeSize sz ≤ LARGEST := wholeSize_le hsz
  simp only [wholeSize, LARGEST, BLOCK_MINIMUM_ALLOCATION] at hle
  simp only [NoWrap, HEADER]
  omega

/-- The pages that are asked for hold the block. -/
theorem pages_size (hsz : sz ≤ LARGEST) :
    sz ≤ sub64 (mul64 (add64 (add64 (roundSize sz) HEADER) (PAGE - 1) / PAGE) PAGE) HEADER := by
  have hle : wholeSize sz ≤ LARGEST := wholeSize_le hsz
  have hwhole : sz ≤ wholeSize sz := by
    simp only [wholeSize, BLOCK_MINIMUM_ALLOCATION]
    omega
  rw [roundSize_of_le hsz]
  generalize wholeSize sz = n at hle hwhole
  simp only [LARGEST] at hle
  rw [add64_of_lt (show n + HEADER < 2 ^ 64 by simp only [HEADER]; omega),
    add64_of_lt (by simp only [HEADER, PAGE]; omega)]
  generalize hpages : (n + HEADER + (PAGE - 1)) / PAGE = pages
  have hfit : pages * PAGE < 2 ^ 64 := by
    simp only [HEADER, PAGE] at *
    omega
  rw [mul64_of_lt hfit, sub64_of_le (by simp only [HEADER, PAGE] at *; omega) hfit]
  simp only [HEADER, PAGE] at *
  omega

/-- The header of a new block. -/
theorem recorded_new {q : Nat} (hi : HeapInv h L tiles) (hsz : sz ≤ LARGEST) (hn : NoFit h sz)
    (hs : blockAllocate P boot sz h = some (q, h')) : sz ≤ size h'.mem (sub64 q HEADER) := by
  obtain ⟨hmod, -, hle, -⟩ := roundSize_spec (noWrap_of_le hsz)
  have hlarge : roundSize sz ≤ LARGEST := by
    rw [roundSize_of_le hsz]
    exact wholeSize_le hsz
  have hhold := pages_size hsz
  simp only [NoFit] at hn
  simp only [blockAllocate, chooseBlock, hn, Option.bind_eq_bind, Option.bind_some, if_true,
    Option.bind_eq_some_iff, Prod.exists, Option.pure_def, Option.some.injEq,
    Prod.mk.injEq] at hs
  obtain ⟨c, h₁, hcreate, rfl, rfl⟩ := hs
  generalize add64 (add64 (roundSize sz) HEADER) (PAGE - 1) / PAGE = pages at hcreate hhold
  obtain ⟨h₀, ha, rfl⟩ := createFreeBlock_some hcreate
  obtain ⟨hc, -, page, m₁, machine, -, -, rfl⟩ := allocateBlock_cases ha
  rw [alignPage_of_aligned hi.current_aligned hi.current_lt] at hc
  have hal : c % PAGE = 0 := hc ▸ hi.current_aligned
  have hlt : c < 2 ^ 64 := hc ▸ hi.current_lt
  simp only [PAGE] at hal
  have hq : add64 c HEADER = c + HEADER := add64_of_lt (by simp only [HEADER]; omega)
  have hback : sub64 (c + HEADER) HEADER = c := by
    rw [sub64_of_le (by simp only [HEADER]; omega) (by simp only [HEADER]; omega),
      Nat.add_sub_cancel]
  have hsized := initHeader_sized (initHeader (h.mem.zero c (pages * PAGE)) c pages) c pages
  generalize initHeader (initHeader (h.mem.zero c (pages * PAGE)) c pages) c pages = mem at hsized
  obtain ⟨g, hg⟩ : ∃ g : Heap σ, g = { h with
      mem := mem
      machine := machine
      currentVirtualAddress := add64 c (mul64 pages PAGE) } := ⟨_, rfl⟩
  have hmem : g.mem = mem := by rw [hg]
  have hstart (k : BlockList) : g.start k % 16 = 0 := by
    have hsame : g.start k = h.start k := by
      rw [hg]
      cases k <;> rfl
    rw [hsame]
    exact start_mod hi k
  rw [← hmem] at hsized
  have hpushed : Sized (pushBlock .free c g).mem c (sub64 (mul64 pages PAGE) HEADER) :=
    hsized.push (by omega) (hstart .free)
  have hzero (m : Mem) : size (m.zero (c + HEADER) (roundSize sz)) c = size m c :=
    Mem.zero_out m (.inl (by simp only [HEADER]; omega))
  rw [hq, hback, hzero, ← hg]
  exact hpushed.taken (by omega) (hstart .busy) hmod hlarge hle hhold

/-- The header of the block that is returned. -/
theorem recorded_of_le {q : Nat} (hi : HeapInv h L tiles) (hsz : sz ≤ LARGEST)
    (hs : blockAllocate P boot sz h = some (q, h')) : sz ≤ size h'.mem (sub64 q HEADER) := by
  by_cases hn : NoFit h sz
  · exact recorded_new hi hsz hn hs
  have hw := noWrap_of_le hsz
  obtain ⟨L', tiles', c, hi', -, hc, hq, -, hfit, -⟩ :=
    blockAllocate_inv hi hw (fun h0 => absurd h0 hn) hs
  have hend := hi'.block_end (hi'.mem_tiles .busy c hc)
  have hlt := hi'.current_lt
  have hback : sub64 q HEADER = c := by
    rw [sub64_of_le (by omega) (by omega), hq, Nat.add_sub_cancel]
  rw [hback]
  exact Nat.le_trans (roundSize_spec hw).2.2.1 hfit

theorem served_of_le (hi : HeapInv h L tiles) (hsz : sz ≤ LARGEST) : Served P boot h sz := by
  have hle : wholeSize sz ≤ LARGEST := wholeSize_le hsz
  have hround : roundSize sz = wholeSize sz := roundSize_of_le hsz
  simp only [LARGEST] at hle
  have hneed : add64 (roundSize sz) HEADER = wholeSize sz + HEADER := by
    rw [hround]
    exact add64_of_lt (by simp only [HEADER]; omega)
  have hpages : add64 (add64 (roundSize sz) HEADER) (PAGE - 1) / PAGE = wholePages sz := by
    rw [hneed, add64_of_lt (by simp only [HEADER, PAGE]; omega)]
    rfl
  refine ⟨fun q h' hs => recorded_of_le hi hsz hs, fun hn => ?_, hround,
    fun _ => hneed, fun _ => hpages, fun _ => ?_, fun c h₁ _ => ?_⟩
  · rw [← hpages]
    exact hi.blockAllocate_none hn
  · apply Nat.mod_eq_of_lt
    simp only [wholePages, HEADER, PAGE]; omega
  · rw [hneed]
    exact add64_of_lt (by simp only [HEADER, BLOCK_MINIMUM_ALLOCATION]; omega)

/-! ## Above it -/

/-- A block is smaller than the addresses: the page below the heap and the last page are not
in it. -/
theorem size_le (hi : HeapInv h L tiles) {c : Nat} (hc : c ∈ tiles) :
    size h.mem c + HEADER + 2 * PAGE ≤ 2 ^ 64 := by
  have hend := hi.block_end hc
  have hstart := (hi.tiling.bounds hc).1
  have hpos := hi.base_pos
  have hbase := hi.base_aligned
  have hcur := hi.current_aligned
  have hlt := hi.current_lt
  simp only [PAGE, HEADER] at *
  omega

/-- Above the largest size the search finds nothing. -/
theorem noFit_of_gt (hi : HeapInv h L tiles) (hsz : LARGEST < roundSize sz) : NoFit h sz := by
  obtain ⟨c, hfind, hcase⟩ := hi.findFit_ends (roundSize sz)
  rcases hcase with rfl | ⟨hm, hfit⟩
  · exact hfind
  · have hle := size_le hi (hi.mem_tiles .free c hm)
    simp only [LARGEST, PAGE, HEADER] at hsz hle
    omega

theorem not_served_of_gt (hi : HeapInv h L tiles) (hsz : LARGEST < sz) (hlt : sz < 2 ^ 64) :
    ¬Served P boot h sz := by
  intro hs
  have hround := hs.rounded
  have hwhole : LARGEST < wholeSize sz := by
    simp only [wholeSize, LARGEST, BLOCK_MINIMUM_ALLOCATION] at *
    omega
  have hnone : NoFit h sz := noFit_of_gt hi (by rw [hround]; exact hwhole)
  -- an exact sum with the header is below 2^64, so it is the one with a page that wraps
  have hneed := hs.need hnone
  have hsum := add64_lt (roundSize sz) HEADER
  have hpages := hs.pages hnone
  rw [hneed] at hsum hpages
  simp only [wholePages, add64, LARGEST, PAGE, HEADER] at *
  omega

/-- **A request is served exactly up to 2^64 - 4144.** For every state that a run of the heap
can reach and every 64-bit size: `block_allocate` records at least the size that was asked
for or finds that the heap cannot grow by the pages for it, and it rounds the size, adds the
header and counts the pages without wrapping, iff the size is at most 2^64 - 4144. -/
theorem served_iff {s : HeapRun σ} (hs : (heapLTS P boot).Reachable s) (hlt : sz < 2 ^ 64) :
    Served P boot s.heap sz ↔ sz ≤ 2 ^ 64 - 4144 := by
  obtain ⟨L, tiles, hi, -⟩ := (heap_inductive P boot).reachable hs
  constructor
  · intro hserved
    by_contra hle
    exact not_served_of_gt hi (Nat.lt_of_not_le hle) hlt hserved
  · intro hle
    exact served_of_le hi hle

/-! ## Examples -/

/-- A hundred bytes are served. -/
theorem hundred_served : ∃ h q h', smallHeap = some h ∧
    blockAllocate smallSource smallTable.root 100 h = some (q, h') ∧
    100 ≤ size h'.mem (sub64 q HEADER) := by
  have hrun : (smallHeap.bind (blockAllocate smallSource smallTable.root 100)).isSome := by
    decide +kernel
  obtain ⟨⟨q, h'⟩, hrun⟩ := Option.isSome_iff_exists.mp hrun
  obtain ⟨h, hinit, hs⟩ := Option.bind_eq_some_iff.mp hrun
  have hserved := (served_iff (smallHeap_reachable hinit) (by decide)).mpr (by decide : 100 ≤ _)
  exact ⟨h, q, h', hinit, hs, hserved.recorded q h' hs⟩

/-- **2^64 - 1 bytes are answered with a block of none.** -/
theorem all_bytes_answered : ∃ h q h',
    (heapLTS smallSource smallTable.root).Reachable ⟨h, []⟩ ∧
    blockAllocate smallSource smallTable.root (2 ^ 64 - 1) h = some (q, h') ∧
    size h'.mem (sub64 q HEADER) = 0 ∧ ¬Served smallSource smallTable.root h (2 ^ 64 - 1) := by
  have hsize : ((smallHeap.bind (blockAllocate smallSource smallTable.root (2 ^ 64 - 1))).map
      fun r => size r.2.mem (sub64 r.1 HEADER)) = some 0 := by decide +kernel
  obtain ⟨⟨q, h'⟩, hrun, hsize⟩ := Option.map_eq_some_iff.mp hsize
  obtain ⟨h, hinit, hs⟩ := Option.bind_eq_some_iff.mp hrun
  refine ⟨h, q, h', smallHeap_reachable hinit, hs, hsize, fun hserved => ?_⟩
  have hle : 2 ^ 64 - 1 ≤ size h'.mem (sub64 q HEADER) := hserved.recorded q h' hs
  rw [hsize] at hle
  omega

end GaOS.Bugs.HeapWrap
