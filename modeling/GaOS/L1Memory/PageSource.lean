import GaOS.L1Memory.PageAccount

/-!
# What the rest of the kernel relies on from `page_allocate`

The page-table manager, `sys_fork` and the block allocator only ever ask for
pages. `PageSource` is that view: a state, an `allocate` that may fail (the
code panics), and the pages that are still `Free` to be handed out. `Grant`
collects what is promised of a range that was handed out: page-aligned, in the
direct map of the 52-bit physical address space, made of free pages that are no
longer free afterwards, and paid for out of `remaining`.

`Machine` puts a memory next to a source, and `Machine.pageAllocate` zeroes what
it hands out, as the code does.

`poolSource` is the page allocator itself as such a source: its states are pool
lists with the invariants of `PageBounds` and `PageExclusive`
(`pageAllocate_poolSource` says that the machine's allocation is the
allocator's). `PageStore` adds `page_deallocate`, for the callers that give pages
back, and `poolStore` is the page allocator with it.
-/
namespace GaOS.L1

open PageAllocator

/-- The range of `max n 1` pages at `a` was handed out: `Free` and `left` are
the free pages and their bound before, `Free'` and `left'` after. -/
structure Grant (hhdm : Nat) (Free Free' : Nat → Prop) (left left' a n : Nat) : Prop where
  aligned : a % PAGE = 0
  above : hhdm + PAGE ≤ a
  below : a + max n 1 * PAGE ≤ 2 ^ 64
  physical : a + max n 1 * PAGE ≤ hhdm + 2 ^ 52
  fresh : ∀ i, i < max n 1 → Free (a + i * PAGE)
  kept : ∀ x, Free' x → Free x
  taken : ∀ x, Free' x → x + PAGE ≤ a ∨ a + max n 1 * PAGE ≤ x
  paid : left' + max n 1 ≤ left

structure PageSource (σ : Type) where
  /-- `kernel_hhdm_offset` -/
  hhdm : Nat
  allocate : σ → Nat → Option (Nat × σ)
  /-- pages, by address, that may still be handed out -/
  Free : σ → Nat → Prop
  /-- a bound on the pages that can still be handed out -/
  remaining : σ → Nat
  hhdm_aligned : hhdm % PAGE = 0
  grant : ∀ s n a s', n < 2 ^ 64 → allocate s n = some (a, s') →
    Grant hhdm (Free s) (Free s') (remaining s) (remaining s') a n

structure Machine (σ : Type) where
  mem : Mem
  src : σ

def Machine.pageAllocate {σ : Type} (P : PageSource σ) (m : Machine σ) (n : Nat) :
    Option (Nat × Machine σ) :=
  (P.allocate m.src n).map fun (a, src) => (a, ⟨m.mem.zero a (max n 1 * PAGE), src⟩)

section
variable {σ : Type} {P : PageSource σ} {m m' : Machine σ}

/-- Pages from the machine's source. -/
theorem Machine.pageAllocate_grant {n a : Nat} (hn : n < 2 ^ 64)
    (h : m.pageAllocate P n = some (a, m')) :
    Grant P.hhdm (P.Free m.src) (P.Free m'.src) (P.remaining m.src) (P.remaining m'.src) a n ∧
      m'.mem = m.mem.zero a (max n 1 * PAGE) := by
  unfold Machine.pageAllocate at h
  rw [Option.map_eq_some_iff] at h
  obtain ⟨⟨a', src⟩, hs, he⟩ := h
  cases he
  exact ⟨P.grant _ _ _ _ hn hs, rfl⟩

theorem Machine.pageAllocate_spec {a : Nat} (h : m.pageAllocate P 1 = some (a, m')) :
    Grant P.hhdm (P.Free m.src) (P.Free m'.src) (P.remaining m.src) (P.remaining m'.src) a 1 ∧
      m'.mem = m.mem.zero a PAGE :=
  Machine.pageAllocate_grant (by decide) h

end

/-! ## The page allocator as a source -/

/-- Page `x` belongs to a pool and its bit is clear. -/
def FreePage (pools : List Pool) (x : Nat) : Prop :=
  ∃ p ∈ pools, ∃ j, j < p.total / PAGE ∧ bit p.bitmap j = false ∧ x = p.allocateBase + j * PAGE

/-- Pages counted by `available`. -/
def availablePages (pools : List Pool) : Nat := (pools.map fun p => p.available / PAGE).sum

structure PoolsOk (hhdm : Nat) (pools : List Pool) : Prop where
  pool : ∀ p ∈ pools, PoolInv p
  apart : PoolsApart pools
  aligned : ∀ p ∈ pools, p.allocateBase % PAGE = 0
  above : ∀ p ∈ pools, hhdm + PAGE ≤ p.allocateBase
  physical : ∀ p ∈ pools, p.allocateBase + p.total ≤ hhdm + 2 ^ 52

theorem createPools_ok {hhdm : Nat} {es : List MemmapEntry} {pools : List Pool}
    (hh : hhdm % PAGE = 0) (hes : ∀ e ∈ es, e.type = .usable → RegionOk hhdm e)
    (hd : RegionsDisjoint es) (hp : pageAllocatorCreatePoolsLimine hhdm es = some pools) :
    PoolsOk hhdm pools := by
  have hinv := (own_inductive hes hd hp).init ⟨⟨pools, fun _ => 0⟩, []⟩ ⟨rfl, rfl⟩
  refine ⟨hinv.pool, hinv.apart, ?_, ?_, ?_⟩ <;> intro p hm <;>
    obtain ⟨e, he, hpe, rfl⟩ := mem_createPools hp hm <;>
    obtain ⟨-, h1, h2⟩ := createPool_fields (hes e he hpe.1) hpe.2 <;>
    obtain ⟨r1, r2, r3⟩ := requiredBitmapBytes_spec hpe.2 <;>
    have ha := (hes e he hpe.1).base_aligned <;>
    have hph := (hes e he hpe.1).physical
  · rw [h1]; simp only [PAGE] at *; omega
  · rw [h1]; omega
  · rw [h1, h2]; omega

theorem sum_set_lt {l : List Pool} {f : Pool → Nat} : ∀ {i : Nat} {p p' : Pool} {n : Nat},
    l[i]? = some p → f p' + n ≤ f p → ((l.set i p').map f).sum + n ≤ (l.map f).sum := by
  induction l with
  | nil => intro i p p' n h; simp at h
  | cons q l ih =>
    intro i p p' n h hle
    cases i with
    | zero => simp at h; subst h; simp; omega
    | succ i =>
      simp only [List.getElem?_cons_succ] at h
      have := ih h hle
      simp only [List.set_cons_succ, List.map_cons, List.sum_cons]; omega

theorem pool_grant {hhdm : Nat} {s s' : State} (h : PoolsOk hhdm s.pools) {n a : Nat}
    (hn : n < 2 ^ 64) (hs : PageAllocator.pageAllocate s n = some (a, s')) :
    PoolsOk hhdm s'.pools ∧ Grant hhdm (FreePage s.pools) (FreePage s'.pools)
      (availablePages s.pools) (availablePages s'.pools) a n := by
  obtain ⟨i, p, k, hp, hav, hk, hclear, rfl, rfl, -⟩ := pageAllocate_spec h.pool hn hs
  have hpm := List.mem_of_getElem? hp
  have hpi := h.pool p hpm
  have hc := hpi.counters
  have hw := hpi.window
  have htk : k + max n 1 < 2 ^ 64 := by
    have h2 := hpi.total_lt; have h3 := hpi.entries_le
    clear hs
    simp only [PAGE] at *; omega
  have hbound : k + max n 1 ≤ p.total / PAGE := by
    rw [Nat.le_div_iff_mul_le (by decide), Nat.add_mul, ← hc]
    exact Nat.add_le_add hk hav
  have hbit : ∀ j, bit (took p (max n 1) k).bitmap j = false →
      bit p.bitmap j = false ∧ (j < k ∨ k + max n 1 ≤ j) := by
    intro j hb
    rw [← Bool.not_eq_true, took, bit_setRange_of_lt htk, not_or] at hb
    exact ⟨by simpa using hb.1, by omega⟩
  refine ⟨⟨pageAllocate_inv h.pool hn hs, ?_, ?_, ?_, ?_⟩, ⟨?_, ?_, ?_, ?_, ?_, ?_, ?_, ?_⟩⟩
  · exact h.apart.set hp rfl rfl
  · intro q hq
    obtain ⟨j, hj⟩ := List.mem_iff_getElem?.mp hq
    obtain ⟨q', e1, e2, -⟩ := set_region hj hp rfl rfl
    rw [e2]; exact h.aligned q' (List.mem_of_getElem? e1)
  · intro q hq
    obtain ⟨j, hj⟩ := List.mem_iff_getElem?.mp hq
    obtain ⟨q', e1, e2, -⟩ := set_region hj hp rfl rfl
    rw [e2]; exact h.above q' (List.mem_of_getElem? e1)
  · intro q hq
    obtain ⟨j, hj⟩ := List.mem_iff_getElem?.mp hq
    obtain ⟨q', e1, e2, e3⟩ := set_region hj hp rfl rfl
    rw [e2, e3]; exact h.physical q' (List.mem_of_getElem? e1)
  · have := h.aligned p hpm
    simp only [PAGE] at this ⊢; omega
  · have := h.above p hpm; omega
  · omega
  · have := h.physical p hpm; omega
  · intro j hj
    exact ⟨p, hpm, k + j, by omega, hclear _ (by omega) (by omega), by rw [Nat.add_mul]; omega⟩
  · rintro x ⟨q, hq, j, hj, hb, rfl⟩
    obtain ⟨l, hl⟩ := List.mem_iff_getElem?.mp hq
    rcases getElem?_set_cases hl with ⟨-, rfl⟩ | ⟨-, hl⟩
    · exact ⟨p, hpm, j, hj, (hbit j hb).1, rfl⟩
    · exact ⟨q, List.mem_of_getElem? hl, j, hj, hb, rfl⟩
  · rintro x ⟨q, hq, j, hj, hb, rfl⟩
    obtain ⟨l, hl⟩ := List.mem_iff_getElem?.mp hq
    rcases getElem?_set_cases hl with ⟨-, rfl⟩ | ⟨hne, hl⟩
    · have h1 := (hbit j hb).2
      clear hs hav hk
      simp only [took, PAGE]; omega
    · have ha := h.apart i l p q hp hl hne
      have h3 : j * PAGE + PAGE ≤ q.total := by
        have := (Nat.le_div_iff_mul_le (by decide : 0 < PAGE)).mp hj
        rwa [Nat.succ_mul] at this
      unfold Apart at ha
      omega
  · apply sum_set_lt hp
    simp only [took]
    rw [← Nat.le_sub_iff_add_le, ← Nat.sub_mul_div]
    · exact Nat.le_of_eq (by rw [Nat.mul_comm])
    · exact (Nat.le_div_iff_mul_le (by decide)).mpr hav

/-- The page allocator as a page source. -/
def poolSource (hhdm : Nat) (hh : hhdm % PAGE = 0) :
    PageSource { pools : List Pool // PoolsOk hhdm pools } where
  hhdm := hhdm
  allocate s n :=
    if hn : n < 2 ^ 64 then
      match h : PageAllocator.pageAllocate ⟨s.1, fun _ => 0⟩ n with
      | some (a, s') => some (a, ⟨s'.pools, (pool_grant (s := ⟨s.1, fun _ => 0⟩) s.2 hn h).1⟩)
      | none => none
    else none
  Free s := FreePage s.1
  remaining s := availablePages s.1
  hhdm_aligned := hh
  grant s n a s' hn h := by
    rw [dif_pos hn] at h
    split at h
    · rename_i hs
      cases h
      exact (pool_grant (s := ⟨s.1, fun _ => 0⟩) s.2 hn hs).2
    · cases h

theorem poolSource_isSome_iff {hhdm : Nat} (hh : hhdm % PAGE = 0)
    {s : { pools : List Pool // PoolsOk hhdm pools }} {n : Nat} (hn : n < 2 ^ 64) :
    ((poolSource hhdm hh).allocate s n).isSome ↔ ∃ p ∈ s.1, max n 1 * PAGE ≤ p.available := by
  rw [← pageAllocate_isSome_iff (s := ⟨s.1, fun _ => 0⟩) s.2.pool hn]
  unfold poolSource
  simp only [dif_pos hn]
  split
  · rename_i h
    exact iff_of_true rfl (by simp [h])
  · rename_i h
    exact iff_of_false nofun (by simp [h])

/-- The scan does not read the memory of the pages. -/
theorem pageAllocate_mem (pools : List Pool) (mem mem' : Mem) (n : Nat) :
    PageAllocator.pageAllocate ⟨pools, mem⟩ n =
      (PageAllocator.pageAllocate ⟨pools, mem'⟩ n).map fun (a, s) =>
        (a, ⟨s.pools, mem.zero a (max n 1 * PAGE)⟩) := by
  have hmax : max n 1 = if n = 0 then 1 else n := by split <;> omega
  rw [hmax]
  unfold PageAllocator.pageAllocate
  generalize (if n = 0 then 1 else n) = pages
  simp only
  split
  · rename_i h1
    subst h1
    simp only [pageAllocateSingleFast, Option.map_map, Function.comp_def, Nat.one_mul]
  · simp only [pageAllocateRange, Option.map_map, Function.comp_def]

/-- Allocating through `poolSource` is `page_allocate` on the allocator's own
state. -/
theorem pageAllocate_poolSource {hhdm : Nat} (hh : hhdm % PAGE = 0)
    {m : Machine { pools : List Pool // PoolsOk hhdm pools }} {n : Nat} (hn : n < 2 ^ 64) :
    PageAllocator.pageAllocate ⟨m.src.1, m.mem⟩ n =
      (m.pageAllocate (poolSource hhdm hh) n).map fun (a, m') => (a, ⟨m'.src.1, m'.mem⟩) := by
  rw [pageAllocate_mem m.src.1 m.mem (fun _ => 0) n]
  unfold Machine.pageAllocate poolSource
  simp only [dif_pos hn]
  split
  · rename_i h
    exact (congrArg (Option.map _) h).trans rfl
  · rename_i h; rw [h]; rfl

/-! ## Giving pages back -/

/-- A page source with `page_deallocate`. -/
structure PageStore (σ : Type) extends PageSource σ where
  deallocate : σ → Nat → Nat → σ

/-- mirrors kernel/src/memory/physical/page_allocator.c:262-268 -/
def Machine.pageReallocate {σ : Type} (P : PageStore σ) (m : Machine σ)
    (base oldPages newPages : Nat) : Option (Nat × Machine σ) :=
  (m.pageAllocate P.toPageSource newPages).map fun (newBase, m) =>
    (newBase, ⟨m.mem.copy newBase base (mul64 oldPages PAGE), P.deallocate m.src base oldPages⟩)

theorem pageDeallocate_ok {hhdm : Nat} {pools : List Pool} (h : PoolsOk hhdm pools)
    (base n : Nat) : PoolsOk hhdm (pageDeallocate ⟨pools, fun _ => 0⟩ base n).pools := by
  have hinv := pageDeallocate_inv (s := ⟨pools, fun _ => 0⟩) h.pool base n
  unfold pageDeallocate at hinv ⊢
  cases hf : findPool pools base with
  | none => exact h
  | some i =>
    simp only [hf] at hinv ⊢
    -- the pool that changes keeps its region
    have hold : ∀ (j : Nat) (q : Pool), (pools.modify i (·.release base n))[j]? = some q →
        ∃ q' : Pool, pools[j]? = some q' ∧ q.allocateBase = q'.allocateBase ∧ q.total = q'.total := by
      intro j q hq
      rw [List.getElem?_modify] at hq
      obtain ⟨q', hq', rfl⟩ := Option.map_eq_some_iff.mp hq
      refine ⟨q', hq', ?_⟩
      split
      · exact ⟨rfl, rfl⟩
      · exact ⟨rfl, rfl⟩
    have hmem : ∀ q ∈ pools.modify i (·.release base n),
        ∃ q' ∈ pools, q.allocateBase = q'.allocateBase ∧ q.total = q'.total := by
      intro q hq
      obtain ⟨j, hj⟩ := List.mem_iff_getElem?.mp hq
      obtain ⟨q', h1, h2⟩ := hold j q hj
      exact ⟨q', List.mem_of_getElem? h1, h2⟩
    refine ⟨hinv, fun j l q r hq hr hne => ?_, fun q hq => ?_, fun q hq => ?_, fun q hq => ?_⟩
    · obtain ⟨q', h1, h2, h3⟩ := hold j q hq
      obtain ⟨r', k1, k2, k3⟩ := hold l r hr
      have := h.apart j l q' r' h1 k1 hne
      unfold Apart at *
      rw [h2, h3, k2, k3]; exact this
    · obtain ⟨q', h1, h2, -⟩ := hmem q hq
      rw [h2]; exact h.aligned q' h1
    · obtain ⟨q', h1, h2, -⟩ := hmem q hq
      rw [h2]; exact h.above q' h1
    · obtain ⟨q', h1, h2, h3⟩ := hmem q hq
      rw [h2, h3]; exact h.physical q' h1

/-- The page allocator as a page store. -/
def poolStore (hhdm : Nat) (hh : hhdm % PAGE = 0) :
    PageStore { pools : List Pool // PoolsOk hhdm pools } where
  toPageSource := poolSource hhdm hh
  deallocate s base n :=
    ⟨(pageDeallocate ⟨s.1, fun _ => 0⟩ base n).pools, pageDeallocate_ok s.2 base n⟩

/-- Reallocating through `poolStore` is `page_reallocate` on the allocator's own
state. -/
theorem pageReallocate_poolStore {hhdm : Nat} {hh : hhdm % PAGE = 0}
    {m : Machine { pools : List Pool // PoolsOk hhdm pools }} {base oldPages newPages : Nat}
    (hn : newPages < 2 ^ 64) :
    PageAllocator.pageReallocate ⟨m.src.1, m.mem⟩ base oldPages newPages =
      (m.pageReallocate (poolStore hhdm hh) base oldPages newPages).map
        fun (a, m') => (a, ⟨m'.src.1, m'.mem⟩) := by
  have hmem : ∀ (pools : List Pool) (mem : Mem), pageDeallocate ⟨pools, mem⟩ base oldPages =
      ⟨(pageDeallocate ⟨pools, fun _ => 0⟩ base oldPages).pools, mem⟩ := by
    intro pools mem
    unfold pageDeallocate
    cases findPool pools base with
    | none => rfl
    | some i => rfl
  unfold PageAllocator.pageReallocate Machine.pageReallocate
  rw [pageAllocate_poolSource hh hn, Option.map_map, Option.map_map]
  congr 1
  funext ⟨a, m'⟩
  exact congrArg (Prod.mk a) (hmem _ _)

/-! ## A source without deallocation -/

/-- The usual offset of the direct map. -/
theorem hhdm_aligned : 0xFFFF800000000000 % PAGE = 0 := by decide

/-! A direct map of 64 pages, and the null page. -/

theorem pages64_physical : (64 + 1) * PAGE ≤ 2 ^ 52 := by decide

theorem pages64_end : 0xFFFF800000000000 + (64 + 1) * PAGE ≤ 2 ^ 64 := by decide

/-- The pages after the first of the direct map, in order: what a single fresh
pool hands out while nothing is given back. The state counts the pages taken. -/
def bumpSource (hhdm limit : Nat) (hh : hhdm % PAGE = 0) (hl : (limit + 1) * PAGE ≤ 2 ^ 52)
    (ht : hhdm + (limit + 1) * PAGE ≤ 2 ^ 64) : PageSource Nat where
  hhdm := hhdm
  allocate s n :=
    if s + max n 1 ≤ limit then some (hhdm + (s + 1) * PAGE, s + max n 1) else none
  Free s x := ∃ k, s ≤ k ∧ k < limit ∧ x = hhdm + (k + 1) * PAGE
  remaining s := limit - s
  hhdm_aligned := hh
  grant s n a s' hn h := by
    split at h
    · rename_i hle
      cases h
      refine ⟨?_, ?_, ?_, ?_, fun i hi => ⟨s + i, by omega, by omega, ?_⟩, ?_, ?_, by omega⟩
      · simp only [PAGE] at *; omega
      · simp only [PAGE]; omega
      · simp only [PAGE] at *; omega
      · simp only [PAGE] at *; omega
      · simp only [PAGE]; omega
      · intro x ⟨k, h1, h2, h3⟩
        exact ⟨k, by omega, h2, h3⟩
      · intro x ⟨k, h1, h2, h3⟩
        right
        rw [h3, Nat.add_assoc, ← Nat.add_mul]
        exact Nat.add_le_add_left (Nat.mul_le_mul_right _ (by omega)) _
    · cases h

end GaOS.L1
