import Mathlib.Algebra.Order.BigOperators.Group.List
import Mathlib.Algebra.Order.Ring.Nat
import GaOS.L1Memory.PageAccount

/-!
# Freed pages stay counted as used

`page_deallocate` clears the bits of the range and nothing else
(kernel/src/memory/physical/page_allocator.c:240-251): `used` and `available`
keep counting the pages, although `page_allocate` changes both when it sets the
bits (lines 138-139 and 202-203), and `page_reallocate` goes through it too. Two
things follow.

* The figures of `page_count_used` and `page_count_free` drift from the bitmaps
  by every page ever given back (`accounting_iff_nothing_freed`).
* `page_allocate` asks `available` before it looks at the bitmap, so pages that
  were given back cannot be handed out once the pages that were never handed
  out are gone (`clear_run_served_iff`). `last_allocated_page_index`, which
  deallocation leaves alone as well, does not add to this: with enough
  `available` bytes the pages after `used` are clear and above the cursor.

The bitmap of a pool is storage of its own here, as in the model of the allocator. In a region
whose bitmap does not end before the first page that is handed out (`Bugs.BitmapTail`), owners
of pages write over bits, and nothing is said about that.

Counterexample: a pool of 32 pages; allocate all of them and give them back.

Fix: `pool->used -= PAGE; pool->available += PAGE;` next to `bitmap_unset`, and
a cursor that moves back to the freed index.
-/
namespace GaOS.Bugs.FreedPages

open GaOS.L1.PageAllocator

/-! ## The figures against the bitmaps -/

/-- The counters and the reported figures agree with the bitmaps and with the
live ranges. -/
structure Accounted (s : Own) : Prop where
  used : ∀ p ∈ s.alloc.pools, p.used = PAGE * setBits p
  available : ∀ p ∈ s.alloc.pools, p.available + p.used = p.total
  sum : pageCountUsed s.alloc + pageCountFree s.alloc = pageCountTotal s.alloc
  live : pageCountUsed s.alloc = PAGE * pagesOf s.live

theorem foldl_add64 (f : Pool → Nat) : ∀ (pools : List Pool) (count : Nat),
    count + (pools.map f).sum < 2 ^ 64 →
      pools.foldl (fun count pool => add64 count (f pool)) count = count + (pools.map f).sum
  | [], count, _ => rfl
  | p :: ps, count, h => by
    simp only [List.map_cons, List.sum_cons] at h ⊢
    rw [List.foldl_cons, add64_of_lt (by omega), foldl_add64 f ps _ (by omega), Nat.add_assoc]

section
variable {fr : List Range} {s : Own} (h : Accounts fr s)

include h

/-- The loops of the three counting functions do not wrap. -/
theorem pageCount_eq {f : Pool → Nat} (hf : ∀ p ∈ s.alloc.pools, f p ≤ p.total) :
    pageCount f s.alloc = (s.alloc.pools.map f).sum := by
  have hle : (s.alloc.pools.map f).sum ≤ s.alloc.pools.length * 2 ^ 52 := by
    have hlen : (s.alloc.pools.map f).length = s.alloc.pools.length := List.length_map f
    rw [← hlen, ← Nat.nsmul_eq_mul]
    apply List.sum_le_card_nsmul
    intro x hx
    obtain ⟨p, hp, rfl⟩ := List.mem_map.mp hx
    have h1 := (h.pool p hp).total_lt
    have h2 := (h.pool p hp).entries_le
    have h3 := hf p hp
    simp only [PAGE] at h1; omega
  have hlen := h.length
  unfold pageCount
  rw [foldl_add64 f _ 0 (by omega), Nat.zero_add]

theorem counters_sum :
    pageCountUsed s.alloc + pageCountFree s.alloc = pageCountTotal s.alloc := by
  have hc : ∀ p ∈ s.alloc.pools, p.used + p.available = p.total := fun p hp =>
    (h.pool p hp).counters
  unfold pageCountUsed pageCountFree pageCountTotal
  rw [pageCount_eq h fun p hp => by have := hc p hp; omega,
    pageCount_eq h fun p hp => by have := hc p hp; omega,
    pageCount_eq h fun p _ => Nat.le_refl _, ← List.sum_map_add, List.map_congr_left hc]

theorem pageCountUsed_eq : pageCountUsed s.alloc = PAGE * (pagesOf s.live + pagesOf fr) := by
  rw [← h.sum]
  exact pageCount_eq h fun p hp => by have := (h.pool p hp).counters; omega

/-- One freed range is enough to break the agreement, for good. -/
theorem accounted_iff : Accounted s ↔ fr = [] := by
  constructor
  · intro hacc
    have h1 := pageCountUsed_eq h
    rw [hacc.live] at h1
    have h2 : pagesOf fr = 0 := by simp only [PAGE] at h1; omega
    apply List.eq_nil_iff_forall_not_mem.mpr
    intro r hr
    have h3 : r.pages ≤ pagesOf fr := List.le_sum_of_mem (List.mem_map_of_mem hr)
    have h4 := (h.freed r hr).1
    omega
  · rintro rfl
    refine ⟨h.used, ?_, counters_sum h, pageCountUsed_eq h⟩
    intro p hp
    rw [Nat.add_comm]; exact (h.pool p hp).counters

end

/-! ## A pool emptied and filled again -/

theorem smallMap_disjoint : RegionsDisjoint smallMap := by simp [RegionsDisjoint, smallMap]

/-- The one pool of `smallMap`. -/
def smallPool : Pool := createPool 0xFFFF800000000000 ⟨0x100000, 33 * PAGE, .usable⟩

theorem smallMap_pools {pools : List Pool}
    (h : pageAllocatorCreatePoolsLimine 0xFFFF800000000000 smallMap = some pools) :
    pools = [smallPool] := by
  rw [createPools_eq h]; rfl

/-- Deallocation leaves `available` and `total` of a pool alone. -/
theorem pageDeallocate_counters {s : State} {p : Pool} (h : s.pools = [p]) (base n : Nat) :
    ∃ q, (pageDeallocate s base n).pools = [q] ∧ q.available = p.available ∧
      q.total = p.total := by
  unfold pageDeallocate
  split
  · rename_i i _
    rw [h]
    cases i with
    | zero => exact ⟨p.release base n, rfl, rfl, rfl⟩
    | succ i => exact ⟨p, by simp, rfl, rfl⟩
  · exact ⟨p, h, rfl, rfl⟩

/-- All 32 pages of `smallMap` are handed out, and then given back. -/
theorem smallMap_run :
    ∃ pools a s t, pageAllocatorCreatePoolsLimine 0xFFFF800000000000 smallMap = some pools ∧
      (accountLTS pools).init ⟨⟨pools, fun _ => 0⟩, []⟩ ∧
      (accountLTS pools).Run ⟨⟨pools, fun _ => 0⟩, []⟩ [.allocate 32] s ∧
      (accountLTS pools).Run ⟨⟨pools, fun _ => 0⟩, []⟩ [.allocate 32, .deallocate a 32] t ∧
      t.live = [] ∧ ∃ p, t.alloc.pools = [p] ∧ p.available = 0 ∧ p.total = 32 * PAGE := by
  obtain ⟨pools, hp⟩ : ∃ pools, pageAllocatorCreatePoolsLimine 0xFFFF800000000000 smallMap =
      some pools := createPools_some _ (by decide)
  have hi := (lts_inductive smallMap_ok hp).init ⟨pools, fun _ => 0⟩ rfl
  obtain rfl := smallMap_pools hp
  obtain ⟨⟨a, s⟩, hs⟩ := Option.isSome_iff_exists.mp
    ((pageAllocate_isSome_iff (n := 32) hi (by decide)).mpr ⟨smallPool, by simp, by decide⟩)
  have hs' : ∃ p, s.pools = [p] ∧ p.available = 0 ∧ p.total = 32 * PAGE := by
    obtain ⟨i, p, k, h1, -, -, -, -, rfl, -⟩ := pageAllocate_spec hi (by decide) hs
    obtain ⟨hi, rfl⟩ := List.getElem?_eq_some_iff.mp h1
    obtain rfl : i = 0 := by simpa using hi
    exact ⟨took smallPool 32 k, rfl, by simp only [took]; decide, by simp only [took]; decide⟩
  obtain ⟨p, hp1, hp2, hp3⟩ := hs'
  obtain ⟨q, hq1, hq2, hq3⟩ := pageDeallocate_counters hp1 a 32
  have h1 : (accountLTS [smallPool]).step ⟨⟨[smallPool], fun _ => 0⟩, []⟩ (.allocate 32)
      ⟨s, [⟨a, 32⟩]⟩ := ⟨by decide, a, hs, rfl⟩
  have h2 : (accountLTS [smallPool]).step ⟨s, [⟨a, 32⟩]⟩ (.deallocate a 32)
      ⟨pageDeallocate s a 32, []⟩ := ⟨by simp, rfl, by simp⟩
  exact ⟨_, a, _, _, hp, ⟨rfl, rfl⟩, .cons h1 (.nil _), .cons h1 (.cons h2 (.nil _)), rfl,
    q, hq1, by rw [hq2, hp2], by rw [hq3, hp3]⟩

/-- **When the accounting matches the bitmaps.** For every memory map of disjoint
page-aligned usable regions that fits the pool array, in the state reached by any
run of `page_allocate`, `page_deallocate` and `page_reallocate`, the counters
match the bitmaps and the live ranges exactly when no call of the run gave a
range back. Bitmaps share no byte with pages. -/
theorem accounting_iff_nothing_freed {hhdm : Nat} {es : List MemmapEntry}
    (hes : ∀ e ∈ es, e.type = .usable → RegionOk hhdm e) (hd : RegionsDisjoint es)
    (hcap : (es.filter (Pooled ·)).length ≤ 128) :
    ∃ pools, pageAllocatorCreatePoolsLimine hhdm es = some pools ∧
      ∀ s₀ ls s, (accountLTS pools).init s₀ → (accountLTS pools).Run s₀ ls s →
        (Accounted s ↔ ∀ o ∈ ls, o.frees = none) := by
  obtain ⟨pools, hp⟩ := createPools_some hhdm hcap
  refine ⟨pools, hp, fun s₀ ls s h0 hr => ?_⟩
  rw [accounted_iff (account_run hes hd hcap hp h0 hr), List.filterMap_eq_nil_iff]

theorem accounting_iff_nothing_freed_small :
    ∃ pools a s t, pageAllocatorCreatePoolsLimine 0xFFFF800000000000 smallMap = some pools ∧
      (Accounted s ↔ ∀ o ∈ [AccountOp.allocate 32], o.frees = none) ∧
      (Accounted t ↔ ∀ o ∈ [AccountOp.allocate 32, .deallocate a 32], o.frees = none) := by
  obtain ⟨pools, a, s, t, hp, h0, hs, ht, -⟩ := smallMap_run
  obtain ⟨pools', hp', h⟩ := accounting_iff_nothing_freed smallMap_ok smallMap_disjoint (by decide)
  rw [hp] at hp'; cases hp'
  exact ⟨pools, a, s, t, hp, h _ _ _ h0 hs, h _ _ _ h0 ht⟩

/-- **Counterexample**: 32 pages handed out and given back. No range is live and
no bit is set, and `page_count_used()` still reports 32 pages. -/
theorem freed_pages_counted_as_used :
    ∃ pools a t, pageAllocatorCreatePoolsLimine 0xFFFF800000000000 smallMap = some pools ∧
      (accountLTS pools).Run ⟨⟨pools, fun _ => 0⟩, []⟩ [.allocate 32, .deallocate a 32] t ∧
      t.live = [] ∧ pageCountUsed t.alloc = 32 * PAGE ∧ ¬Accounted t := by
  obtain ⟨pools, a, s, t, hp, h0, -, ht, hl, -⟩ := smallMap_run
  have h := account_run smallMap_ok smallMap_disjoint (by decide) hp h0 ht
  refine ⟨pools, a, t, hp, ht, hl, ?_, ?_⟩
  · rw [pageCountUsed_eq h, hl]; rfl
  · rw [accounted_iff h]; exact List.cons_ne_nil _ _

/-! ## Allocating after deallocating -/

/-- Some pool has `n` consecutive clear bits among its pages. -/
def ClearRun (s : State) (n : Nat) : Prop :=
  ∃ p ∈ s.pools, ∃ k, k + n ≤ p.total / PAGE ∧ ∀ j, k ≤ j → j < k + n → bit p.bitmap j = false

/-- Pages of the pool whose bit is clear. -/
def clearPages (p : Pool) : Nat := p.total / PAGE - setBits p

/-- The clear pages that `available` counts are those never handed out. -/
theorem available_iff {fr : List Range} {s : Own} (h : Accounts fr s) {p : Pool}
    (hp : p ∈ s.alloc.pools) {n : Nat} (hn : 1 ≤ n) :
    n * PAGE ≤ p.available ↔ freedPages fr p + n ≤ clearPages p := by
  have h1 := (h.pool p hp).counters
  have h2 := (h.pool p hp).total_aligned
  have h3 := h.used p hp
  unfold clearPages
  simp only [PAGE] at *
  omega

/-- **When a clear run is served.** In every state reached by a run of
`page_allocate`, `page_deallocate` and `page_reallocate`, for every `n ≥ 1` for
which some pool has `n` consecutive clear pages, `page_allocate(n)` returns
exactly when some pool has `n` clear pages more than the run gave back to it.
Bitmaps share no byte with pages. -/
theorem clear_run_served_iff {hhdm : Nat} {es : List MemmapEntry}
    (hes : ∀ e ∈ es, e.type = .usable → RegionOk hhdm e) (hd : RegionsDisjoint es)
    (hcap : (es.filter (Pooled ·)).length ≤ 128) :
    ∃ pools, pageAllocatorCreatePoolsLimine hhdm es = some pools ∧
      ∀ s₀ ls s, (accountLTS pools).init s₀ → (accountLTS pools).Run s₀ ls s →
        ∀ n, 1 ≤ n → ClearRun s.alloc n →
          ((pageAllocate s.alloc n).isSome ↔
            ∃ p ∈ s.alloc.pools, freedPages (ls.filterMap AccountOp.frees) p + n ≤ clearPages p) := by
  obtain ⟨pools, hp⟩ := createPools_some hhdm hcap
  refine ⟨pools, hp, fun s₀ ls s h0 hr n hn hclear => ?_⟩
  have h := account_run hes hd hcap hp h0 hr
  have hn' : n < 2 ^ 64 := by
    obtain ⟨p, hpm, k, hk, -⟩ := hclear
    have h1 := (h.pool p hpm).window
    simp only [PAGE] at hk; omega
  rw [pageAllocate_isSome_iff h.pool hn', Nat.max_eq_left hn]
  constructor
  · rintro ⟨p, hpm, hav⟩
    exact ⟨p, hpm, (available_iff h hpm hn).mp hav⟩
  · rintro ⟨p, hpm, hcl⟩
    exact ⟨p, hpm, (available_iff h hpm hn).mpr hcl⟩

theorem clear_run_served_iff_small :
    ClearRun ⟨[smallPool], fun _ => 0⟩ 32 ∧
      ((pageAllocate ⟨[smallPool], fun _ => 0⟩ 32).isSome ↔
        ∃ p ∈ [smallPool], freedPages [] p + 32 ≤ clearPages p) := by
  obtain ⟨pools, hp, h⟩ := clear_run_served_iff smallMap_ok smallMap_disjoint (by decide)
  obtain rfl := smallMap_pools hp
  have hrun : ClearRun ⟨[smallPool], fun _ => 0⟩ 32 :=
    ⟨smallPool, by simp, 0, by decide, fun j _ _ => bit_zero j⟩
  exact ⟨hrun, h ⟨⟨[smallPool], fun _ => 0⟩, []⟩ [] _ ⟨rfl, rfl⟩ (.nil _) 32 (by decide) hrun⟩

/-- **Counterexample**: after the 32 pages were given back every bit is clear,
and `page_allocate(1)` panics. -/
theorem freed_pages_not_allocatable :
    ∃ pools a t, pageAllocatorCreatePoolsLimine 0xFFFF800000000000 smallMap = some pools ∧
      (accountLTS pools).Run ⟨⟨pools, fun _ => 0⟩, []⟩ [.allocate 32, .deallocate a 32] t ∧
      ClearRun t.alloc 1 ∧ pageAllocate t.alloc 1 = none := by
  obtain ⟨pools, a, s, t, hp, h0, -, ht, hl, p, hpool, hav, htot⟩ := smallMap_run
  have h := account_run smallMap_ok smallMap_disjoint (by decide) hp h0 ht
  have hpm : p ∈ t.alloc.pools := by rw [hpool]; exact List.mem_singleton_self p
  refine ⟨pools, a, t, hp, ht, ⟨p, hpm, 0, by rw [htot]; decide, ?_⟩, ?_⟩
  · intro j _ _
    rw [← Bool.not_eq_true, h.bits p hpm, hl]
    rintro ⟨-, r, hr, -⟩; cases hr
  · rw [← Option.not_isSome_iff_eq_none, pageAllocate_isSome_iff h.pool (by decide), hpool]
    rintro ⟨q, hq, hle⟩
    rw [List.mem_singleton] at hq
    rw [hq, hav] at hle
    exact absurd hle (by decide)

end GaOS.Bugs.FreedPages
