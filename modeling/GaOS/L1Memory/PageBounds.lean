import GaOS.Core.LTS
import GaOS.L1Memory.PageBitmap

/-!
# Every page handed out lies in its region

`bitmap_entries` counts the pages of the whole region, so the scan could run
past the end of the pages that are left after the bitmap. It does not, because
`used` never goes down: `PoolInv` ties the cursor and every set bit to `used`
(`cursor`, `bits`), so a run that the scan takes ends at most `n` pages after
`used`, and `available` keeps that below `total`. Freeing clears bits only,
which `PoolInv` allows, live or not.

`serveRange_spec` is the one lemma about a pool's turn; `lts_inductive` lifts
`PoolInv` to every run of allocations and deallocations.
-/
namespace GaOS.L1.PageAllocator

/-! ## Regions and the pools made from them -/

/-- What the boot protocol promises of a usable region: page-aligned, inside
the 52-bit physical address space, and with its image in the higher-half direct
map inside the 64-bit one. -/
structure RegionOk (hhdm : Nat) (e : MemmapEntry) : Prop where
  base_aligned : e.base % PAGE = 0
  length_aligned : e.length % PAGE = 0
  physical : e.base + e.length ≤ 2 ^ 52
  window : e.base + e.length + hhdm < 2 ^ 64

/-- What a pool keeps through every run. -/
structure PoolInv (p : Pool) : Prop where
  entries_le : p.bitmapEntries ≤ 2 ^ 40
  total_lt : p.total < p.bitmapEntries * PAGE
  total_aligned : p.total % PAGE = 0
  window : p.allocateBase + p.total < 2 ^ 64
  counters : p.used + p.available = p.total
  cursor : p.lastAllocatedPageIndex * PAGE ≤ p.used
  bits : ∀ j, bit p.bitmap j = true → (j + 1) * PAGE ≤ p.used

theorem requiredBitmapBytes_spec {length : Nat} (h : 128 * 1024 < length) :
    requiredBitmapBytes length % PAGE = 0 ∧ PAGE ≤ requiredBitmapBytes length ∧
      requiredBitmapBytes length < length := by
  unfold requiredBitmapBytes
  simp only [PAGE]
  split <;> omega

/-- The fields of a new pool, with the reductions modulo 2^64 gone. -/
theorem createPool_fields {hhdm : Nat} {e : MemmapEntry} (h : RegionOk hhdm e)
    (hl : 128 * 1024 < e.length) :
    (createPool hhdm e).bitmapBase = e.base + hhdm ∧
    (createPool hhdm e).allocateBase = e.base + requiredBitmapBytes e.length + hhdm ∧
    (createPool hhdm e).total = e.length - requiredBitmapBytes e.length := by
  obtain ⟨-, -, h3⟩ := requiredBitmapBytes_spec hl
  have hw := h.window
  refine ⟨add64_of_lt (by omega), ?_, sub64_of_le (by omega) (by omega)⟩
  simp only [createPool]
  rw [add64_of_lt (a := e.base) (by omega), add64_of_lt (by omega)]

theorem bit_zero (j : Nat) : bit (fun _ => 0) j = false := by simp [bit]

theorem createPool_inv {hhdm : Nat} {e : MemmapEntry} (h : RegionOk hhdm e)
    (hl : 128 * 1024 < e.length) : PoolInv (createPool hhdm e) := by
  obtain ⟨h1, h2, h3⟩ := requiredBitmapBytes_spec hl
  obtain ⟨-, hb, ht⟩ := createPool_fields h hl
  have hw := h.window
  have hp := h.physical
  have ha := h.length_aligned
  refine ⟨?_, ?_, ?_, ?_, ?_, ?_, ?_⟩
  · simp only [createPool, PAGE]; omega
  · rw [ht]; simp only [createPool, PAGE] at *; omega
  · rw [ht]; simp only [PAGE] at *; omega
  · rw [hb, ht]; omega
  · show 0 + (createPool hhdm e).total = _
    omega
  · simp [createPool]
  · intro j hj
    simp only [createPool] at hj
    rw [bit_zero] at hj; cases hj

/-- A memory map entry that gets a pool. -/
def Pooled (e : MemmapEntry) : Prop := e.type = .usable ∧ 128 * 1024 < e.length

instance (e : MemmapEntry) : Decidable (Pooled e) := inferInstanceAs (Decidable (_ ∧ _))

/-- The pools are those of the entries larger than 128 KiB, in order, and
they are all made as long as they fit the array. -/
theorem createPoolsFrom_eq (hhdm : Nat) : ∀ (es : List MemmapEntry) (acc : List Pool),
    createPoolsFrom hhdm es acc =
      if acc.length + (es.filter (Pooled ·)).length ≤ 128 ∨ es.filter (Pooled ·) = [] then
        some (acc ++ (es.filter (Pooled ·)).map (createPool hhdm))
      else none
  | [], acc => by simp [createPoolsFrom]
  | e :: es, acc => by
    unfold createPoolsFrom
    by_cases h1 : e.type = .usable
    · by_cases h2 : e.length ≤ 128 * 1024
      · have hn : ¬Pooled e := fun h => by have := h.2; omega
        rw [if_neg (not_not.mpr h1), if_pos h2, createPoolsFrom_eq hhdm es acc,
          List.filter_cons_of_neg (by simpa using hn)]
      · have hp : Pooled e := ⟨h1, by omega⟩
        rw [if_neg (not_not.mpr h1), if_neg h2, List.filter_cons_of_pos (by simpa using hp)]
        simp only [List.length_cons, List.map_cons, reduceCtorEq, or_false]
        split
        · rename_i hlt
          rw [createPoolsFrom_eq hhdm es]
          simp only [List.length_append, List.length_cons, List.length_nil, List.append_assoc,
            List.cons_append, List.nil_append]
          congr 1
          rw [eq_iff_iff]
          constructor
          · rintro (h | h)
            · omega
            · rw [h, List.length_nil]; omega
          · intro h; exact Or.inl (by omega)
        · rw [if_neg (by omega)]
    · have hn : ¬Pooled e := fun h => h1 h.1
      rw [if_pos h1, createPoolsFrom_eq hhdm es acc, List.filter_cons_of_neg (by simpa using hn)]

theorem createPools_eq {hhdm : Nat} {es : List MemmapEntry} {pools : List Pool}
    (h : pageAllocatorCreatePoolsLimine hhdm es = some pools) :
    pools = (es.filter (Pooled ·)).map (createPool hhdm) := by
  unfold pageAllocatorCreatePoolsLimine at h
  rw [createPoolsFrom_eq] at h
  split at h
  · cases h; rfl
  · cases h

theorem createPools_some (hhdm : Nat) {es : List MemmapEntry}
    (h : (es.filter (Pooled ·)).length ≤ 128) :
    ∃ pools, pageAllocatorCreatePoolsLimine hhdm es = some pools := by
  unfold pageAllocatorCreatePoolsLimine
  rw [createPoolsFrom_eq, if_pos (Or.inl (by simpa using h))]
  exact ⟨_, rfl⟩

theorem mem_createPools {hhdm : Nat} {es : List MemmapEntry} {pools : List Pool}
    (h : pageAllocatorCreatePoolsLimine hhdm es = some pools) {p : Pool} (hp : p ∈ pools) :
    ∃ e ∈ es, Pooled e ∧ p = createPool hhdm e := by
  rw [createPools_eq h, List.mem_map] at hp
  obtain ⟨e, he, rfl⟩ := hp
  rw [List.mem_filter] at he
  exact ⟨e, he.1, by simpa using he.2, rfl⟩

/-! ## One pool's turn -/

/-- A run found at `k` starts at most at `used`: either the scan never moved,
or the page before it is taken. -/
theorem scan_start {p : Pool} (hi : PoolInv p) {n k : Nat}
    (hno : ∀ j, j ≤ p.bitmapEntries → j + n < 2 ^ 64) (hk : k < p.bitmapEntries)
    (hle : p.lastAllocatedPageIndex ≤ k) (hf : Fits p.bitmap p.bitmapEntries n k)
    (hmin : ∀ j, p.lastAllocatedPageIndex ≤ j → j < k → ¬Fits p.bitmap p.bitmapEntries n j) :
    k * PAGE ≤ p.used := by
  rcases Nat.eq_or_lt_of_le hle with he | hlt
  · rw [← he]; exact hi.cursor
  · obtain ⟨-, hfit, hc⟩ := hf
    rw [add64_of_lt (hno k (by omega))] at hfit
    rw [rangeClear_of_lt (hno k (by omega))] at hc
    -- `k - 1` was refused, and everything from `k` on is clear
    have hprev : bit p.bitmap (k - 1) = true := by
      by_contra hb
      rw [Bool.not_eq_true] at hb
      refine hmin (k - 1) (by omega) (by omega) ⟨hb, ?_, ?_⟩
      · rw [add64_of_lt (hno _ (by omega))]; omega
      · rw [rangeClear_of_lt (hno _ (by omega))]
        intro i h1 h2
        rcases Nat.eq_or_lt_of_le h1 with rfl | h1
        · exact hb
        · exact hc i (by omega) (by omega)
    have := hi.bits (k - 1) hprev
    rwa [show k - 1 + 1 = k by omega] at this

/-- A request that a pool serves fits `available` as an exact product. -/
theorem serve_exact {p : Pool} (hi : PoolInv p) {n k : Nat} (hn : n < 2 ^ 64)
    (hav : mul64 n PAGE ≤ p.available) (hk : k < p.bitmapEntries)
    (hfit : add64 k n ≤ p.bitmapEntries) : n * PAGE ≤ p.available := by
  have h1 := hi.entries_le
  have h2 := hi.total_lt
  have h3 := hi.counters
  simp only [mul64, add64, PAGE] at *
  omega

/-- The pool after it has handed out `[k, k + n)`. -/
def took (p : Pool) (n k : Nat) : Pool :=
  { p with
    bitmap := setRange p.bitmap k 0 n
    used := p.used + n * PAGE
    available := p.available - n * PAGE
    lastAllocatedPageIndex := k }

theorem serveRange_spec {p : Pool} (hi : PoolInv p) {n a : Nat} {p' : Pool} (hn : 1 ≤ n)
    (hn' : n < 2 ^ 64) (h : serveRange n p = some (a, p')) :
    ∃ k, n * PAGE ≤ p.available ∧ k * PAGE ≤ p.used ∧
      (∀ i, k ≤ i → i < k + n → bit p.bitmap i = false) ∧
      a = p.allocateBase + k * PAGE ∧ p' = took p n k := by
  unfold serveRange at h
  simp only at h
  split at h
  · cases h
  · rename_i hav
    rw [Option.map_eq_some_iff] at h
    obtain ⟨k, hs, ht⟩ := h
    obtain ⟨hle, hlt, hf, hmin⟩ := scanRange_some hs
    have hk : k < p.bitmapEntries := by omega
    have hex := serve_exact hi hn' (by omega) hk hf.2.1
    have he := hi.entries_le
    have hc := hi.counters
    have htl := hi.total_lt
    have hw := hi.window
    have hno : ∀ j, j ≤ p.bitmapEntries → j + n < 2 ^ 64 := by
      intro j hj; simp only [PAGE] at *; omega
    have hst := scan_start hi hno hk hle hf hmin
    refine ⟨k, hex, hst, (rangeClear_of_lt (hno k (by omega))).mp hf.2.2, ?_⟩
    have e1 : mul64 n PAGE = n * PAGE := mul64_of_lt (by simp only [PAGE] at *; omega)
    have e2 : mul64 k PAGE = k * PAGE := mul64_of_lt (by simp only [PAGE] at *; omega)
    have e3 : add64 p.allocateBase (k * PAGE) = p.allocateBase + k * PAGE :=
      add64_of_lt (by omega)
    have e4 : add64 p.used (n * PAGE) = p.used + n * PAGE := add64_of_lt (by omega)
    have e5 : sub64 p.available (n * PAGE) = p.available - n * PAGE :=
      sub64_of_le hex (by omega)
    rw [take, e1, e2, e3, e4, e5] at ht
    cases ht
    exact ⟨rfl, rfl⟩

/-- Enough `available` bytes are always enough: the pages right after `used`
are clear. -/
theorem serveRange_isSome {p : Pool} (hi : PoolInv p) {n : Nat} (hn : 1 ≤ n)
    (hav : n * PAGE ≤ p.available) : (serveRange n p).isSome := by
  obtain ⟨he, htl, hta, hw, hc, hcur, hb⟩ := hi
  have hex : mul64 n PAGE = n * PAGE := mul64_of_lt (by simp only [PAGE] at *; omega)
  unfold serveRange
  simp only [hex]
  rw [if_neg (by omega), Option.isSome_map]
  have hend : (p.used / PAGE + n) * PAGE ≤ p.total := by
    rw [Nat.add_mul, ← hc]
    exact Nat.add_le_add (Nat.div_mul_le_self _ _) hav
  have hclear : ∀ i, p.used / PAGE ≤ i → bit p.bitmap i = false := by
    intro i hle
    by_contra h
    have := (Nat.le_div_iff_mul_le (by decide)).mpr (hb i (by simpa using h))
    omega
  refine scanRange_isSome (k := p.used / PAGE) ?_ ?_ ⟨hclear _ (Nat.le_refl _), ?_, ?_⟩
  · simp only [PAGE] at *; omega
  · simp only [PAGE] at *; omega
  · rw [add64_of_lt (by simp only [PAGE] at *; omega)]
    simp only [PAGE] at *; omega
  · rw [rangeClear_of_lt (by simp only [PAGE] at *; omega)]
    intro i h1 _
    exact hclear i h1

theorem serveRange_none_iff {p : Pool} (hi : PoolInv p) {n : Nat} (hn : 1 ≤ n)
    (hn' : n < 2 ^ 64) : serveRange n p = none ↔ p.available < n * PAGE := by
  constructor
  · intro h
    by_contra hc
    have := serveRange_isSome hi hn (by omega)
    rw [h] at this; cases this
  · intro h
    cases hs : serveRange n p with
    | none => rfl
    | some r =>
      obtain ⟨a, p'⟩ := r
      obtain ⟨_, hex, -⟩ := serveRange_spec hi hn hn' hs
      omega

theorem took_inv {p : Pool} (hi : PoolInv p) {n k : Nat} (hn : 1 ≤ n)
    (hav : n * PAGE ≤ p.available) (hk : k * PAGE ≤ p.used) : PoolInv (took p n k) := by
  obtain ⟨he, htl, hta, hw, hc, hcur, hb⟩ := hi
  refine ⟨he, htl, hta, hw, ?_, ?_, ?_⟩
  · simp only [took, PAGE] at *; omega
  · exact Nat.le_trans hk (Nat.le_add_right _ _)
  · intro j hj
    simp only [took] at hj ⊢
    rw [bit_setRange_of_lt (by simp only [PAGE] at *; omega)] at hj
    rcases hj with hj | ⟨-, hj⟩
    · exact Nat.le_trans (hb j hj) (Nat.le_add_right _ _)
    · calc (j + 1) * PAGE ≤ (k + n) * PAGE := Nat.mul_le_mul_right _ hj
        _ = k * PAGE + n * PAGE := Nat.add_mul _ _ _
        _ ≤ p.used + n * PAGE := Nat.add_le_add_right hk _

/-! ## The pool loop -/

theorem firstServing_some {f : Pool → Option (Nat × Pool)} : ∀ {pools : List Pool} {a pools'},
    firstServing f pools = some (a, pools') →
      ∃ i p p', pools[i]? = some p ∧ f p = some (a, p') ∧ pools' = pools.set i p' ∧
        ∀ j q, j < i → pools[j]? = some q → f q = none
  | [], _, _, h => by cases h
  | p :: ps, a, pools', h => by
    rw [firstServing] at h
    split at h
    · rename_i a' p' hf
      cases h
      exact ⟨0, p, p', rfl, hf, rfl, fun j q hj => by omega⟩
    · rename_i hf
      rw [Option.map_eq_some_iff] at h
      obtain ⟨⟨a', ps'⟩, hr, he⟩ := h
      cases he
      obtain ⟨i, q, q', h1, h2, h3, h4⟩ := firstServing_some hr
      refine ⟨i + 1, q, q', by simpa using h1, h2, by rw [h3]; rfl, ?_⟩
      intro j r hj hr
      cases j with
      | zero => simp only [List.getElem?_cons_zero, Option.some.injEq] at hr; subst hr; exact hf
      | succ j => exact h4 j r (by omega) (by simpa using hr)

theorem firstServing_none {f : Pool → Option (Nat × Pool)} : ∀ {pools : List Pool},
    firstServing f pools = none ↔ ∀ p ∈ pools, f p = none
  | [] => by simp [firstServing]
  | p :: ps => by
    rw [firstServing, List.forall_mem_cons, ← firstServing_none]
    split
    · rename_i hf; simp [hf]
    · rename_i hf; simp [hf]

/-- **One call of `page_allocate`.** It succeeds exactly when some pool has the
bytes, and then it hands out pages `[k, k + max n 1)` of the first such pool,
all of them clear before, and changes nothing else but the zeroed memory. -/
theorem pageAllocate_spec {s : State} (hi : ∀ p ∈ s.pools, PoolInv p) {n : Nat}
    (hn : n < 2 ^ 64) {a : Nat} {s' : State} (h : pageAllocate s n = some (a, s')) :
    ∃ i p k, s.pools[i]? = some p ∧ max n 1 * PAGE ≤ p.available ∧ k * PAGE ≤ p.used ∧
      (∀ j, k ≤ j → j < k + max n 1 → bit p.bitmap j = false) ∧
      a = p.allocateBase + k * PAGE ∧
      s' = ⟨s.pools.set i (took p (max n 1) k), s.mem.zero a (max n 1 * PAGE)⟩ ∧
      ∀ j q, j < i → s.pools[j]? = some q → q.available < max n 1 * PAGE := by
  rw [pageAllocate_eq (fun p hp => by have := (hi p hp).entries_le; omega)] at h
  have hm : 1 ≤ max n 1 := by omega
  have hm' : max n 1 < 2 ^ 64 := by omega
  unfold pageAllocateRange at h
  rw [Option.map_eq_some_iff] at h
  obtain ⟨⟨a', pools'⟩, hs, he⟩ := h
  cases he
  obtain ⟨i, p, p', h1, h2, h3, h4⟩ := firstServing_some hs
  have hp := hi p (List.mem_of_getElem? h1)
  obtain ⟨k, k1, k2, k3, k4, k5⟩ := serveRange_spec hp hm hm' h2
  refine ⟨i, p, k, h1, k1, k2, k3, k4, by rw [h3, k5], ?_⟩
  intro j q hj hq
  exact (serveRange_none_iff (hi q (List.mem_of_getElem? hq)) hm hm').mp (h4 j q hj hq)

theorem pageAllocate_isSome_iff {s : State} (hi : ∀ p ∈ s.pools, PoolInv p) {n : Nat}
    (hn : n < 2 ^ 64) :
    (pageAllocate s n).isSome ↔ ∃ p ∈ s.pools, max n 1 * PAGE ≤ p.available := by
  rw [pageAllocate_eq (fun p hp => by have := (hi p hp).entries_le; omega), pageAllocateRange,
    Option.isSome_map, ← not_iff_not]
  simp only [Option.not_isSome_iff_eq_none, firstServing_none, not_exists, not_and, Nat.not_le]
  constructor
  · intro h p hp
    exact (serveRange_none_iff (hi p hp) (by omega) (by omega)).mp (h p hp)
  · intro h p hp
    exact (serveRange_none_iff (hi p hp) (by omega) (by omega)).mpr (h p hp)

/-! ## Deallocation -/

/-- Clearing bits keeps the pool invariant. -/
theorem release_inv {p : Pool} (hi : PoolInv p) (base n : Nat) : PoolInv (p.release base n) := by
  obtain ⟨he, htl, hta, hw, hc, hcur, hb⟩ := hi
  refine ⟨he, htl, hta, hw, hc, hcur, fun j hj => hb j ?_⟩
  simp only [Pool.release] at hj
  exact ((bit_unsetRange _ j n 0 _).mp hj).1

theorem pageDeallocate_inv {s : State} (hi : ∀ p ∈ s.pools, PoolInv p) (base n : Nat) :
    ∀ p ∈ (pageDeallocate s base n).pools, PoolInv p := by
  unfold pageDeallocate
  split
  · intro p hp
    obtain ⟨j, hj⟩ := List.mem_iff_getElem?.mp hp
    rw [List.getElem?_modify] at hj
    obtain ⟨q, hq, rfl⟩ := Option.map_eq_some_iff.mp hj
    have := hi q (List.mem_of_getElem? hq)
    split
    · exact release_inv this base n
    · exact this
  · exact hi

/-! ## Runs -/

inductive Op where
  | allocate (n : Nat)
  | deallocate (base n : Nat)
  deriving DecidableEq, Repr

/-- `[base, base + n * PAGE)` is a range of pages of one of the pools. -/
def InPool (pools : List Pool) (base n : Nat) : Prop :=
  ∃ p ∈ pools, p.allocateBase ≤ base ∧ (base - p.allocateBase) % PAGE = 0 ∧
    base + n * PAGE ≤ p.allocateBase + p.total

/-- Runs from freshly created pools: any allocation that returns, any
deallocation of pages inside a pool. -/
def lts (pools : List Pool) : LTS State Op where
  init s := s.pools = pools
  step s o t := match o with
    | .allocate n => n < 2 ^ 64 ∧ ∃ a, pageAllocate s n = some (a, t)
    | .deallocate base n => InPool s.pools base n ∧ t = pageDeallocate s base n

theorem set_inv {pools : List Pool} (hi : ∀ p ∈ pools, PoolInv p) {p' : Pool} (hp : PoolInv p')
    (i : Nat) : ∀ p ∈ pools.set i p', PoolInv p := by
  intro p h
  rcases List.mem_or_eq_of_mem_set h with h | rfl
  · exact hi p h
  · exact hp

theorem pageAllocate_inv {s : State} (hi : ∀ p ∈ s.pools, PoolInv p) {n : Nat} (hn : n < 2 ^ 64)
    {a : Nat} {s' : State} (h : pageAllocate s n = some (a, s')) :
    ∀ p ∈ s'.pools, PoolInv p := by
  obtain ⟨i, p, k, h1, h2, h3, -, -, rfl, -⟩ := pageAllocate_spec hi hn h
  exact set_inv hi (took_inv (hi p (List.mem_of_getElem? h1)) (by omega) h2 h3) i

theorem lts_inductive {hhdm : Nat} {es : List MemmapEntry} {pools : List Pool}
    (hes : ∀ e ∈ es, e.type = .usable → RegionOk hhdm e)
    (hp : pageAllocatorCreatePoolsLimine hhdm es = some pools) :
    (lts pools).Inductive fun s => ∀ p ∈ s.pools, PoolInv p where
  init s := by
    intro h p hm
    rw [show s.pools = pools from h] at hm
    obtain ⟨e, he, hpe, rfl⟩ := mem_createPools hp hm
    exact createPool_inv (hes e he hpe.1) hpe.2
  step s o t hi hs := by
    cases o with
    | allocate n => obtain ⟨hn, a, h⟩ := hs; exact pageAllocate_inv hi hn h
    | deallocate base n => obtain ⟨-, rfl⟩ := hs; exact pageDeallocate_inv hi base n

/-- **Allocation stays inside its regions.** For every memory map of page-aligned
usable regions that fits the pool array, in every state reached by allocations
and by deallocations of any pages inside a pool, for every 64-bit `n`:
`page_allocate(n)` returns exactly when some pool has `max n 1` pages available,
as exact integers; it serves from the first such pool, and the whole range lies
between `allocate_base` and `allocate_base + total`, which ends before the last
page the bitmap counts. -/
theorem allocate_stays_inside {hhdm : Nat} {es : List MemmapEntry}
    (hes : ∀ e ∈ es, e.type = .usable → RegionOk hhdm e)
    (hcap : (es.filter (Pooled ·)).length ≤ 128) :
    ∃ pools, pageAllocatorCreatePoolsLimine hhdm es = some pools ∧
      ∀ s, (lts pools).Reachable s → ∀ n, n < 2 ^ 64 →
        ((pageAllocate s n).isSome ↔ ∃ p ∈ s.pools, max n 1 * PAGE ≤ p.available) ∧
        ∀ a s', pageAllocate s n = some (a, s') →
          ∃ (i : Nat) (p p' : Pool), s.pools[i]? = some p ∧ s'.pools = s.pools.set i p' ∧
            max n 1 * PAGE ≤ p.available ∧
            (∀ j q, j < i → s.pools[j]? = some q → q.available < max n 1 * PAGE) ∧
            p.allocateBase ≤ a ∧ a + max n 1 * PAGE ≤ p.allocateBase + p.total ∧
            p.total / PAGE < p.bitmapEntries := by
  obtain ⟨pools, hp⟩ := createPools_some hhdm hcap
  refine ⟨pools, hp, fun s hr n hn => ?_⟩
  have hi := (lts_inductive hes hp).reachable hr
  refine ⟨pageAllocate_isSome_iff hi hn, fun a s' h => ?_⟩
  obtain ⟨i, p, k, h1, h2, h3, -, rfl, rfl, h5⟩ := pageAllocate_spec hi hn h
  have hpi := hi p (List.mem_of_getElem? h1)
  have hc := hpi.counters
  have htl := hpi.total_lt
  exact ⟨i, p, _, h1, rfl, h2, h5, by omega, by omega, by simp only [PAGE] at *; omega⟩

/-- A region of 33 pages, one of which holds the bitmap, in the usual direct
map. -/
def smallMap : List MemmapEntry := [⟨0x100000, 33 * PAGE, .usable⟩]

theorem smallMap_ok : ∀ e ∈ smallMap, e.type = .usable → RegionOk 0xFFFF800000000000 e := by
  intro e he _
  rw [smallMap, List.mem_singleton] at he
  subst he
  exact ⟨by decide, by decide, by decide, by decide⟩

/-- `2^52 + 1` pages are one page modulo 2^64 bytes, and are refused. -/
theorem allocate_stays_inside_wrapped :
    ∃ pools, pageAllocatorCreatePoolsLimine 0xFFFF800000000000 smallMap = some pools ∧
      ((pageAllocate ⟨pools, fun _ => 0⟩ (2 ^ 52 + 1)).isSome ↔
        ∃ p ∈ pools, max (2 ^ 52 + 1) 1 * PAGE ≤ p.available) := by
  obtain ⟨pools, hp, h⟩ := allocate_stays_inside smallMap_ok (by decide)
  exact ⟨pools, hp, (h ⟨pools, fun _ => 0⟩ (.init rfl) (2 ^ 52 + 1) (by decide)).1⟩

end GaOS.L1.PageAllocator
