import Mathlib.Data.Nat.Count
import Mathlib.Order.Interval.Finset.Nat
import GaOS.L1Memory.PageExclusive

/-!
# What the counters count

`used` and `available` change in `page_allocate` only, so they do not count the
pages in use: they count the pages ever handed out. `Accounts fr s` says it
exactly, with the ghost list `fr` of the ranges freed so far: for every pool
`used` is the set bits of its bitmap plus its pages in `fr` (`used`), and the sum
of `used` over the pools is the pages of the live ranges plus those of `fr`
(`sum`). `page_reallocate` is an allocation, a copy and a deallocation, and goes
through the same two step lemmas (`Accounts.allocate`, `Accounts.deallocate`).

`accountLTS` has the runs of all three functions in which every range that is
given back is a live one; `account_run` is the invariant over them.
-/
namespace GaOS.L1.PageAllocator

/-- mirrors kernel/src/memory/physical/page_allocator.c:262-268 -/
def pageReallocate (s : State) (base oldPages newPages : Nat) : Option (Nat × State) :=
  (pageAllocate s newPages).map fun (newBase, s) =>
    (newBase, pageDeallocate { s with mem := s.mem.copy newBase base (mul64 oldPages PAGE) }
      base oldPages)

/-- The loop that the three functions below share. -/
def pageCount (field : Pool → Nat) (s : State) : Nat :=
  s.pools.foldl (fun count pool => add64 count (field pool)) 0

/-- mirrors kernel/src/memory/physical/page_allocator.c:270-279 -/
def pageCountFree : State → Nat := pageCount (·.available)

/-- mirrors kernel/src/memory/physical/page_allocator.c:281-290 -/
def pageCountUsed : State → Nat := pageCount (·.used)

/-- mirrors kernel/src/memory/physical/page_allocator.c:292-301 -/
def pageCountTotal : State → Nat := pageCount (·.total)

/-! ## Runs of the three functions -/

inductive AccountOp where
  | allocate (n : Nat)
  | deallocate (base n : Nat)
  | reallocate (base oldPages newPages : Nat)
  deriving DecidableEq, Repr

/-- The range that a call gives back. -/
def AccountOp.frees : AccountOp → Option Range
  | .allocate _ => none
  | .deallocate base n => some ⟨base, n⟩
  | .reallocate base oldPages _ => some ⟨base, oldPages⟩

/-- Every deallocation and every reallocation gives back one live range. -/
def accountLTS (pools : List Pool) : LTS Own AccountOp where
  init s := s.alloc.pools = pools ∧ s.live = []
  step s o t := match o with
    | .allocate n => n < 2 ^ 64 ∧ ∃ a, pageAllocate s.alloc n = some (a, t.alloc) ∧
        t.live = ⟨a, max n 1⟩ :: s.live
    | .deallocate base n => ⟨base, n⟩ ∈ s.live ∧ t.alloc = pageDeallocate s.alloc base n ∧
        t.live = s.live.erase ⟨base, n⟩
    | .reallocate base oldPages newPages => newPages < 2 ^ 64 ∧ ⟨base, oldPages⟩ ∈ s.live ∧
        ∃ a, pageReallocate s.alloc base oldPages newPages = some (a, t.alloc) ∧
          t.live = (⟨a, max newPages 1⟩ :: s.live).erase ⟨base, oldPages⟩

/-! ## Counting bits -/

/-- Pages of the pool that are marked as allocated. -/
def setBits (p : Pool) : Nat := Nat.count (fun j => bit p.bitmap j = true) p.bitmapEntries

/-- Adding a run of `n` new indices to a predicate adds `n` to its count. -/
theorem count_add_run {P Q : Nat → Prop} [DecidablePred P] [DecidablePred Q] {k n N : Nat}
    (hkn : k + n ≤ N) (hnew : ∀ j, k ≤ j → j < k + n → ¬P j)
    (hQ : ∀ j, Q j ↔ P j ∨ (k ≤ j ∧ j < k + n)) : Nat.count Q N = Nat.count P N + n := by
  have hsplit : (Finset.range N).filter Q = (Finset.range N).filter P ∪ Finset.Ico k (k + n) := by
    ext j
    simp only [Finset.mem_filter, Finset.mem_range, Finset.mem_union, Finset.mem_Ico, hQ j]
    constructor
    · rintro ⟨h1, h2 | h2⟩
      · exact Or.inl ⟨h1, h2⟩
      · exact Or.inr h2
    · rintro (⟨h1, h2⟩ | h2)
      · exact ⟨h1, Or.inl h2⟩
      · exact ⟨by omega, Or.inr h2⟩
  have hdis : Disjoint ((Finset.range N).filter P) (Finset.Ico k (k + n)) := by
    rw [Finset.disjoint_left]
    intro j h1 h2
    rw [Finset.mem_Ico] at h2
    exact hnew j h2.1 h2.2 (Finset.mem_filter.mp h1).2
  rw [Nat.count_eq_card_filter_range, Nat.count_eq_card_filter_range, hsplit,
    Finset.card_union_of_disjoint hdis, Nat.card_Ico, Nat.add_sub_cancel_left]

theorem setBits_took {p : Pool} (hi : PoolInv p) {n k : Nat} (hkn : k + n ≤ p.total / PAGE)
    (hclear : ∀ j, k ≤ j → j < k + n → bit p.bitmap j = false) :
    setBits (took p n k) = setBits p + n := by
  have h1 := hi.total_lt
  have h2 := hi.entries_le
  apply count_add_run (k := k)
  · simp only [took, PAGE] at *; omega
  · intro j hj1 hj2
    rw [hclear j hj1 hj2]; exact Bool.false_ne_true
  · intro j
    exact bit_setRange_of_lt (by simp only [PAGE] at *; omega) j

/-- Giving back `n` taken pages lowers the count by `n`. -/
theorem setBits_release {p : Pool} (hi : PoolInv p) {base n k : Nat}
    (hbase : base = p.allocateBase + k * PAGE) (hkn : k + n ≤ p.total / PAGE)
    (hset : ∀ j, k ≤ j → j < k + n → bit p.bitmap j = true) :
    setBits p = setBits (p.release base n) + n := by
  have h1 := hi.total_lt
  have h2 := hi.entries_le
  have hw := hi.window
  have hk : k * PAGE ≤ p.total := by simp only [PAGE] at *; omega
  have hidx : sub64 base p.allocateBase / PAGE = k := by
    rw [sub64_of_le (by omega) (by omega), hbase, Nat.add_sub_cancel_left]
    exact Nat.mul_div_cancel k (by decide)
  have hbit : ∀ j, bit (p.release base n).bitmap j = true ↔
      bit p.bitmap j = true ∧ ¬(k ≤ j ∧ j < k + n) := by
    intro j
    rw [Pool.release, hidx]
    exact bit_unsetRange_of_lt (by simp only [PAGE] at *; omega) j
  apply count_add_run (k := k)
  · simp only [PAGE] at *; omega
  · intro j hj1 hj2 hb
    exact ((hbit j).mp hb).2 ⟨hj1, hj2⟩
  · intro j
    rw [hbit j]
    constructor
    · intro h
      by_cases hj : k ≤ j ∧ j < k + n
      · exact Or.inr hj
      · exact Or.inl ⟨h, hj⟩
    · rintro (⟨h, -⟩ | ⟨h3, h4⟩)
      · exact h
      · exact hset j h3 h4

theorem setBits_createPool (hhdm : Nat) (e : MemmapEntry) : setBits (createPool hhdm e) = 0 := by
  unfold setBits
  rw [Nat.count_eq_card_filter_range, Finset.card_eq_zero, Finset.filter_eq_empty_iff]
  intro j _ hj
  rw [show (createPool hhdm e).bitmap = fun _ => 0 from rfl, bit_zero] at hj
  cases hj

/-! ## The invariant -/

/-- The range starts among the pages of the pool. -/
def Pool.Holds (p : Pool) (r : Range) : Prop :=
  p.allocateBase ≤ r.base ∧ r.base < p.allocateBase + p.total

instance (p : Pool) (r : Range) : Decidable (p.Holds r) := inferInstanceAs (Decidable (_ ∧ _))

/-- Pages of a list of ranges. -/
def pagesOf (rs : List Range) : Nat := (rs.map (·.pages)).sum

/-- Pages of the pool among the ranges `fr`. -/
def freedPages (fr : List Range) (p : Pool) : Nat := pagesOf (fr.filter (p.Holds ·))

structure Accounts (fr : List Range) (s : Own) : Prop extends OwnInv s where
  length : s.alloc.pools.length ≤ 128
  freed : ∀ r ∈ fr, 1 ≤ r.pages ∧ ∃ p ∈ s.alloc.pools, p.Holds r
  used : ∀ p ∈ s.alloc.pools, p.used = PAGE * (setBits p + freedPages fr p)
  sum : (s.alloc.pools.map (·.used)).sum = PAGE * (pagesOf s.live + pagesOf fr)

theorem Range.Inside.holds {r : Range} {p : Pool} (h : r.Inside p) : p.Holds r := by
  obtain ⟨h1, -, h3, h4⟩ := h
  exact ⟨h1, by simp only [PAGE] at h3; omega⟩

theorem not_holds_of_apart {r : Range} {p q : Pool} (hr : p.Holds r) (ha : Apart p q) :
    ¬q.Holds r := by
  unfold Pool.Holds Apart at *
  omega

theorem pagesOf_append (rs qs : List Range) : pagesOf (rs ++ qs) = pagesOf rs + pagesOf qs := by
  simp [pagesOf]

theorem freedPages_snoc (fr : List Range) (r : Range) (p : Pool) :
    freedPages (fr ++ [r]) p = freedPages fr p + if p.Holds r then r.pages else 0 := by
  unfold freedPages
  rw [List.filter_append, pagesOf_append]
  split
  · rename_i h; simp [h, pagesOf]
  · rename_i h; simp [h, pagesOf]

/-- The pool's share of the freed pages depends on its region only. -/
theorem freedPages_congr {fr : List Range} {p q : Pool} (hb : p.allocateBase = q.allocateBase)
    (ht : p.total = q.total) : freedPages fr p = freedPages fr q := by
  unfold freedPages
  rw [List.filter_congr fun r _ => decide_eq_decide.mpr ?_]
  unfold Pool.Holds
  rw [hb, ht]

theorem sum_map_set {l : List Pool} (f : Pool → Nat) (p' : Pool) : ∀ {i : Nat} {p : Pool},
    l[i]? = some p → ((l.set i p').map f).sum + f p = (l.map f).sum + f p' := by
  induction l with
  | nil => intro i p h; simp at h
  | cons q l ih =>
    intro i p h
    cases i with
    | zero => simp at h; subst h; simp; omega
    | succ i =>
      simp only [List.getElem?_cons_succ] at h
      have := ih h
      simp only [List.set_cons_succ, List.map_cons, List.sum_cons]; omega

theorem pagesOf_erase {live : List Range} {r : Range} (h : r ∈ live) :
    pagesOf (live.erase r) + r.pages = pagesOf live := by
  have := (List.perm_cons_erase h).map (·.pages)
  unfold pagesOf
  rw [this.sum_eq, List.map_cons, List.sum_cons, Nat.add_comm]

/-- What stays when pool `i` is replaced by one of the same region. -/
theorem Accounts.replace {fr fr' : List Range} {s t : Own} (h : Accounts fr s) (ht : OwnInv t)
    {i : Nat} {p : Pool} (p' : Pool) (hp : s.alloc.pools[i]? = some p)
    (hb : p'.allocateBase = p.allocateBase) (htot : p'.total = p.total)
    (hpools : t.alloc.pools = s.alloc.pools.set i p')
    (hfreed : ∀ r ∈ fr', r ∈ fr ∨ (1 ≤ r.pages ∧ p.Holds r))
    (hother : ∀ q, Apart p q → freedPages fr' q = freedPages fr q)
    (hused : p'.used = PAGE * (setBits p' + freedPages fr' p))
    (hsum : (t.alloc.pools.map (·.used)).sum = PAGE * (pagesOf t.live + pagesOf fr')) :
    Accounts fr' t := by
  have hold : ∀ q ∈ s.alloc.pools, ∀ r, q.Holds r → ∃ q' ∈ t.alloc.pools, q'.Holds r := by
    intro q hq r hr
    rw [hpools]
    rcases mem_set_cases p' hp hq with ⟨rfl, hp'⟩ | hq'
    · refine ⟨p', hp', ?_⟩
      unfold Pool.Holds at *
      rwa [hb, htot]
    · exact ⟨q, hq', hr⟩
  refine ⟨ht, ?_, ?_, ?_, hsum⟩
  · rw [hpools, List.length_set]; exact h.length
  · intro r hr
    rcases hfreed r hr with h1 | ⟨h1, h2⟩
    · obtain ⟨h2, q, hq, hqr⟩ := h.freed r h1
      exact ⟨h2, hold q hq r hqr⟩
    · exact ⟨h1, hold p (List.mem_of_getElem? hp) r h2⟩
  · intro q hq
    rw [hpools] at hq
    obtain ⟨l, hl⟩ := List.mem_iff_getElem?.mp hq
    rcases getElem?_set_cases hl with ⟨-, rfl⟩ | ⟨hne, hl⟩
    · rw [hused, freedPages_congr hb htot]
    · rw [hother q (h.apart i l p q hp hl hne)]
      exact h.used q (List.mem_of_getElem? hl)

theorem Accounts.allocate {fr : List Range} {s t : Own} (h : Accounts fr s) {n : Nat}
    (hn : n < 2 ^ 64) {a : Nat} (ha : pageAllocate s.alloc n = some (a, t.alloc))
    (hl : t.live = ⟨a, max n 1⟩ :: s.live) : Accounts fr t := by
  have ht := own_allocate h.toOwnInv hn ha hl
  obtain ⟨i, p, k, hp, hav, hk, hclear, rfl, hpools, -⟩ := pageAllocate_spec h.pool hn ha
  have hpm := List.mem_of_getElem? hp
  have hbound : k + max n 1 ≤ p.total / PAGE := by
    rw [Nat.le_div_iff_mul_le (by decide), Nat.add_mul, ← (h.pool p hpm).counters]
    exact Nat.add_le_add hk hav
  refine h.replace ht (took p (max n 1) k) hp rfl rfl (by rw [hpools])
    (fun r hr => Or.inl hr) (fun q _ => rfl) ?_ ?_
  · rw [setBits_took (h.pool p hpm) hbound hclear]
    have := h.used p hpm
    simp only [took, PAGE] at *; omega
  · have h1 := sum_map_set (·.used) (took p (max n 1) k) hp
    have h2 := h.sum
    rw [hpools, hl]
    simp only [took, pagesOf, List.map_cons, List.sum_cons, PAGE] at *
    omega

theorem Accounts.deallocate {fr : List Range} {s t : Own} (h : Accounts fr s) {base n : Nat}
    (hm : ⟨base, n⟩ ∈ s.live) (ha : t.alloc = pageDeallocate s.alloc base n)
    (hl : t.live = s.live.erase ⟨base, n⟩) : Accounts (fr ++ [⟨base, n⟩]) t := by
  have ht := own_deallocate h.toOwnInv hm ha hl
  obtain ⟨p, hpm, hin⟩ := h.inside _ hm
  obtain ⟨i, hp⟩ := List.mem_iff_getElem?.mp hpm
  have hfind : findPool s.alloc.pools base = some i := findPool_inside h.pool h.apart hp hin
  have hpools : t.alloc.pools = s.alloc.pools.set i (p.release base n) := by
    rw [ha]; exact pageDeallocate_pools hfind hp
  obtain ⟨k, hk, hkn⟩ := hin.page
  have hset : ∀ j, k ≤ j → j < k + n → bit p.bitmap j = true := by
    intro j h1 h2
    rw [h.bits p hpm]
    refine ⟨by simp only at hkn; omega, _, hm, ?_⟩
    have hk : base = p.allocateBase + k * PAGE := hk
    rw [hk, has_page_iff]
    exact ⟨h1, h2⟩
  refine h.replace ht (p.release base n) hp rfl rfl hpools ?_ ?_ ?_ ?_
  · intro r hr
    rw [List.mem_append, List.mem_singleton] at hr
    rcases hr with hr | rfl
    · exact Or.inl hr
    · exact Or.inr ⟨hin.pos, hin.holds⟩
  · intro q hq
    rw [freedPages_snoc, if_neg (not_holds_of_apart hin.holds hq), Nat.add_zero]
  · -- `used` stays; what the bitmap loses the freed ranges gain
    have h1 := setBits_release (h.pool p hpm) hk hkn hset
    have h2 := h.used p hpm
    rw [freedPages_snoc, if_pos hin.holds]
    simp only [Pool.release, PAGE] at *; omega
  · have h1 := sum_map_set (·.used) (p.release base n) hp
    have h2 := h.sum
    have h3 := pagesOf_erase hm
    rw [hpools, hl, pagesOf_append]
    simp only [Pool.release, pagesOf, List.map_cons, List.map_nil, List.sum_cons, List.sum_nil,
      PAGE] at *
    omega

/-- The counters and the bitmaps do not depend on what the pages hold. -/
theorem Accounts.setMem {fr : List Range} {s : Own} (h : Accounts fr s) (mem : Mem) :
    Accounts fr ⟨{ s.alloc with mem := mem }, s.live⟩ :=
  ⟨⟨h.pool, h.apart, h.inside, h.bits, h.disjoint⟩, h.length, h.freed, h.used, h.sum⟩

theorem Accounts.reallocate {fr : List Range} {s t : Own} (h : Accounts fr s)
    {base old new a : Nat} (hn : new < 2 ^ 64) (hm : ⟨base, old⟩ ∈ s.live)
    (ha : pageReallocate s.alloc base old new = some (a, t.alloc))
    (hl : t.live = (⟨a, max new 1⟩ :: s.live).erase ⟨base, old⟩) :
    Accounts (fr ++ [⟨base, old⟩]) t := by
  unfold pageReallocate at ha
  rw [Option.map_eq_some_iff] at ha
  obtain ⟨⟨a', s'⟩, hs, he⟩ := ha
  simp only [Prod.mk.injEq] at he
  obtain ⟨rfl, he⟩ := he
  have h1 : Accounts fr ⟨s', ⟨a', max new 1⟩ :: s.live⟩ := h.allocate hn hs rfl
  exact (h1.setMem _).deallocate (List.mem_cons_of_mem _ hm) he.symm hl

/-! ## Runs -/

theorem accounts_init {hhdm : Nat} {es : List MemmapEntry} {pools : List Pool}
    (hes : ∀ e ∈ es, e.type = .usable → RegionOk hhdm e) (hd : RegionsDisjoint es)
    (hcap : (es.filter (Pooled ·)).length ≤ 128)
    (hp : pageAllocatorCreatePoolsLimine hhdm es = some pools) {s : Own}
    (hs : (accountLTS pools).init s) : Accounts [] s := by
  obtain ⟨hs, hl⟩ := hs
  have hnew : ∀ p ∈ s.alloc.pools, p.used = 0 ∧ setBits p = 0 := by
    intro p hm
    rw [hs] at hm
    obtain ⟨e, -, -, rfl⟩ := mem_createPools hp hm
    exact ⟨rfl, setBits_createPool hhdm e⟩
  refine ⟨(own_inductive hes hd hp).init s ⟨hs, hl⟩, ?_, ?_, ?_, ?_⟩
  · rw [hs, createPools_eq hp, List.length_map]; exact hcap
  · intro r hr; cases hr
  · intro p hm
    rw [(hnew p hm).1, (hnew p hm).2]; rfl
  · rw [hl, List.map_congr_left fun p hm => (hnew p hm).1]
    simp [pagesOf]

/-- **What the counters count.** After every run, `used` of a pool is its set
bits and its pages among the ranges that the run gave back. -/
theorem account_run {hhdm : Nat} {es : List MemmapEntry} {pools : List Pool}
    (hes : ∀ e ∈ es, e.type = .usable → RegionOk hhdm e) (hd : RegionsDisjoint es)
    (hcap : (es.filter (Pooled ·)).length ≤ 128)
    (hp : pageAllocatorCreatePoolsLimine hhdm es = some pools) {s₀ s : Own}
    (h0 : (accountLTS pools).init s₀) {ls : List AccountOp} (hr : (accountLTS pools).Run s₀ ls s) :
    Accounts (ls.filterMap AccountOp.frees) s := by
  apply hr.history (I := fun ls s => Accounts (ls.filterMap AccountOp.frees) s)
  · exact accounts_init hes hd hcap hp h0
  · intro ls s o t hi hs
    rw [List.filterMap_append]
    cases o with
    | allocate n =>
      obtain ⟨hn, a, ha, hl⟩ := hs
      rw [show [AccountOp.allocate n].filterMap AccountOp.frees = [] from rfl, List.append_nil]
      exact hi.allocate hn ha hl
    | deallocate base n =>
      obtain ⟨hm, ha, hl⟩ := hs
      exact hi.deallocate hm ha hl
    | reallocate base old new =>
      obtain ⟨hn, hm, a, ha, hl⟩ := hs
      exact hi.reallocate hn hm ha hl

end GaOS.L1.PageAllocator
