import Mathlib.Data.List.Pairwise
import GaOS.L1Memory.PageBounds

/-!
# No page has two owners

Runs of `page_allocate` and `page_deallocate` with a ghost list `live` of the
ranges handed out and not yet freed; a deallocation names one of them. `OwnInv`
says that the set bits of every bitmap are exactly the pages of the live
ranges (`bits`) and that live ranges do not overlap (`disjoint`), also across
pools.

The pool lookup of `page_deallocate` accepts the address one past a pool's
end. That is harmless because the pools of disjoint regions are `Apart` by
more than that: each region starts with its bitmap, so the next pool's
`allocate_base` is at least a page further up (`createPools_apart`), and the
lookup finds the pool that holds the range (`findPool_inside`).
-/
namespace GaOS.L1.PageAllocator

/-- `pages` pages from `base` on. -/
structure Range where
  base : Nat
  pages : Nat
  deriving DecidableEq, Repr

/-- The byte addresses of a range. -/
def Range.Has (r : Range) (x : Nat) : Prop := r.base ≤ x ∧ x < r.base + r.pages * PAGE

def Range.Disjoint (r q : Range) : Prop :=
  r.base + r.pages * PAGE ≤ q.base ∨ q.base + q.pages * PAGE ≤ r.base

/-- The range is a non-empty run of pages of the pool. -/
structure Range.Inside (r : Range) (p : Pool) : Prop where
  lower : p.allocateBase ≤ r.base
  aligned : (r.base - p.allocateBase) % PAGE = 0
  upper : r.base + r.pages * PAGE ≤ p.allocateBase + p.total
  pos : 1 ≤ r.pages

/-- Pools far enough apart for the inclusive lookup of `page_deallocate`. -/
def Apart (p q : Pool) : Prop :=
  p.allocateBase + p.total < q.allocateBase ∨ q.allocateBase + q.total < p.allocateBase

/-- Usable regions do not overlap. -/
def RegionsDisjoint (es : List MemmapEntry) : Prop :=
  es.Pairwise fun a b => a.type = .usable → b.type = .usable →
    a.base + a.length ≤ b.base ∨ b.base + b.length ≤ a.base

theorem createPools_apart {hhdm : Nat} {es : List MemmapEntry} {pools : List Pool}
    (hes : ∀ e ∈ es, e.type = .usable → RegionOk hhdm e) (hd : RegionsDisjoint es)
    (hp : pageAllocatorCreatePoolsLimine hhdm es = some pools) : pools.Pairwise Apart := by
  rw [createPools_eq hp, List.pairwise_map]
  apply (List.Pairwise.filter _ hd).imp_of_mem
  intro a b ha hb hab
  rw [List.mem_filter] at ha hb
  have hpa : Pooled a := by simpa using ha.2
  have hpb : Pooled b := by simpa using hb.2
  have hab := hab hpa.1 hpb.1
  obtain ⟨-, a1, a2⟩ := createPool_fields (hes a ha.1 hpa.1) hpa.2
  obtain ⟨-, b1, b2⟩ := createPool_fields (hes b hb.1 hpb.1) hpb.2
  obtain ⟨-, a3, a4⟩ := requiredBitmapBytes_spec hpa.2
  obtain ⟨-, b3, b4⟩ := requiredBitmapBytes_spec hpb.2
  unfold Apart
  rw [a1, a2, b1, b2]
  simp only [PAGE] at *
  omega

/-! ## Ownership -/

structure Own where
  alloc : State
  /-- ghost: the ranges handed out and not yet freed -/
  live : List Range

/-- Page `j` of the pool belongs to a live range. -/
def Taken (live : List Range) (p : Pool) (j : Nat) : Prop :=
  j < p.total / PAGE ∧ ∃ r ∈ live, r.Has (p.allocateBase + j * PAGE)

def PoolsApart (pools : List Pool) : Prop :=
  ∀ (i j : Nat) (p q : Pool), pools[i]? = some p → pools[j]? = some q → i ≠ j → Apart p q

structure OwnInv (s : Own) : Prop where
  pool : ∀ p ∈ s.alloc.pools, PoolInv p
  apart : PoolsApart s.alloc.pools
  inside : ∀ r ∈ s.live, ∃ p ∈ s.alloc.pools, r.Inside p
  bits : ∀ p ∈ s.alloc.pools, ∀ j, bit p.bitmap j = true ↔ Taken s.live p j
  disjoint : s.live.Pairwise Range.Disjoint

/-- The runs: an allocation adds its range, a deallocation frees exactly one
live range. -/
def ownLTS (pools : List Pool) : LTS Own Op where
  init s := s.alloc.pools = pools ∧ s.live = []
  step s o t := match o with
    | .allocate n => n < 2 ^ 64 ∧ ∃ a, pageAllocate s.alloc n = some (a, t.alloc) ∧
        t.live = ⟨a, max n 1⟩ :: s.live
    | .deallocate base n => ⟨base, n⟩ ∈ s.live ∧ t.alloc = pageDeallocate s.alloc base n ∧
        t.live = s.live.erase ⟨base, n⟩

/-! ## Geometry -/

/-- A range inside a pool is the pages `[k, k + pages)` of it. -/
theorem Range.Inside.page {r : Range} {p : Pool} (h : r.Inside p) :
    ∃ k, r.base = p.allocateBase + k * PAGE ∧ k + r.pages ≤ p.total / PAGE := by
  obtain ⟨h1, h2, h3, h4⟩ := h
  refine ⟨(r.base - p.allocateBase) / PAGE, ?_, ?_⟩ <;> simp only [PAGE] at * <;> omega

theorem has_page_iff {p : Pool} {k n j : Nat} :
    (⟨p.allocateBase + k * PAGE, n⟩ : Range).Has (p.allocateBase + j * PAGE) ↔
      k ≤ j ∧ j < k + n := by
  simp only [Range.Has, PAGE]; omega

/-- Two ranges inside one pool either share a page or are disjoint. -/
theorem disjoint_or_share {r q : Range} {p : Pool} (hr : r.Inside p) (hq : q.Inside p) :
    r.Disjoint q ∨ ∃ j, j < p.total / PAGE ∧ r.Has (p.allocateBase + j * PAGE) ∧
      q.Has (p.allocateBase + j * PAGE) := by
  obtain ⟨k, hk, hk'⟩ := hr.page
  obtain ⟨l, hl, hl'⟩ := hq.page
  have pr := hr.pos
  have pq := hq.pos
  by_cases hd : k + r.pages ≤ l ∨ l + q.pages ≤ k
  · left
    unfold Range.Disjoint
    rw [hk, hl]
    simp only [PAGE]; omega
  · right
    refine ⟨max k l, by omega, ?_, ?_⟩
    · unfold Range.Has; rw [hk]; simp only [PAGE]; omega
    · unfold Range.Has; rw [hl]; simp only [PAGE]; omega

theorem disjoint_of_apart {r q : Range} {p p' : Pool} (hr : r.Inside p) (hq : q.Inside p')
    (ha : Apart p p') : r.Disjoint q := by
  have h1 := hr.lower; have h2 := hr.upper; have h3 := hq.lower; have h4 := hq.upper
  unfold Apart at ha; unfold Range.Disjoint
  omega

/-- A range inside one pool has no page of another. -/
theorem not_has_of_apart {r : Range} {p q : Pool} (hr : r.Inside p) (ha : Apart p q) {j : Nat}
    (hj : j < q.total / PAGE) : ¬r.Has (q.allocateBase + j * PAGE) := by
  have h1 := hr.lower; have h2 := hr.upper
  have h3 : j * PAGE + PAGE ≤ q.total := by
    have := (Nat.le_div_iff_mul_le (by decide : 0 < PAGE)).mp hj
    rwa [Nat.succ_mul] at this
  unfold Range.Has; unfold Apart at ha
  omega

theorem Range.Disjoint.symm {r q : Range} (h : r.Disjoint q) : q.Disjoint r := Or.symm h

theorem Range.Disjoint.not_both {r q : Range} (h : r.Disjoint q) {x : Nat} (hr : r.Has x)
    (hq : q.Has x) : False := by
  unfold Range.Disjoint at h; unfold Range.Has at hr hq; omega

theorem not_disjoint_self {r : Range} (h : 1 ≤ r.pages) : ¬r.Disjoint r := by
  unfold Range.Disjoint; simp only [PAGE]; omega

theorem disjoint_of_ne {live : List Range} (h : live.Pairwise Range.Disjoint) {r q : Range}
    (hr : r ∈ live) (hq : q ∈ live) (hne : r ≠ q) : r.Disjoint q :=
  haveI : Std.Symm Range.Disjoint := ⟨fun _ _ => Range.Disjoint.symm⟩
  h.forall hr hq hne

/-! ## Changing one pool -/

theorem getElem?_set_cases {pools : List Pool} {i j : Nat} {p' q : Pool}
    (hq : (pools.set i p')[j]? = some q) :
    (j = i ∧ q = p') ∨ (i ≠ j ∧ pools[j]? = some q) := by
  rw [List.getElem?_set] at hq
  split at hq
  · rename_i hij
    split at hq
    · exact Or.inl ⟨hij.symm, by simpa using hq.symm⟩
    · cases hq
  · exact Or.inr ⟨‹_›, hq⟩

/-- A pool is there still, or it is the one that was replaced. -/
theorem mem_set_cases {pools : List Pool} {i : Nat} {p q : Pool} (p' : Pool)
    (hp : pools[i]? = some p) (hq : q ∈ pools) :
    q = p ∧ p' ∈ pools.set i p' ∨ q ∈ pools.set i p' := by
  obtain ⟨j, hj⟩ := List.mem_iff_getElem?.mp hq
  by_cases hij : i = j
  · subst hij
    rw [hp] at hj
    cases hj
    refine .inl ⟨rfl, List.mem_of_getElem? (i := i) ?_⟩
    rw [List.getElem?_set_self']
    simp [hp]
  · refine .inr (List.mem_of_getElem? (i := j) ?_)
    rw [List.getElem?_set_ne hij]
    exact hj

/-- Every pool keeps its region when pool `i` is replaced by one of the same
region. -/
theorem set_region {pools : List Pool} {i j : Nat} {p p' q : Pool}
    (hq : (pools.set i p')[j]? = some q) (hp : pools[i]? = some p)
    (hb : p'.allocateBase = p.allocateBase) (ht : p'.total = p.total) :
    ∃ q', pools[j]? = some q' ∧ q.allocateBase = q'.allocateBase ∧ q.total = q'.total := by
  rcases getElem?_set_cases hq with ⟨rfl, rfl⟩ | ⟨-, h⟩
  · exact ⟨p, hp, hb, ht⟩
  · exact ⟨q, h, rfl, rfl⟩

theorem PoolsApart.set {pools : List Pool} (h : PoolsApart pools) {i : Nat} {p p' : Pool}
    (hp : pools[i]? = some p) (hb : p'.allocateBase = p.allocateBase)
    (ht : p'.total = p.total) : PoolsApart (pools.set i p') := by
  intro j l q q' hj hl hne
  obtain ⟨q1, e1, e2, e3⟩ := set_region hj hp hb ht
  obtain ⟨q2, f1, f2, f3⟩ := set_region hl hp hb ht
  have := h j l q1 q2 e1 f1 hne
  unfold Apart at *
  rw [e2, e3, f2, f3]; exact this

/-- A step that replaces pool `i` by one of the same region and changes only
live ranges inside it. -/
theorem own_replace {s t : Own} (hi : OwnInv s) {i : Nat} {p : Pool} (p' : Pool)
    (hp : s.alloc.pools[i]? = some p) (hb : p'.allocateBase = p.allocateBase)
    (ht : p'.total = p.total) (hp' : PoolInv p') (hpools : t.alloc.pools = s.alloc.pools.set i p')
    (hin : ∀ r ∈ t.live, r ∈ s.live ∨ r.Inside p)
    (hout : ∀ r ∈ s.live, r ∈ t.live ∨ r.Inside p)
    (hbits : ∀ j, bit p'.bitmap j = true ↔ Taken t.live p j)
    (hd : t.live.Pairwise Range.Disjoint) : OwnInv t := by
  have hold : ∀ q ∈ s.alloc.pools, ∀ r : Range, r.Inside q → ∃ q' ∈ t.alloc.pools, r.Inside q' := by
    intro q hq r hr
    rw [hpools]
    rcases mem_set_cases p' hp hq with ⟨rfl, hp'⟩ | hq'
    · obtain ⟨h1, h2, h3, h4⟩ := hr
      exact ⟨p', hp', by rw [hb]; exact h1, by rw [hb]; exact h2, by rw [hb, ht]; exact h3, h4⟩
    · exact ⟨q, hq', hr⟩
  refine ⟨?_, ?_, ?_, ?_, hd⟩
  · rw [hpools]; exact set_inv hi.pool hp' i
  · rw [hpools]; exact hi.apart.set hp hb ht
  · intro r hr
    rcases hin r hr with h | h
    · obtain ⟨q, hq, hrq⟩ := hi.inside r h
      exact hold q hq r hrq
    · exact hold p (List.mem_of_getElem? hp) r h
  · intro q hq j
    rw [hpools] at hq
    obtain ⟨l, hl⟩ := List.mem_iff_getElem?.mp hq
    rcases getElem?_set_cases hl with ⟨-, rfl⟩ | ⟨hne, h⟩
    · rw [hbits j]; unfold Taken; rw [hb, ht]
    · -- another pool: the ranges that came or went have none of its pages
      have ha := hi.apart i l p q hp h hne
      rw [hi.bits q (List.mem_of_getElem? h)]
      unfold Taken
      refine and_congr_right fun hj => ⟨?_, ?_⟩
      · rintro ⟨r, hr, hh⟩
        rcases hout r hr with hr' | hr'
        · exact ⟨r, hr', hh⟩
        · exact absurd hh (not_has_of_apart hr' ha hj)
      · rintro ⟨r, hr, hh⟩
        rcases hin r hr with hr' | hr'
        · exact ⟨r, hr', hh⟩
        · exact absurd hh (not_has_of_apart hr' ha hj)

/-! ## Allocation -/

/-- A run of pages with clear bits is disjoint from every live range. -/
theorem fresh_disjoint {s : Own} (hi : OwnInv s) {i k n : Nat} {p : Pool}
    (hp : s.alloc.pools[i]? = some p) (hin : (⟨p.allocateBase + k * PAGE, n⟩ : Range).Inside p)
    (hclear : ∀ j, k ≤ j → j < k + n → bit p.bitmap j = false) :
    ∀ r ∈ s.live, (⟨p.allocateBase + k * PAGE, n⟩ : Range).Disjoint r := by
  intro r hr
  obtain ⟨q, hq, hrq⟩ := hi.inside r hr
  obtain ⟨j, hj⟩ := List.mem_iff_getElem?.mp hq
  by_cases hij : i = j
  · subst hij
    rw [hp] at hj; cases hj
    rcases disjoint_or_share hin hrq with h | ⟨x, hx, h1, h2⟩
    · exact h
    · -- the shared page would be both clear and taken
      rw [has_page_iff] at h1
      have := (hi.bits p (List.mem_of_getElem? hp) x).mpr ⟨hx, r, hr, h2⟩
      rw [hclear x h1.1 h1.2] at this; cases this
  · exact disjoint_of_apart hin hrq (hi.apart i j p q hp hj hij)

theorem own_allocate {s t : Own} (hi : OwnInv s) {n : Nat} (hn : n < 2 ^ 64) {a : Nat}
    (h : pageAllocate s.alloc n = some (a, t.alloc)) (hl : t.live = ⟨a, max n 1⟩ :: s.live) :
    OwnInv t := by
  obtain ⟨i, p, k, hp, hav, hk, hclear, rfl, ht, -⟩ := pageAllocate_spec hi.pool hn h
  have hpm := List.mem_of_getElem? hp
  have hpi := hi.pool p hpm
  have hc := hpi.counters
  have hbound : k + max n 1 ≤ p.total / PAGE := by
    rw [Nat.le_div_iff_mul_le (by decide), Nat.add_mul, ← hc]
    exact Nat.add_le_add hk hav
  have hin : (⟨p.allocateBase + k * PAGE, max n 1⟩ : Range).Inside p := by
    refine ⟨by simp only; omega, ?_, by simp only; omega, by simp only; omega⟩
    simp only [PAGE]; omega
  have htk : k + max n 1 < 2 ^ 64 := by
    have h2 := hpi.total_lt; have h3 := hpi.entries_le
    simp only [PAGE] at *; omega
  refine own_replace hi (took p (max n 1) k) hp rfl rfl (took_inv hpi (by omega) hav hk)
    (by rw [ht]) ?_ ?_ ?_ ?_
  · intro r hr
    rw [hl, List.mem_cons] at hr
    rcases hr with rfl | hr
    · exact Or.inr hin
    · exact Or.inl hr
  · intro r hr
    rw [hl]; exact Or.inl (List.mem_cons_of_mem _ hr)
  · intro j
    rw [show (took p (max n 1) k).bitmap = setRange p.bitmap k 0 (max n 1) from rfl,
      bit_setRange_of_lt htk, hi.bits p hpm, hl]
    unfold Taken
    simp only [List.mem_cons, exists_eq_or_imp, has_page_iff]
    constructor
    · rintro (⟨h1, h2⟩ | h2)
      · exact ⟨h1, Or.inr h2⟩
      · exact ⟨by omega, Or.inl h2⟩
    · rintro ⟨h1, h2 | h2⟩
      · exact Or.inr h2
      · exact Or.inl ⟨h1, h2⟩
  · rw [hl, List.pairwise_cons]
    exact ⟨fresh_disjoint hi hp hin hclear, hi.disjoint⟩

/-! ## Deallocation -/

/-- The lookup of `page_deallocate` finds the pool that holds the range. -/
theorem findPool_inside {pools : List Pool} (hpi : ∀ p ∈ pools, PoolInv p)
    (ha : PoolsApart pools) {i : Nat} {p : Pool} (hp : pools[i]? = some p) {r : Range}
    (hr : r.Inside p) : findPool pools r.base = some i := by
  have hcov : ∀ q ∈ pools, q.covers r.base = true ↔
      q.allocateBase ≤ r.base ∧ r.base ≤ q.allocateBase + q.total := by
    intro q hq
    unfold Pool.covers
    rw [add64_of_lt (hpi q hq).window, decide_eq_true_eq]
  have h1 := hr.lower; have h2 := hr.upper
  unfold findPool
  rw [List.findIdx?_eq_some_iff_getElem]
  obtain ⟨hlt, hget⟩ := List.getElem?_eq_some_iff.mp hp
  refine ⟨hlt, ?_, ?_⟩
  · rw [hget, hcov p (List.mem_of_getElem? hp)]; omega
  · intro j hj hc
    have hjl : j < pools.length := by omega
    have hq : pools[j]? = some pools[j] := List.getElem?_eq_getElem hjl
    rw [hcov _ (List.getElem_mem hjl)] at hc
    have := ha i j p _ hp hq (by omega)
    unfold Apart at this
    omega

theorem pageDeallocate_pools {s : State} {base n i : Nat} {p : Pool}
    (hfind : findPool s.pools base = some i) (hp : s.pools[i]? = some p) :
    (pageDeallocate s base n).pools = s.pools.set i (p.release base n) := by
  rw [pageDeallocate, hfind]
  refine List.ext_getElem? fun j => ?_
  rw [List.getElem?_modify, List.getElem?_set]
  split
  · rename_i hij; subst hij
    rw [hp, if_pos (List.getElem?_eq_some_iff.mp hp).1]; rfl
  · simp

theorem OwnInv.nodup {s : Own} (hi : OwnInv s) : s.live.Nodup := by
  refine hi.disjoint.imp_of_mem fun {r q} hr _ hd he => ?_
  subst he
  obtain ⟨p, -, hp⟩ := hi.inside r hr
  exact not_disjoint_self hp.pos hd

theorem own_deallocate {s t : Own} (hi : OwnInv s) {base n : Nat} (hm : ⟨base, n⟩ ∈ s.live)
    (ht : t.alloc = pageDeallocate s.alloc base n) (hl : t.live = s.live.erase ⟨base, n⟩) :
    OwnInv t := by
  obtain ⟨p, hpm, hin⟩ := hi.inside _ hm
  obtain ⟨i, hp⟩ := List.mem_iff_getElem?.mp hpm
  have hfind : findPool s.alloc.pools base = some i := findPool_inside hi.pool hi.apart hp hin
  have hpools : t.alloc.pools = s.alloc.pools.set i (p.release base n) := by
    rw [ht]; exact pageDeallocate_pools hfind hp
  have herase : ∀ r, r ∈ t.live ↔ r ≠ ⟨base, n⟩ ∧ r ∈ s.live := by
    intro r; rw [hl]; exact hi.nodup.mem_erase_iff
  refine own_replace hi (p.release base n) hp rfl rfl
    (release_inv (hi.pool p hpm) base n) hpools ?_ ?_ ?_ ?_
  · intro r hr
    exact Or.inl ((herase r).mp hr).2
  · intro r hr
    by_cases he : r = ⟨base, n⟩
    · subst he; exact Or.inr hin
    · exact Or.inl ((herase r).mpr ⟨he, hr⟩)
  · -- the cleared bits are the pages of the freed range
    obtain ⟨k, hk, hkt⟩ := hin.page
    simp only at hk hkt
    have hw := (hi.pool p hpm).window
    have hidx : sub64 base p.allocateBase / PAGE = k := by
      have hup := hin.upper
      simp only at hup
      rw [sub64_of_le (by omega) (by omega), hk]
      simp only [PAGE]; omega
    have hnw : k + n < 2 ^ 64 := by
      simp only [PAGE] at *; omega
    intro j
    rw [show (p.release base n).bitmap =
        unsetRange p.bitmap (sub64 base p.allocateBase / PAGE) 0 n from rfl, hidx,
      bit_unsetRange_of_lt hnw, hi.bits p hpm, ← has_page_iff (p := p), ← hk]
    unfold Taken
    constructor
    · rintro ⟨⟨h1, r, hr, hh⟩, h2⟩
      exact ⟨h1, r, (herase r).mpr ⟨fun he => h2 (he ▸ hh), hr⟩, hh⟩
    · rintro ⟨h1, r, hr, hh⟩
      obtain ⟨hner, hr⟩ := (herase r).mp hr
      exact ⟨⟨h1, r, hr, hh⟩, fun h2 =>
        (disjoint_of_ne hi.disjoint hr hm hner).not_both hh h2⟩
  · rw [hl]; exact hi.disjoint.sublist List.erase_sublist

/-! ## Runs -/

theorem own_inductive {hhdm : Nat} {es : List MemmapEntry} {pools : List Pool}
    (hes : ∀ e ∈ es, e.type = .usable → RegionOk hhdm e) (hd : RegionsDisjoint es)
    (hp : pageAllocatorCreatePoolsLimine hhdm es = some pools) :
    (ownLTS pools).Inductive OwnInv where
  init s := by
    rintro ⟨hs, hl⟩
    refine ⟨?_, ?_, ?_, ?_, ?_⟩
    · exact (lts_inductive hes hp).init s.alloc hs
    · rw [hs]
      have hap := createPools_apart hes hd hp
      intro i j p q hi hj hne
      obtain ⟨hil, rfl⟩ := List.getElem?_eq_some_iff.mp hi
      obtain ⟨hjl, rfl⟩ := List.getElem?_eq_some_iff.mp hj
      rw [List.pairwise_iff_getElem] at hap
      rcases Nat.lt_or_gt_of_ne hne with h | h
      · exact hap i j hil hjl h
      · exact Or.symm (hap j i hjl hil h)
    · rw [hl]; intro r hr; cases hr
    · intro p hm j
      rw [hs] at hm
      obtain ⟨e, -, -, rfl⟩ := mem_createPools hp hm
      rw [show (createPool hhdm e).bitmap = fun _ => 0 from rfl, bit_zero, hl]
      simp [Taken]
    · rw [hl]; exact List.Pairwise.nil
  step s o t hi hs := by
    cases o with
    | allocate n => obtain ⟨hn, a, h, hl⟩ := hs; exact own_allocate hi hn h hl
    | deallocate base n => obtain ⟨hm, ht, hl⟩ := hs; exact own_deallocate hi hm ht hl

/-- **Exclusive ownership.** For pools made from disjoint usable regions, after
every run in which each deallocation frees one live range: the set bits of all
bitmaps are exactly the pages of the live ranges, the live ranges are pairwise
disjoint, and for each of them the lookup of `page_deallocate` finds the pool
that holds it. -/
theorem live_ranges_exclusive {hhdm : Nat} {es : List MemmapEntry}
    (hes : ∀ e ∈ es, e.type = .usable → RegionOk hhdm e) (hd : RegionsDisjoint es)
    (hcap : (es.filter (Pooled ·)).length ≤ 128) :
    ∃ pools, pageAllocatorCreatePoolsLimine hhdm es = some pools ∧
      ∀ s, (ownLTS pools).Reachable s →
        (∀ p ∈ s.alloc.pools, ∀ j, bit p.bitmap j = true ↔ Taken s.live p j) ∧
        s.live.Pairwise Range.Disjoint ∧
        ∀ r ∈ s.live, ∃ (i : Nat) (p : Pool), s.alloc.pools[i]? = some p ∧ r.Inside p ∧
          findPool s.alloc.pools r.base = some i := by
  obtain ⟨pools, hp⟩ := createPools_some hhdm hcap
  refine ⟨pools, hp, fun s hr => ?_⟩
  have hi := (own_inductive hes hd hp).reachable hr
  refine ⟨hi.bits, hi.disjoint, fun r hr => ?_⟩
  obtain ⟨p, hpm, hin⟩ := hi.inside r hr
  obtain ⟨i, hpi⟩ := List.mem_iff_getElem?.mp hpm
  exact ⟨i, p, hpi, hin, findPool_inside hi.pool hi.apart hpi hin⟩

/-- Two adjacent regions. -/
def adjacentMap : List MemmapEntry :=
  [⟨0x100000, 33 * PAGE, .usable⟩, ⟨0x100000 + 33 * PAGE, 40 * PAGE, .usable⟩]

/-- The state after `page_allocate(33)`, which only the second region of
`adjacentMap` can serve. -/
theorem live_ranges_exclusive_adjacent :
    ∃ pools a t, pageAllocatorCreatePoolsLimine 0xFFFF800000000000 adjacentMap = some pools ∧
      pageAllocate ⟨pools, fun _ => 0⟩ 33 = some (a, t) ∧
      ∀ p ∈ t.pools, ∀ j, bit p.bitmap j = true ↔ Taken [⟨a, 33⟩] p j := by
  have hes : ∀ e ∈ adjacentMap, e.type = .usable → RegionOk 0xFFFF800000000000 e := by
    intro e he _
    rw [adjacentMap, List.mem_cons, List.mem_singleton] at he
    rcases he with rfl | rfl <;> exact ⟨by decide, by decide, by decide, by decide⟩
  have hd : RegionsDisjoint adjacentMap := by
    simp [RegionsDisjoint, adjacentMap]
  obtain ⟨pools, hp, h⟩ := live_ranges_exclusive hes hd (by decide)
  have hi := (lts_inductive hes hp).init ⟨pools, fun _ => 0⟩ rfl
  have hav : ∃ p ∈ pools, max 33 1 * PAGE ≤ p.available := by
    rw [createPools_eq hp]; decide
  obtain ⟨⟨a, t⟩, hat⟩ :=
    Option.isSome_iff_exists.mp ((pageAllocate_isSome_iff hi (by decide)).mpr hav)
  have hr : (ownLTS pools).Reachable ⟨t, [⟨a, 33⟩]⟩ :=
    .step (l := .allocate 33) (.init (s := ⟨⟨pools, fun _ => 0⟩, []⟩) ⟨rfl, rfl⟩)
      ⟨by decide, a, hat, rfl⟩
  exact ⟨pools, a, t, hp, hat, (h _ hr).1⟩

end GaOS.L1.PageAllocator
