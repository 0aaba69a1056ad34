import GaOS.L2Paging.Map

/-!
# Mapping a range, page by page

`arch_table_manager_map_range` keeps the layers of the current 2 MiB in locals
and only asks for new ones at a boundary; `mapEach` asks for all three layers
at every page. Both agree because asking again does nothing: once the entries
above a leaf have the flags (`Warm`), `descend` returns the same layers and
leaves memory alone.

`mapRange_eq` states the agreement exactly. After the last page the code has
already fetched the layers of the following 2 MiB, so the range version is the
page-by-page one followed by one more `descend`, at `trail`; that one may
allocate layers, but changes no leaf. It is also why the range must end 2 MiB
before the end of the address space: at the top the index of that descent
would be 512.
-/
namespace GaOS.L2.TableManager

open GaOS.L1 GaOS.L1.PageAllocator

variable {σ : Type} {P : PageSource σ} {lim root f : Nat} {m m' : Machine σ}

/-! ## Entries that need nothing -/

/-- Entry `i` of `a` leads to `n` and already has the flags. -/
structure Leads (P : PageSource σ) (f : Nat) (mem : Mem) (a i n : Nat) : Prop where
  next : nextLayer P.hhdm mem a i = some n
  absorbs : mem (entryAddress a i) ||| (f &&& 0xFF) = mem (entryAddress a i)

theorem Leads.congr {mem mem' : Mem} {a i n : Nat} (h : Leads P f mem a i n)
    (he : mem' (entryAddress a i) = mem (entryAddress a i)) : Leads P f mem' a i n :=
  ⟨by rw [nextLayer_congr he, h.next], by rw [he, h.absorbs]⟩

/-- Asking again for a layer that is there with the flags does nothing. -/
theorem allocateNextLayer_of_leads {a i n : Nat} (h : Leads P f m.mem a i n) :
    allocateNextLayer P m a i f = some (n, m) := by
  obtain ⟨hp, rfl⟩ := present_of_nextLayer h.next
  simp only [allocateNextLayer, hp, not_true_eq_false, if_false, h.absorbs, setEntry, Mem.store_same]

theorem leads_of_allocateNextLayer (ht : Tree P lim m root) {q : List Nat} {i a n : Nat}
    (hv : Valid lim (q ++ [i])) (hq : walk P.hhdm m.mem root q = some a)
    (h : allocateNextLayer P m a i f = some (n, m')) : Leads P f m'.mem a i n := by
  obtain ⟨hg, hw⟩ := allocateNextLayer_grows ht hv hq h
  rw [walk_snoc, hg.kept q a hv.init hq, Option.bind_some] at hw
  refine ⟨hw, ?_⟩
  rcases allocateNextLayer_cases (ht.layer q a hv.init hq) hv.last (ht.clear q a i hv hq) h with
    ⟨-, -, rfl⟩ | ⟨-, m₁, -, rfl⟩
  · simp only [setEntry, Mem.store_self, Nat.or_assoc, Nat.or_self]
  · simp only [setEntry, Mem.store_self]
    rw [Nat.or_assoc, Nat.or_right_comm, Nat.or_self]

/-! ## The three layers of a descent -/

structure Layers where
  pml3 : Nat
  pml2 : Nat
  pml1 : Nat

/-- `descend` with all the layers it passes, as `map_range` keeps them. -/
def descendLayers (P : PageSource σ) (m : Machine σ) (table virtualAddress flags : Nat) :
    Option (Layers × Machine σ) := do
  let (pml3, m) ← allocateNextLayer P m table (pml3Index virtualAddress) flags
  let (pml2, m) ← allocateNextLayer P m pml3 (pml2Index virtualAddress) flags
  let (pml1, m) ← allocateNextLayer P m pml2 (pml1Index virtualAddress) flags
  return (⟨pml3, pml2, pml1⟩, m)

theorem descend_eq (m : Machine σ) (table v f : Nat) :
    descend P m table v f =
      (descendLayers P m table v f).map fun (l, m) => (l.pml1, m) := by
  simp only [descend, descendLayers, Option.bind_eq_bind, Option.pure_def, Option.map_eq_bind,
    Option.bind_assoc, Function.comp_def, Option.bind_some, Prod.mk.eta, Option.bind_fun_some]

/-- Descending only looks at the indices of the layers. -/
theorem descendLayers_congr {v v' : Nat} (h : leafPath v = leafPath v') :
    descendLayers P m root v f = descendLayers P m root v' f := by
  simp only [leafPath, List.cons.injEq, and_true] at h
  simp only [descendLayers, h.1, h.2.1, h.2.2]

/-- The layers above the leaf of `v` are `l`, with the flags. -/
structure Warm (P : PageSource σ) (f : Nat) (mem : Mem) (root v : Nat) (l : Layers) : Prop where
  top : Leads P f mem root (pml3Index v) l.pml3
  mid : Leads P f mem l.pml3 (pml2Index v) l.pml2
  low : Leads P f mem l.pml2 (pml1Index v) l.pml1

theorem descendLayers_of_warm {v : Nat} {l : Layers} (h : Warm P f m.mem root v l) :
    descendLayers P m root v f = some (l, m) := by
  simp only [descendLayers, allocateNextLayer_of_leads h.top, allocateNextLayer_of_leads h.mid,
    allocateNextLayer_of_leads h.low, Option.bind_eq_bind, Option.bind_some, Option.pure_def]

theorem descendLayers_some {v : Nat} {l : Layers} (h : descendLayers P m root v f = some (l, m')) :
    ∃ m₁ m₂, allocateNextLayer P m root (pml3Index v) f = some (l.pml3, m₁) ∧
      allocateNextLayer P m₁ l.pml3 (pml2Index v) f = some (l.pml2, m₂) ∧
      allocateNextLayer P m₂ l.pml2 (pml1Index v) f = some (l.pml1, m') := by
  simp only [descendLayers, Option.bind_eq_bind, Option.bind_eq_some_iff, Prod.exists,
    Option.pure_def, Option.some.injEq, Prod.mk.injEq] at h
  obtain ⟨pml3, m₁, h1, pml2, m₂, h2, pml1, m₃, h3, rfl, rfl⟩ := h
  exact ⟨m₁, m₂, h1, h2, h3⟩

theorem warm_of_descendLayers (ht : Tree P lim m root) {v : Nat} {l : Layers}
    (hlim : pml3Index v < lim) (h : descendLayers P m root v f = some (l, m')) :
    Warm P f m'.mem root v l := by
  obtain ⟨m₁, m₂, h1, h2, h3⟩ := descendLayers_some h
  obtain ⟨hv1, hv2, hv3⟩ := valid_prefixes hlim
  obtain ⟨g1, w1⟩ := allocateNextLayer_grows ht hv1 rfl h1
  obtain ⟨g2, w2⟩ := allocateNextLayer_grows g1.tree hv2 w1 h2
  have t1 := leads_of_allocateNextLayer ht hv1 rfl h1
  have t2 := leads_of_allocateNextLayer g1.tree hv2 w1 h2
  have t3 := leads_of_allocateNextLayer g2.tree hv3 w2 h3
  -- the later calls write into deeper layers
  have t1' : Leads P f m₂.mem root (pml3Index v) l.pml3 :=
    t1.congr (allocateNextLayer_other g1.tree hv2 w1 h2 .nil rfl hv1.last (by simp))
  refine ⟨t1'.congr ?_, t2.congr ?_, t3⟩
  · exact allocateNextLayer_other g2.tree hv3 w2 h3 .nil rfl hv1.last (by simp)
  · exact allocateNextLayer_other g2.tree hv3 w2 h3 hv1
      (g2.kept _ _ hv1 w1) hv2.last (by simp)

theorem Warm.walks {mem : Mem} {v : Nat} {l : Layers} (h : Warm P f mem root v l) :
    walk P.hhdm mem root [pml3Index v] = some l.pml3 ∧
      walk P.hhdm mem root [pml3Index v, pml2Index v] = some l.pml2 ∧
      walk P.hhdm mem root (leafPath v) = some l.pml1 := by
  simp only [leafPath, walk, h.top.next, h.mid.next, h.low.next, Option.bind_some, and_self]

theorem Warm.congr {mem : Mem} {v v' : Nat} {l : Layers} (h : Warm P f mem root v l)
    (hp : leafPath v = leafPath v') : Warm P f mem root v' l := by
  simp only [leafPath, List.cons.injEq, and_true] at hp
  exact ⟨hp.1 ▸ h.top, hp.2.1 ▸ h.mid, hp.2.2 ▸ h.low⟩

/-- Writing a leaf keeps the layers above it warm. -/
theorem Warm.setLeaf (ht : Tree P lim m root) {v : Nat} {l : Layers} (hlim : pml3Index v < lim)
    (h : Warm P f m.mem root v l) {j p : Nat} (hj : j < 512) :
    Warm P f (TableManager.setLeaf m l.pml1 j p f).mem root v l := by
  obtain ⟨w1, w2, w3⟩ := h.walks
  obtain ⟨hv1, hv2, hv3⟩ := valid_prefixes hlim
  have hne : ∀ q i a, Valid lim (q ++ [i]) → walk P.hhdm m.mem root q = some a →
      entryAddress a i ≠ entryAddress l.pml1 j := by
    intro q i a hq hw he
    obtain ⟨rfl, -⟩ := entryAddress_inj (ht.layer q a hq.init hw).toAligned
      (ht.layer _ _ hv3 w3).toAligned hq.last hj he
    have := hq.depth
    rw [ht.inj q _ _ hq.init hv3 hw w3] at this
    simp at this
  rw [setLeaf_eq]
  refine ⟨h.top.congr ?_, h.mid.congr ?_, h.low.congr ?_⟩ <;> refine Mem.store_ne _ _ ?_
  · exact hne [] _ _ hv1 rfl
  · exact hne _ _ _ hv2 w1
  · exact hne _ _ _ hv3 w2

/-! ## Page arithmetic -/

/-- The `k`-th page after `v`. -/
def pageAfter (v k : Nat) : Nat := add64 v (mul64 k PAGE)

theorem vpn_pageAfter (v k : Nat) : vpn (pageAfter v k) = (vpn v + k) % 2 ^ 36 := by
  simp only [vpn, pageAfter, add64, mul64, PAGE]; omega

theorem pageAfter_pageAfter (p t i : Nat) :
    pageAfter (pageAfter p t) i = pageAfter p (t + i) := by
  simp only [pageAfter, add64, mul64, PAGE]; omega

/-- The start of the 2 MiB after those of `v`. -/
def chunkAfter (v : Nat) : Nat := (v / 2 ^ 21 + 1) * 2 ^ 21

theorem vpn_chunkAfter (v : Nat) : vpn (chunkAfter v) = (vpn v / 512 + 1) * 512 % 2 ^ 36 := by
  simp only [vpn, chunkAfter]; omega

theorem leafPath_eq_iff (v v' : Nat) : leafPath v = leafPath v' ↔ vpn v / 512 = vpn v' / 512 := by
  have h := vpn_lt v; have h' := vpn_lt v'
  simp only [leafPath, List.cons.injEq, and_true, pml3Index_eq, pml2Index_eq, pml1Index_eq]
  omega

/-! ## Page by page -/

/-- The calls `arch_table_manager_map(t, v + k * PAGE, p + k * PAGE, flags)`;
the first number counts the calls left, `k` those made. -/
def mapEach (P : PageSource σ) (table v p flags : Nat) :
    Nat → Nat → Machine σ → Option (Machine σ)
  | 0, _, m => some m
  | left + 1, k, m =>
    (map P m table (pageAfter v k) (pageAfter p k) flags).bind
      (mapEach P table v p flags left (k + 1))

theorem map_congr {v v' p : Nat} (h : vpn v = vpn v') :
    map P m root v p f = map P m root v' p f := by
  rw [map_eq, map_eq, descend_eq, descend_eq, descendLayers_congr (leafPath_congr h), pIndex_eq,
    pIndex_eq, h]

theorem mapEach_add (v p t : Nat) : ∀ (n k : Nat) (m : Machine σ),
    mapEach P root v p f (n + t) k m =
      (mapEach P root v p f n k m).bind (mapEach P root v p f t (k + n)) := by
  intro n
  induction n with
  | zero => intro k m; simp [mapEach]
  | succ n ih =>
    intro k m
    rw [Nat.succ_add, mapEach, mapEach, Option.bind_assoc]
    congr 1
    funext m₁
    rw [ih, Nat.add_right_comm, Nat.add_assoc]

/-- The calls from `t` on are those for the addresses shifted by `t` pages. -/
theorem mapEach_shift {v v' p p' t : Nat} (hv : vpn v' = vpn (pageAfter v t))
    (hp : p' = pageAfter p t) : ∀ (n k : Nat) (m : Machine σ),
    mapEach P root v p f n (t + k) m = mapEach P root v' p' f n k m := by
  intro n
  induction n with
  | zero => intro k m; rfl
  | succ n ih =>
    intro k m
    have he : vpn (pageAfter v (t + k)) = vpn (pageAfter v' k) := by
      rw [← pageAfter_pageAfter, vpn_pageAfter, ← hv, vpn_pageAfter]
    rw [mapEach, mapEach, map_congr he, hp, pageAfter_pageAfter]
    congr 1
    funext m₁
    rw [Nat.add_assoc, ih, hp]

theorem mapEach_tree {v p : Nat} : ∀ (n k : Nat) (m m' : Machine σ), Tree P 512 m root →
    mapEach P root v p f n k m = some m' → Tree P 512 m' root := by
  intro n
  induction n with
  | zero => intro k m m' ht h; cases h; exact ht
  | succ n ih =>
    intro k m m' ht h
    rw [mapEach, Option.bind_eq_some_iff] at h
    obtain ⟨m₁, h1, h2⟩ := h
    exact ih _ _ _ (map_spec ht (pml3Index_lt _) h1).1.tree h2

/-- The calls give every page of the range its address and the flags, and leave the others. -/
theorem mapEach_leaf {v p v' : Nat} : ∀ (n k : Nat) (m m' : Machine σ), Tree P 512 m root →
    vpn v + (k + n) ≤ 2 ^ 36 → mapEach P root v p f n k m = some m' →
    leafEntry P.hhdm m'.mem root v' =
      if vpn v + k ≤ vpn v' ∧ vpn v' < vpn v + (k + n) then
        setAddress (leafEntry P.hhdm m.mem root v' ||| (f ||| TABLE_ENTRY_PRESENT))
          (pageAfter p (vpn v' - vpn v))
      else leafEntry P.hhdm m.mem root v' := by
  intro n
  induction n with
  | zero =>
    intro k m m' _ _ h
    cases h
    rw [if_neg (by omega)]
  | succ n ih =>
    intro k m m' ht hle h
    rw [mapEach, Option.bind_eq_some_iff] at h
    obtain ⟨m₁, h1, h2⟩ := h
    obtain ⟨hg, hself, hother⟩ := map_spec ht (pml3Index_lt _) h1
    have hvpn : vpn (pageAfter v k) = vpn v + k := by rw [vpn_pageAfter]; omega
    rw [ih (k + 1) m₁ m' hg.tree (by omega) h2]
    by_cases he : vpn v' = vpn v + k
    · -- the page of this call, which the later ones do not come back to
      rw [if_neg (by omega), if_pos (by omega), leafEntry_congr _ _ (he.trans hvpn.symm), hself,
        leafEntry_congr P.hhdm m.mem (he.trans hvpn.symm), he, Nat.add_sub_cancel_left]
    · rw [hother v' (pml3Index_lt v') (by rw [hvpn]; exact he)]
      by_cases hin : vpn v + (k + 1) ≤ vpn v' ∧ vpn v' < vpn v + (k + 1 + n)
      · rw [if_pos hin, if_pos (by omega)]
      · rw [if_neg hin, if_neg (by omega)]

/-- Within one last layer that is warm, the calls are the code's inner loop. -/
theorem mapEach_of_warm {v p : Nat} {l : Layers} : ∀ (n k : Nat) (m : Machine σ),
    Tree P 512 m root → Warm P f m.mem root v l → pIndex v + (k + n) ≤ 512 →
    Tree P 512 (mapEntries l.pml1 (pIndex v) p f n k m) root ∧
      Warm P f (mapEntries l.pml1 (pIndex v) p f n k m).mem root v l ∧
      mapEach P root v p f n k m = some (mapEntries l.pml1 (pIndex v) p f n k m) := by
  intro n
  induction n with
  | zero => intro k m ht hw _; exact ⟨ht, hw, rfl⟩
  | succ n ih =>
    intro k m ht hw hle
    have hlt := vpn_lt v
    rw [pIndex_eq] at hle
    have hvpn : vpn (pageAfter v k) = vpn v + k := by rw [vpn_pageAfter]; omega
    have hpath : leafPath v = leafPath (pageAfter v k) := by rw [leafPath_eq_iff, hvpn]; omega
    have hidx : pIndex (pageAfter v k) = pIndex v + k := by
      rw [pIndex_eq, pIndex_eq, hvpn]; omega
    have hleaf := (hw.congr hpath).walks.2.2
    have hstep : map P m root (pageAfter v k) (pageAfter p k) f =
        some (setLeaf m l.pml1 (pIndex v + k) (pageAfter p k) f) := by
      rw [map_eq, descend_eq, descendLayers_of_warm (hw.congr hpath), hidx]; rfl
    have hj : pIndex v + k < 512 := by rw [pIndex_eq]; omega
    have htree := (setLeaf_spec (p := pageAfter p k) (f := f) ht (pml3Index_lt _) hleaf).1.tree
    rw [hidx] at htree
    rw [mapEach, hstep, Option.bind_some, mapEntries]
    exact ih (k + 1) _ htree (hw.setLeaf ht (pml3Index_lt v) hj) (by rw [pIndex_eq]; omega)

/-! ## The loop -/

/-- The loop's locals at `v`. -/
def cursorAt (v : Nat) (l : Layers) (physicalAddress count : Nat) : Cursor :=
  ⟨pml3Index v, pml2Index v, pml1Index v, pIndex v, l.pml3, l.pml2, l.pml1, physicalAddress, count⟩

/-- Advancing is a descent to the next 2 MiB: the layers that the code does not
ask for again are warm. -/
theorem advance_eq {v p count : Nat} {l : Layers} (hw : Warm P f m.mem root v l)
    (hroom : vpn v / 512 + 1 < 2 ^ 27) :
    advance P m root f (cursorAt v l p count) =
      (descendLayers P m root (chunkAfter v) f).map fun (l', m') =>
        (cursorAt (chunkAfter v) l' p count, m') := by
  have hv := vpn_chunkAfter v
  have hlt := vpn_lt v
  have hv' : vpn (chunkAfter v) = (vpn v / 512 + 1) * 512 := by omega
  have h0 : pIndex (chunkAfter v) = 0 := by rw [pIndex_eq, hv']; omega
  by_cases h1 : 512 ≤ pml1Index v + 1
  · by_cases h2 : 512 ≤ pml2Index v + 1
    · have e3 : pml3Index (chunkAfter v) = pml3Index v + 1 := by
        rw [pml1Index_eq] at h1; rw [pml2Index_eq] at h2
        rw [pml3Index_eq, pml3Index_eq, hv']; omega
      have e2 : pml2Index (chunkAfter v) = 0 := by
        rw [pml1Index_eq] at h1; rw [pml2Index_eq] at h2
        rw [pml2Index_eq, hv']; omega
      have e1 : pml1Index (chunkAfter v) = 0 := by
        rw [pml1Index_eq] at h1 ⊢; rw [hv']; omega
      simp only [advance, cursorAt, h1, h2, if_true, descendLayers, e1, e2, e3, h0,
        Option.bind_eq_bind, Option.pure_def, Option.map_eq_bind, Option.bind_assoc,
        Function.comp_def, Option.bind_some]
    · have e3 : pml3Index (chunkAfter v) = pml3Index v := by
        rw [pml1Index_eq] at h1; rw [pml2Index_eq] at h2
        rw [pml3Index_eq, pml3Index_eq, hv']; omega
      have e2 : pml2Index (chunkAfter v) = pml2Index v + 1 := by
        rw [pml1Index_eq] at h1; rw [pml2Index_eq] at h2
        rw [pml2Index_eq, pml2Index_eq, hv']; omega
      have e1 : pml1Index (chunkAfter v) = 0 := by
        rw [pml1Index_eq] at h1 ⊢; rw [hv']; omega
      simp only [advance, cursorAt, h1, h2, if_true, if_false, descendLayers, e1, e2, e3, h0,
        allocateNextLayer_of_leads hw.top,
        Option.bind_eq_bind, Option.pure_def, Option.map_eq_bind, Option.bind_assoc,
        Function.comp_def, Option.bind_some]
  · have e3 : pml3Index (chunkAfter v) = pml3Index v := by
      rw [pml1Index_eq] at h1
      rw [pml3Index_eq, pml3Index_eq, hv']; omega
    have e2 : pml2Index (chunkAfter v) = pml2Index v := by
      rw [pml1Index_eq] at h1
      rw [pml2Index_eq, pml2Index_eq, hv']; omega
    have e1 : pml1Index (chunkAfter v) = pml1Index v + 1 := by
      rw [pml1Index_eq] at h1
      rw [pml1Index_eq, pml1Index_eq, hv']; omega
    simp only [advance, cursorAt, h1, if_false, descendLayers, e1, e2, e3, h0,
      allocateNextLayer_of_leads hw.top, allocateNextLayer_of_leads hw.mid,
      Option.bind_eq_bind, Option.pure_def, Option.map_eq_bind, Option.bind_assoc,
      Function.comp_def, Option.bind_some]

/-- Where the code has descended to after `count` pages from `v`. -/
def trail (v count : Nat) : Nat :=
  if count = 0 then v else chunkAfter (pageAfter v (count - 1))

/-- The page-by-page calls, then the descent that the range version has made
ahead of time. -/
def mapEachTrail (P : PageSource σ) (table v p flags count : Nat) (m : Machine σ) :
    Option (Machine σ) :=
  (mapEach P table v p flags count 0 m).bind fun m =>
    (descendLayers P m table (trail v count) flags).map Prod.snd

/-- Descending first changes nothing for a non-empty series of calls, which
starts with the same descent. -/
theorem mapEach_descend (ht : Tree P 512 m root) {v p n : Nat} (hn : n ≠ 0) :
    mapEach P root v p f n 0 m =
      (descendLayers P m root v f).bind fun (_, m') => mapEach P root v p f n 0 m' := by
  obtain ⟨n, rfl⟩ := Nat.exists_eq_succ_of_ne_zero hn
  have hvpn : vpn (pageAfter v 0) = vpn v := by
    have := vpn_lt v
    rw [vpn_pageAfter]; omega
  simp only [mapEach, map_congr hvpn, map_eq, descend_eq, Option.map_map]
  cases h : descendLayers P m root v f with
  | none => rfl
  | some r =>
    obtain ⟨l, m'⟩ := r
    simp only [Option.bind_some,
      descendLayers_of_warm (warm_of_descendLayers ht (pml3Index_lt v) h), Option.map_some]

theorem descendLayers_tree (ht : Tree P 512 m root) {v : Nat} {l : Layers}
    (h : descendLayers P m root v f = some (l, m')) : Tree P 512 m' root := by
  have hd : descend P m root v f = some (l.pml1, m') := by rw [descend_eq, h]; rfl
  exact (descend_spec ht (pml3Index_lt v) hd).1.tree

theorem mapRangeLoop_done (fuel v p : Nat) (l : Layers) (m : Machine σ) :
    mapRangeLoop P root f fuel (cursorAt v l p 0) m = some m := by
  cases fuel <;> simp only [mapRangeLoop, cursorAt, if_true]

theorem mapEachTrail_zero {v p : Nat} {l : Layers} (hw : Warm P f m.mem root v l) :
    mapEachTrail P root v p f 0 m = some m := by
  simp only [mapEachTrail, mapEach, trail, if_true, Option.bind_some, descendLayers_of_warm hw,
    Option.map_some]

/-- The loop from `v` on, its layers at hand, does the remaining calls. -/
theorem mapRangeLoop_eq (fuel : Nat) : ∀ (v p count : Nat) (l : Layers) (m : Machine σ),
    Tree P 512 m root → Warm P f m.mem root v l → count ≤ fuel → vpn v + count ≤ 2 ^ 36 - 512 →
    mapRangeLoop P root f fuel (cursorAt v l p count) m = mapEachTrail P root v p f count m := by
  induction fuel with
  | zero =>
    intro v p count l m ht hw hf hroom
    have hc : count = 0 := by omega
    subst hc
    rw [mapRangeLoop_done, mapEachTrail_zero hw]
  | succ fuel ih =>
    intro v p count l m ht hw hf hroom
    by_cases hc : count = 0
    · subst hc
      rw [mapRangeLoop_done, mapEachTrail_zero hw]
    have hpi : pIndex v = vpn v % 512 := pIndex_eq v
    have hchunk : vpn (chunkAfter v) = (vpn v / 512 + 1) * 512 := by rw [vpn_chunkAfter]; omega
    obtain ⟨t, ht0⟩ : ∃ t, t = if count < 512 - pIndex v then count else 512 - pIndex v := ⟨_, rfl⟩
    have ht1 : 0 < t ∧ t ≤ count ∧ pIndex v + t ≤ 512 := by
      have := pIndex_lt v
      split at ht0 <;> omega
    -- the round's entries are `t` of the calls
    obtain ⟨htree, hwarm, hcalls⟩ := mapEach_of_warm (p := p) t 0 m ht hw (by omega)
    have hround : mapRangeLoop P root f (fuel + 1) (cursorAt v l p count) m =
        (advance P (mapEntries l.pml1 (pIndex v) p f t 0 m) root f
          (cursorAt v l (pageAfter p t) (count - t))).bind
          fun r => mapRangeLoop P root f fuel r.1 r.2 := by
      rw [ht0]
      simp only [mapRangeLoop, cursorAt, hc, if_false, Option.bind_eq_bind, pageAfter]
      rfl
    have hsplit : mapEach P root v p f count 0 m =
        mapEach P root v p f (count - t) t (mapEntries l.pml1 (pIndex v) p f t 0 m) := by
      obtain ⟨rest, rfl⟩ : ∃ rest, count = t + rest := ⟨count - t, by omega⟩
      rw [mapEach_add, hcalls, Option.bind_some, Nat.zero_add, Nat.add_sub_cancel_left]
    generalize mapEntries l.pml1 (pIndex v) p f t 0 m = m₁ at htree hwarm hround hsplit
    rw [hround, advance_eq hwarm (by omega), mapEachTrail, hsplit]
    by_cases hlast : count - t = 0
    · -- the last round: what is left is the descent
      have hpath : leafPath (trail v count) = leafPath (chunkAfter v) := by
        rw [leafPath_eq_iff, trail, if_neg hc, vpn_chunkAfter, vpn_pageAfter, hchunk]
        omega
      rw [hlast, mapEach, Option.bind_some, descendLayers_congr hpath]
      cases descendLayers P m₁ root (chunkAfter v) f with
      | none => rfl
      | some r => simp only [Option.map_some, Option.bind_some, mapRangeLoop_done]
    · have hfull : t = 512 - pIndex v := by split at ht0 <;> omega
      have hshift : mapEach P root v p f (count - t) t m₁ =
          mapEach P root (chunkAfter v) (pageAfter p t) f (count - t) 0 m₁ :=
        mapEach_shift (by rw [vpn_pageAfter, hchunk]; omega) rfl (count - t) 0 m₁
      have hpath : leafPath (trail v count) = leafPath (trail (chunkAfter v) (count - t)) := by
        rw [leafPath_eq_iff, trail, trail, if_neg hc, if_neg hlast, vpn_chunkAfter, vpn_chunkAfter,
          vpn_pageAfter, vpn_pageAfter, hchunk]
        omega
      rw [hshift, mapEach_descend htree hlast]
      cases hd : descendLayers P m₁ root (chunkAfter v) f with
      | none => rfl
      | some r =>
        obtain ⟨l', m₂⟩ := r
        simp only [Option.map_some, Option.bind_some]
        rw [ih _ _ _ _ _ (descendLayers_tree htree hd)
          (warm_of_descendLayers htree (pml3Index_lt _) hd) (by omega) (by omega), mapEachTrail]
        congr 1
        funext m₃
        rw [descendLayers_congr hpath]

theorem mapRange_layers (m : Machine σ) (root v p f count : Nat) :
    mapRange P m root v p f count =
      (descendLayers P m root v f).bind fun (l, m') =>
        mapRangeLoop P root f count (cursorAt v l p count) m' := by
  simp only [mapRange, descendLayers, cursorAt, Option.bind_eq_bind, Option.pure_def,
    Option.bind_assoc, Option.bind_some]

/-- Without pages only the layers above the first one are asked for. -/
theorem mapRange_zero (m : Machine σ) (root v p f : Nat) :
    mapRange P m root v p f 0 = (descendLayers P m root v f).map Prod.snd := by
  rw [mapRange_layers]
  cases descendLayers P m root v f with
  | none => rfl
  | some r =>
    obtain ⟨l, m'⟩ := r
    simp only [Option.bind_some, Option.map_some, mapRangeLoop_done]

/-- `arch_table_manager_map_range` is `count` calls of `arch_table_manager_map`
and a descent; in particular its loop ends. -/
theorem mapRange_eq (ht : Tree P 512 m root) {v p count : Nat}
    (hroom : vpn v + count ≤ 2 ^ 36 - 512) :
    mapRange P m root v p f count = mapEachTrail P root v p f count m := by
  have hloop : ∀ l m', descendLayers P m root v f = some (l, m') →
      mapRangeLoop P root f count (cursorAt v l p count) m' =
        mapEachTrail P root v p f count m' := fun l m' h =>
    mapRangeLoop_eq count v p count l m' (descendLayers_tree ht h)
      (warm_of_descendLayers ht (pml3Index_lt v) h) (Nat.le_refl _) hroom
  rw [mapRange_layers, mapEachTrail]
  by_cases hc : count = 0
  · subst hc
    simp only [mapEach, trail, if_true, Option.bind_some]
    cases h : descendLayers P m root v f with
    | none => rfl
    | some r =>
      obtain ⟨l, m'⟩ := r
      rw [Option.bind_some, hloop l m' h,
        mapEachTrail_zero (warm_of_descendLayers ht (pml3Index_lt v) h), Option.map_some]
  · rw [mapEach_descend ht hc]
    cases h : descendLayers P m root v f with
    | none => rfl
    | some r =>
      obtain ⟨l, m'⟩ := r
      simp only [Option.bind_some, hloop l m' h, mapEachTrail]

/-! ## Tables built with both calls -/

/-- The range ends before the last 2 MiB of the 48-bit address space. -/
def RangeOk (v count : Nat) : Prop := v % 2 ^ 48 + count * PAGE ≤ 2 ^ 48 - 2 ^ 21

instance (v count : Nat) : Decidable (RangeOk v count) := inferInstanceAs (Decidable (_ ≤ _))

theorem RangeOk.vpn {v count : Nat} (h : RangeOk v count) :
    TableManager.vpn v + count ≤ 2 ^ 36 - 512 := by
  simp only [RangeOk, PAGE] at h
  unfold TableManager.vpn; omega

inductive RangeOp where
  | one (op : TableOp)
  | mapRange (virtualAddress physicalAddress flags count : Nat)

/-- `tableLTS` with calls of `arch_table_manager_map_range`. -/
def rangeLTS (P : PageSource σ) : LTS (Table σ) RangeOp where
  init := (tableLTS P).init
  step s l t := match l with
    | .one op => (tableLTS P).step s op t
    | .mapRange v p f count => RangeOk v count ∧ t.root = s.root ∧
        mapRange P s.machine s.root v p f count = some t.machine

/-- What a range call leaves behind: the page-by-page result with, at most, more
layers. -/
theorem mapRange_some (ht : Tree P 512 m root) {v p count : Nat} (hr : RangeOk v count)
    (h : mapRange P m root v p f count = some m') :
    ∃ m₂, mapEach P root v p f count 0 m = some m₂ ∧ Tree P 512 m₂ root ∧
      Grows P 512 root m₂ m' ∧
      ∀ v', leafEntry P.hhdm m'.mem root v' = leafEntry P.hhdm m₂.mem root v' := by
  rw [mapRange_eq ht hr.vpn, mapEachTrail, Option.bind_eq_some_iff] at h
  obtain ⟨m₂, h2, hd⟩ := h
  rw [Option.map_eq_some_iff] at hd
  obtain ⟨⟨l, m₃⟩, hd, rfl⟩ := hd
  have ht2 := mapEach_tree count 0 m m₂ ht h2
  have hd' : descend P m₂ root (trail v count) f = some (l.pml1, m₃) := by
    rw [descend_eq, hd]; rfl
  obtain ⟨hg, -, hl⟩ := descend_spec ht2 (pml3Index_lt _) hd'
  exact ⟨m₂, h2, ht2, hg, fun v' => hl v' (pml3Index_lt v')⟩

/-- What a range call does to the leaves. -/
theorem mapRange_leaf (ht : Tree P 512 m root) {v p count : Nat} (hr : RangeOk v count)
    (h : mapRange P m root v p f count = some m') (v' : Nat) :
    leafEntry P.hhdm m'.mem root v' =
      if vpn v ≤ vpn v' ∧ vpn v' < vpn v + count then
        setAddress (leafEntry P.hhdm m.mem root v' ||| (f ||| TABLE_ENTRY_PRESENT))
          (pageAfter p (vpn v' - vpn v))
      else leafEntry P.hhdm m.mem root v' := by
  obtain ⟨m₂, h2, -, -, hl⟩ := mapRange_some ht hr h
  have hroom := hr.vpn
  rw [hl v', mapEach_leaf count 0 m m₂ ht (by omega) h2, Nat.add_zero, Nat.zero_add]

/-- A page is present afterwards if it was, or if it is in the range. -/
theorem mapRange_present (ht : Tree P 512 m root) {v p count : Nat} (hr : RangeOk v count)
    (h : mapRange P m root v p f count = some m') (v' : Nat) :
    Present (leafEntry P.hhdm m'.mem root v') ↔
      Present (leafEntry P.hhdm m.mem root v') ∨ vpn v ≤ vpn v' ∧ vpn v' < vpn v + count := by
  rw [mapRange_leaf ht hr h v']
  split
  · rename_i hin
    exact iff_of_true (present_mapped _ _ _) (.inr hin)
  · rename_i hout
    simp [hout]

theorem range_inductive (P : PageSource σ) :
    (rangeLTS P).Inductive fun s => Tree P 512 s.machine s.root where
  init := (table_inductive P).init
  step s l t hs h := by
    cases l with
    | one op => exact (table_inductive P).step s op t hs h
    | mapRange v p f count =>
      obtain ⟨hr, hroot, h⟩ := h
      obtain ⟨m₂, -, -, hg, -⟩ := mapRange_some hs hr h
      rw [hroot]; exact hg.tree

/-- **Range mapping is page-by-page mapping.** In every table built by the
manager, a range call that ends before the last 2 MiB leaves every virtual page
with the leaf entry and the translation that the single calls give it. -/
theorem map_range_agrees {s : Table σ} (hs : (rangeLTS P).Reachable s) {v p count : Nat}
    (hr : RangeOk v count) (h : mapRange P s.machine s.root v p f count = some m') :
    ∃ m₂, mapEach P s.root v p f count 0 s.machine = some m₂ ∧
      ∀ v', leafEntry P.hhdm m'.mem s.root v' = leafEntry P.hhdm m₂.mem s.root v' ∧
        translateToPhysical P m' s.root v' = translateToPhysical P m₂ s.root v' := by
  have ht := (range_inductive P).reachable hs
  obtain ⟨m₂, h2, ht2, hg, hl⟩ := mapRange_some ht hr h
  refine ⟨m₂, h2, fun v' => ⟨hl v', ?_⟩⟩
  rw [translateToPhysical_eq hg.tree (pml3Index_lt v'), translateToPhysical_eq ht2 (pml3Index_lt v'),
    hl v']

theorem smallTable_rangeLTS : (rangeLTS smallSource).Reachable smallTable :=
  .init ⟨⟨fun _ => 0xAA, 0⟩, rfl⟩

/-- Three pages across a 1 GiB boundary. -/
theorem map_range_agrees_small :
    ∃ m' m₂, mapRange smallSource smallTable.machine smallTable.root 0x3FFFF000 0x7000 7 3 = some m' ∧
      mapEach smallSource smallTable.root 0x3FFFF000 0x7000 7 3 0 smallTable.machine = some m₂ ∧
      translateToPhysical smallSource m' smallTable.root 0x40001000 =
        translateToPhysical smallSource m₂ smallTable.root 0x40001000 := by
  obtain ⟨m', h⟩ := Option.isSome_iff_exists.mp
    (show (mapRange smallSource smallTable.machine smallTable.root 0x3FFFF000 0x7000 7 3).isSome by
      decide +kernel)
  obtain ⟨m₂, h2, hall⟩ := map_range_agrees smallTable_rangeLTS (by decide) h
  exact ⟨m', m₂, h, h2, (hall _).2⟩

end GaOS.L2.TableManager
