import GaOS.Core.LTS
import GaOS.L2Paging.Tree

/-!
# Mapping and translating

A table, seen from outside, is its leaf entries: `leafEntry` is the word that
the walk for `v` ends at (0 when a layer is missing), and
`translateToPhysical_eq` reads the code's lookup off it. `map_spec` says what
`arch_table_manager_map` does to this view: the leaf of `v` gets the flags and
the address, every other leaf is unchanged, and the table `Grows`.

`tableLTS` is a table in use: `arch_table_manager_new`, then any calls of
`arch_table_manager_map`, and between them anything that the rest of the kernel
does without touching the table's layers.
-/
namespace GaOS.L2.TableManager

open GaOS.L1 GaOS.L1.PageAllocator

variable {σ : Type} {P : PageSource σ} {lim root : Nat} {m m' : Machine σ}

/-! ## Leaves -/

/-- The indices that lead to the last layer for `v`. -/
def leafPath (v : Nat) : List Nat := [pml3Index v, pml2Index v, pml1Index v]

def leafEntry (hhdm : Nat) (mem : Mem) (root v : Nat) : Nat :=
  match walk hhdm mem root (leafPath v) with
  | some a => mem (entryAddress a (pIndex v))
  | none => 0

theorem pml3Index_lt (v : Nat) : pml3Index v < 512 := by
  have := vpn_lt v
  rw [pml3Index_eq]; omega

theorem pml2Index_lt (v : Nat) : pml2Index v < 512 := by
  rw [pml2Index_eq]; exact Nat.mod_lt _ (by decide)

theorem pml1Index_lt (v : Nat) : pml1Index v < 512 := by
  rw [pml1Index_eq]; exact Nat.mod_lt _ (by decide)

theorem pIndex_lt (v : Nat) : pIndex v < 512 := by
  rw [pIndex_eq]; exact Nat.mod_lt _ (by decide)

theorem valid_leafPath {v : Nat} (h : pml3Index v < lim) : Valid lim (leafPath v) := by
  refine ⟨by simp [leafPath], fun i hi => ?_, by simpa [leafPath] using h⟩
  simp only [leafPath, List.mem_cons, List.not_mem_nil, or_false] at hi
  rcases hi with rfl | rfl | rfl
  · exact pml3Index_lt v
  · exact pml2Index_lt v
  · exact pml1Index_lt v

/-- The four indices determine the page number. -/
theorem vpn_eq_of_indices {v v' : Nat} (hp : leafPath v = leafPath v')
    (hi : pIndex v = pIndex v') : vpn v = vpn v' := by
  simp only [leafPath, List.cons.injEq, and_true, pml3Index_eq, pml2Index_eq, pml1Index_eq] at hp
  rw [pIndex_eq, pIndex_eq] at hi
  omega

theorem leafPath_congr {v v' : Nat} (h : vpn v = vpn v') : leafPath v = leafPath v' := by
  simp only [leafPath, pml3Index_eq, pml2Index_eq, pml1Index_eq, h]

theorem leafEntry_congr (hhdm : Nat) (mem : Mem) {v v' : Nat} (h : vpn v = vpn v') :
    leafEntry hhdm mem root v = leafEntry hhdm mem root v' := by
  unfold leafEntry; rw [leafPath_congr h, pIndex_eq, pIndex_eq, h]

/-- On a layer of the tree the code's lookup of the next layer is `nextLayer`:
neither the check against the direct map's offset nor the null check fires by
mistake. -/
theorem getNextLayer_eq {a i : Nat} (ha : Layer P m.src a) (hi : i < 512) :
    getNextLayer P m a i = (nextLayer P.hhdm m.mem a i).getD 0 := by
  have h1 := entryAddress_mem ha.toAligned hi
  have h2 := ha.above
  have h3 : ¬entryAddress a i ≤ P.hhdm := by simp only [PAGE] at h2; omega
  unfold getNextLayer nextLayer
  simp only [h3, if_false]
  by_cases hp : Present (m.mem (entryAddress a i)) <;> simp [hp]

theorem Layer.ne_zero {src : σ} {a : Nat} (h : Layer P src a) : a ≠ 0 := by
  have := h.above
  simp only [PAGE] at this; omega

theorem translateToPhysical_eq (ht : Tree P lim m root) {v : Nat} (hv : pml3Index v < lim) :
    translateToPhysical P m root v =
      if Present (leafEntry P.hhdm m.mem root v) then
        getAddress (leafEntry P.hhdm m.mem root v) else 0 := by
  have hvalid := valid_leafPath hv
  have h2 : Valid lim [pml3Index v, pml2Index v] :=
    Valid.init (p := [pml3Index v, pml2Index v]) hvalid
  have h1 : Valid lim [pml3Index v] := Valid.init (p := [pml3Index v]) h2
  have l0 := ht.layer [] root .nil rfl
  unfold translateToPhysical leafEntry leafPath
  simp only [getNextLayer_eq l0 (pml3Index_lt v), walk]
  rcases Option.eq_none_or_eq_some (nextLayer P.hhdm m.mem root (pml3Index v)) with e1 | ⟨a, e1⟩
  · simp [e1, not_present_zero]
  have la := ht.layer _ a h1 (by simp [walk, e1])
  simp only [e1, Option.getD_some, la.ne_zero, if_false, getNextLayer_eq la (pml2Index_lt v),
    Option.bind_some]
  rcases Option.eq_none_or_eq_some (nextLayer P.hhdm m.mem a (pml2Index v)) with e2 | ⟨b, e2⟩
  · simp [e2, not_present_zero]
  have lb := ht.layer _ b h2 (by simp [walk, e1, e2])
  simp only [e2, Option.getD_some, lb.ne_zero, if_false, getNextLayer_eq lb (pml1Index_lt v),
    Option.bind_some]
  rcases Option.eq_none_or_eq_some (nextLayer P.hhdm m.mem b (pml1Index v)) with e3 | ⟨c, e3⟩
  · simp [e3, not_present_zero]
  have lc := ht.layer _ c hvalid (by simp [leafPath, walk, e1, e2, e3])
  simp only [e3, Option.getD_some, lc.ne_zero, if_false, Option.bind_some]

/-! ## Descending -/

/-- The part that `map` and `map_range` share: the three layers above the leaf
of `v`, allocated where they are missing. -/
def descend (P : PageSource σ) (m : Machine σ) (table virtualAddress flags : Nat) :
    Option (Nat × Machine σ) := do
  let (pml3, m) ← allocateNextLayer P m table (pml3Index virtualAddress) flags
  let (pml2, m) ← allocateNextLayer P m pml3 (pml2Index virtualAddress) flags
  allocateNextLayer P m pml2 (pml1Index virtualAddress) flags

theorem map_eq (m : Machine σ) (table v p f : Nat) :
    map P m table v p f =
      (descend P m table v f).map fun (pml1, m) => setLeaf m pml1 (pIndex v) p f := by
  simp only [map, descend, Option.bind_eq_bind, Option.pure_def,
    Option.map_eq_bind, Option.bind_assoc, Function.comp_def]

/-- The words of another layer are left alone by `allocate_next_layer`. -/
theorem allocateNextLayer_other (ht : Tree P lim m root) {q : List Nat} {i a n f : Nat}
    (hv : Valid lim (q ++ [i])) (hq : walk P.hhdm m.mem root q = some a)
    (h : allocateNextLayer P m a i f = some (n, m')) {p : List Nat} {b l : Nat}
    (hp : Valid lim p) (hb : walk P.hhdm m.mem root p = some b) (hl : l < 512)
    (hne : ¬(p = q ∧ l = i)) :
    m'.mem (entryAddress b l) = m.mem (entryAddress b l) := by
  obtain ⟨-, hwords, -, hln, -⟩ := allocateNextLayer_words ht hv hq h
  have hlb := ht.layer p b hp hb
  have he : entryAddress b l ≠ entryAddress a i := by
    intro he
    obtain ⟨rfl, hi⟩ :=
      entryAddress_inj hlb.toAligned (ht.layer q a hv.init hq).toAligned hl hv.last he
    exact hne ⟨ht.inj p q b hp hv.init hb hq, hi⟩
  rcases hwords _ he with hsame | ⟨hf, h1, h2, -⟩
  · exact hsame
  · have := entryAddress_outside hlb hl hf hln.page
    omega

theorem allocateNextLayer_leaf (ht : Tree P lim m root) {q : List Nat} {i a n f : Nat}
    (hv : Valid lim (q ++ [i])) (hq : walk P.hhdm m.mem root q = some a)
    (h : allocateNextLayer P m a i f = some (n, m')) {v : Nat} (hlim : pml3Index v < lim) :
    leafEntry P.hhdm m'.mem root v = leafEntry P.hhdm m.mem root v := by
  have hlen : leafPath v ≠ q := by
    intro hc
    have := hv.depth
    rw [← hc] at this
    simp [leafPath] at this
  have hkeep : ∀ b, walk P.hhdm m.mem root (leafPath v) = some b →
      m'.mem (entryAddress b (pIndex v)) = m.mem (entryAddress b (pIndex v)) :=
    fun b hb => allocateNextLayer_other ht hv hq h (valid_leafPath hlim) hb (pIndex_lt v)
      fun hc => hlen hc.1
  unfold leafEntry
  rw [allocateNextLayer_walk ht hv hq h (valid_leafPath hlim)]
  by_cases hp : leafPath v = q ++ [i]
  · rw [if_pos hp]
    obtain ⟨-, -, hold, hln, -⟩ := allocateNextLayer_words ht hv hq h
    rcases hold with ho | ⟨hnone, -, hz⟩
    · rw [← hp] at ho
      rw [ho]; exact hkeep n ho
    · -- the leaves of a fresh layer are zero, as those of a missing one
      have hmem := entryAddress_mem hln.toAligned (pIndex_lt v)
      rw [← hp] at hnone
      rw [hnone]; exact hz _ hmem.1 hmem.2
  · rw [if_neg hp]
    cases hw : walk P.hhdm m.mem root (leafPath v) with
    | none => rfl
    | some b => exact hkeep b hw

theorem descend_some {v f a : Nat} (h : descend P m root v f = some (a, m')) :
    ∃ pml3 m₁ pml2 m₂, allocateNextLayer P m root (pml3Index v) f = some (pml3, m₁) ∧
      allocateNextLayer P m₁ pml3 (pml2Index v) f = some (pml2, m₂) ∧
      allocateNextLayer P m₂ pml2 (pml1Index v) f = some (a, m') := by
  simp only [descend, Option.bind_eq_bind, Option.bind_eq_some_iff, Prod.exists] at h
  obtain ⟨pml3, m₁, h1, pml2, m₂, h2, h3⟩ := h
  exact ⟨pml3, m₁, pml2, m₂, h1, h2, h3⟩

theorem valid_prefixes {v : Nat} (h : pml3Index v < lim) :
    Valid lim ([] ++ [pml3Index v]) ∧ Valid lim ([pml3Index v] ++ [pml2Index v]) ∧
      Valid lim ([pml3Index v, pml2Index v] ++ [pml1Index v]) := by
  have h3 : Valid lim ([pml3Index v, pml2Index v] ++ [pml1Index v]) := valid_leafPath h
  have h2 : Valid lim ([pml3Index v] ++ [pml2Index v]) := h3.init
  exact ⟨h2.init, h2, h3⟩

/-- Descending grows the table, ends at the last layer of `v`, and changes no
leaf. -/
theorem descend_spec (ht : Tree P lim m root) {v f a : Nat} (hlim : pml3Index v < lim)
    (h : descend P m root v f = some (a, m')) :
    Grows P lim root m m' ∧ walk P.hhdm m'.mem root (leafPath v) = some a ∧
      ∀ v', pml3Index v' < lim →
        leafEntry P.hhdm m'.mem root v' = leafEntry P.hhdm m.mem root v' := by
  obtain ⟨pml3, m₁, pml2, m₂, h1, h2, h3⟩ := descend_some h
  obtain ⟨hv1, hv2, hv3⟩ := valid_prefixes hlim
  obtain ⟨g1, w1⟩ := allocateNextLayer_grows ht hv1 rfl h1
  obtain ⟨g2, w2⟩ := allocateNextLayer_grows g1.tree hv2 w1 h2
  obtain ⟨g3, w3⟩ := allocateNextLayer_grows g2.tree hv3 w2 h3
  refine ⟨(g1.trans g2).trans g3, w3, fun v' hl => ?_⟩
  rw [allocateNextLayer_leaf g2.tree hv3 w2 h3 hl, allocateNextLayer_leaf g1.tree hv2 w1 h2 hl,
    allocateNextLayer_leaf ht hv1 rfl h1 hl]

/-! ## The leaf update -/

theorem setLeaf_eq (m : Machine σ) (a l p f : Nat) :
    setLeaf m a l p f = setEntry m (entryAddress a l)
      (setAddress (m.mem (entryAddress a l) ||| (f ||| TABLE_ENTRY_PRESENT)) p) := by
  simp only [setLeaf, setEntry, Mem.store_self, Machine.mk.injEq, and_true]
  funext x
  by_cases hx : x = entryAddress a l
  · simp only [hx, Mem.store_self]
  · simp only [Mem.store_ne _ _ hx]

theorem Valid.of_isPrefix {p q : List Nat} (h : Valid lim p) (hq : q <+: p) : Valid lim q := by
  refine ⟨Nat.le_trans hq.length_le h.depth, fun i hi => h.index i (hq.subset hi), fun i hi => ?_⟩
  obtain ⟨t, rfl⟩ := hq
  cases q with
  | nil => simp at hi
  | cons j q => exact h.root i (by simpa using hi)

/-- A leaf entry is on no walk. -/
theorem walk_setLeaf (ht : Tree P lim m root) {v a w : Nat} (hlim : pml3Index v < lim)
    (hw : walk P.hhdm m.mem root (leafPath v) = some a) {p : List Nat} (hp : Valid lim p) :
    walk P.hhdm (m.mem.store (entryAddress a (pIndex v)) w) root p =
      walk P.hhdm m.mem root p := by
  refine walk_congr fun q i b hq hb => nextLayer_congr (Mem.store_ne _ _ fun he => ?_)
  have hqi := hp.of_isPrefix hq
  have hvl := valid_leafPath hlim
  obtain ⟨rfl, -⟩ := entryAddress_inj (ht.layer q b hqi.init hb).toAligned
    (ht.layer _ a hvl hw).toAligned hqi.last (pIndex_lt v) he
  have := ht.inj q _ b hqi.init hvl hb hw
  have hd := hqi.depth
  rw [this] at hd
  simp [leafPath] at hd

theorem setLeaf_spec (ht : Tree P lim m root) {v a p f : Nat} (hlim : pml3Index v < lim)
    (hw : walk P.hhdm m.mem root (leafPath v) = some a) :
    Grows P lim root m (setLeaf m a (pIndex v) p f) ∧
      leafEntry P.hhdm (setLeaf m a (pIndex v) p f).mem root v =
        setAddress (leafEntry P.hhdm m.mem root v ||| (f ||| TABLE_ENTRY_PRESENT)) p ∧
      ∀ v', pml3Index v' < lim → vpn v' ≠ vpn v →
        leafEntry P.hhdm (setLeaf m a (pIndex v) p f).mem root v' =
          leafEntry P.hhdm m.mem root v' := by
  have hvl := valid_leafPath hlim
  have hla := ht.layer _ a hvl hw
  have hin := entryAddress_mem hla.toAligned (pIndex_lt v)
  have hwalk := fun w p (hp : Valid lim p) => walk_setLeaf (w := w) ht hlim hw hp
  rw [setLeaf_eq]
  refine ⟨⟨⟨fun q b hq hb => ?_, fun q q' b hq hq' hb hb' => ?_, fun q b i hq hb hn => ?_⟩,
    fun q b hq hb => ?_, fun q b hq hb => ?_, fun x hx => ?_, fun _ => id,
    fun i _ hlt => Mem.store_ne _ _ fun he => ?_⟩, ?_, fun v' hl hne => ?_⟩
  · exact ht.layer q b hq (hwalk _ q hq ▸ hb)
  · exact ht.inj q q' b hq hq' (hwalk _ q hq ▸ hb) (hwalk _ q' hq' ▸ hb')
  · have hb' : walk P.hhdm m.mem root q = some b := hwalk _ q hq.init ▸ hb
    have he : entryAddress b i ≠ entryAddress a (pIndex v) := by
      intro he
      obtain ⟨hab, -⟩ := entryAddress_inj (ht.layer q b hq.init hb').toAligned hla.toAligned
        hq.last (pIndex_lt v) he
      have := hq.depth
      rw [ht.inj q _ a hq.init hvl (hab ▸ hb') hw] at this
      simp [leafPath] at this
    simp only [setEntry, Mem.store_ne _ _ he] at hn ⊢
    exact ht.clear q b i hq hb' hn
  · rw [← hb]; exact hwalk _ q hq
  · exact .inl (hwalk _ q hq ▸ hb)
  · by_cases he : x = entryAddress a (pIndex v)
    · exact ⟨leafPath v, a, hvl, (hwalk _ _ hvl).trans hw, he ▸ hin.1, he ▸ hin.2⟩
    · exact absurd (Mem.store_ne _ _ he) hx
  · obtain ⟨rfl, -⟩ := entryAddress_inj (ht.layer [] root .nil rfl).toAligned hla.toAligned hlt
      (pIndex_lt v) he
    have := ht.inj [] _ root .nil hvl rfl hw
    simp [leafPath] at this
  · simp only [leafEntry, setEntry, hwalk _ _ hvl, hw, Mem.store_self]
  · have hvl' := valid_leafPath hl
    simp only [leafEntry, setEntry, hwalk _ _ hvl']
    cases hb : walk P.hhdm m.mem root (leafPath v') with
    | none => rfl
    | some b =>
      refine Mem.store_ne _ _ fun he => hne ?_
      obtain ⟨rfl, hi⟩ := entryAddress_inj (ht.layer _ b hvl' hb).toAligned hla.toAligned
        (pIndex_lt v') (pIndex_lt v) he
      exact vpn_eq_of_indices (ht.inj _ _ b hvl' hvl hb hw) hi

/-- What `arch_table_manager_map` does to a table. -/
theorem map_spec (ht : Tree P lim m root) {v p f : Nat} (hlim : pml3Index v < lim)
    (h : map P m root v p f = some m') :
    Grows P lim root m m' ∧
      leafEntry P.hhdm m'.mem root v =
        setAddress (leafEntry P.hhdm m.mem root v ||| (f ||| TABLE_ENTRY_PRESENT)) p ∧
      ∀ v', pml3Index v' < lim → vpn v' ≠ vpn v →
        leafEntry P.hhdm m'.mem root v' = leafEntry P.hhdm m.mem root v' := by
  rw [map_eq, Option.map_eq_some_iff] at h
  obtain ⟨⟨a, m₁⟩, hd, rfl⟩ := h
  obtain ⟨g1, hw, hl1⟩ := descend_spec ht hlim hd
  obtain ⟨g2, hself, hother⟩ := setLeaf_spec (p := p) (f := f) g1.tree hlim hw
  refine ⟨g1.trans g2, ?_, fun v' hl hne => ?_⟩
  · rw [hself, hl1 v hlim]
  · rw [hother v' hl hne, hl1 v' hl]

/-- A page is present afterwards if it was, or if it is the one that was mapped. -/
theorem map_present (ht : Tree P 512 m root) {v p f : Nat} (h : map P m root v p f = some m')
    (v' : Nat) : Present (leafEntry P.hhdm m'.mem root v') ↔
      Present (leafEntry P.hhdm m.mem root v') ∨ vpn v' = vpn v := by
  obtain ⟨-, hself, hother⟩ := map_spec ht (pml3Index_lt v) h
  by_cases he : vpn v' = vpn v
  · rw [leafEntry_congr _ _ he, hself]
    exact iff_of_true (present_mapped _ _ _) (.inr he)
  · rw [hother v' (pml3Index_lt v') he]
    simp [he]

/-! ## A table in use -/

/-- A table and the machine it lives in. -/
structure Table (σ : Type) where
  root : Nat
  machine : Machine σ

/-- Nothing of the table changes between `m` and `m'`: its layers keep their
entries (of the root, those below `lim`) and are not given back. -/
def Untouched (P : PageSource σ) (lim root : Nat) (m m' : Machine σ) : Prop :=
  ∀ p a, Valid lim p → walk P.hhdm m.mem root p = some a →
    (∀ i, i < 512 → (p = [] → i < lim) →
      m'.mem (entryAddress a i) = m.mem (entryAddress a i)) ∧ ¬P.Free m'.src a

theorem Valid.root_index {q : List Nat} {i : Nat} (h : Valid lim (q ++ [i])) (hq : q = []) :
    i < lim := h.root i (by rw [hq]; rfl)

theorem Untouched.walk (h : Untouched P lim root m m') {p : List Nat} (hp : Valid lim p) :
    TableManager.walk P.hhdm m'.mem root p = TableManager.walk P.hhdm m.mem root p :=
  walk_congr fun q i b hq hb =>
    have hv := hp.of_isPrefix hq
    nextLayer_congr ((h q b hv.init hb).1 i hv.last hv.root_index)

theorem Untouched.leafEntry (h : Untouched P lim root m m') {v : Nat} (hv : pml3Index v < lim) :
    TableManager.leafEntry P.hhdm m'.mem root v = TableManager.leafEntry P.hhdm m.mem root v := by
  unfold TableManager.leafEntry
  rw [h.walk (valid_leafPath hv)]
  cases hw : TableManager.walk P.hhdm m.mem root (leafPath v) with
  | none => rfl
  | some a => exact (h _ a (valid_leafPath hv) hw).1 _ (pIndex_lt v) (by simp [leafPath])

theorem Untouched.tree (h : Untouched P lim root m m') (ht : Tree P lim m root) :
    Tree P lim m' root := by
  refine ⟨fun p a hp hw => ?_, fun p q a hp hq hw hw' => ?_, fun p a i hp hw hn => ?_⟩
  · rw [h.walk hp] at hw
    exact { ht.layer p a hp hw with taken := (h p a hp hw).2 }
  · rw [h.walk hp] at hw
    rw [h.walk hq] at hw'
    exact ht.inj p q a hp hq hw hw'
  · rw [h.walk hp.init] at hw
    rw [(h p a hp.init hw).1 i hp.last hp.root_index] at hn ⊢
    exact ht.clear p a i hp hw hn

theorem Untouched.trans {m'' : Machine σ} (h : Untouched P lim root m m')
    (h' : Untouched P lim root m' m'') : Untouched P lim root m m'' := by
  intro p a hp hw
  obtain ⟨h1, -⟩ := h p a hp hw
  obtain ⟨h2, h3⟩ := h' p a hp ((h.walk hp).trans hw)
  exact ⟨fun i hi hr => (h2 i hi hr).trans (h1 i hi hr), h3⟩

/-- Taking pages leaves a table alone. -/
theorem untouched_allocate {lim n a : Nat} (ht : Tree P lim m root) (hn : n < 2 ^ 64)
    (ha : m.pageAllocate P n = some (a, m')) : Untouched P lim root m m' := by
  obtain ⟨hg, hmem⟩ := Machine.pageAllocate_grant hn ha
  intro p b hp hw
  have hl := ht.layer p b hp hw
  refine ⟨fun i hi _ => ?_, fun hf => hl.taken (hg.kept b hf)⟩
  rw [hmem, Mem.zero_out]
  by_contra hin
  have hb := entryAddress_mem hl.toAligned hi
  have hpage := hl.page
  have hal := hg.aligned
  -- the layer would be one of the pages
  obtain ⟨j, hj⟩ : ∃ j, b = a + j * PAGE := ⟨(b - a) / PAGE, by simp only [PAGE] at *; omega⟩
  refine hl.taken (hj ▸ hg.fresh j ?_)
  simp only [PAGE] at *; omega

/-- A fresh table has its root only. -/
theorem archTableManagerNew_walk (h : archTableManagerNew P m = some (root, m')) {i : Nat}
    (hi : i < 512) : m'.mem (entryAddress root i) = 0 ∧
      ∀ p, walk P.hhdm m'.mem root (i :: p) = none := by
  obtain ⟨hg, hmem⟩ := Machine.pageAllocate_spec h
  have hin := entryAddress_mem (layer_of_grant hg).toAligned hi
  have hz : m'.mem (entryAddress root i) = 0 := by rw [hmem, Mem.zero_in _ hin.1 hin.2]
  refine ⟨hz, fun p => ?_⟩
  rw [walk, nextLayer_zero hz, Option.bind_none]

theorem archTableManagerNew_leaf (h : archTableManagerNew P m = some (root, m')) (v : Nat) :
    leafEntry P.hhdm m'.mem root v = 0 := by
  rw [leafEntry, leafPath, (archTableManagerNew_walk h (pml3Index_lt v)).2]

theorem archTableManagerNew_tree (h : archTableManagerNew P m = some (root, m')) :
    Tree P lim m' root := by
  obtain ⟨hg, -⟩ := Machine.pageAllocate_spec h
  have hnil : ∀ p a, Valid lim p → walk P.hhdm m'.mem root p = some a → p = [] ∧ a = root := by
    intro p a hp hw
    cases p with
    | nil => cases hw; exact ⟨rfl, rfl⟩
    | cons i p =>
      rw [(archTableManagerNew_walk h (hp.index i (by simp))).2] at hw
      cases hw
  refine ⟨fun p a hp hw => ?_, fun p q a hp hq hw hw' => ?_, fun p a i hp hw _ => ?_⟩
  · rw [(hnil p a hp hw).2]; exact layer_of_grant hg
  · rw [(hnil p a hp hw).1, (hnil q a hq hw').1]
  · rw [(hnil p a hp.init hw).2]; exact (archTableManagerNew_walk h hp.last).1

inductive TableOp where
  | map (virtualAddress physicalAddress flags : Nat)
  /-- the rest of the kernel, away from this table -/
  | other

def tableLTS (P : PageSource σ) : LTS (Table σ) TableOp where
  init s := ∃ m, archTableManagerNew P m = some (s.root, s.machine)
  step s l t := t.root = s.root ∧ match l with
    | .map v p f => map P s.machine s.root v p f = some t.machine
    | .other => Untouched P 512 s.root s.machine t.machine

theorem table_inductive (P : PageSource σ) :
    (tableLTS P).Inductive fun s => Tree P 512 s.machine s.root where
  init s h := by
    obtain ⟨m, hm⟩ := h
    exact archTableManagerNew_tree hm
  step s l t hs h := by
    obtain ⟨hr, h⟩ := h
    rw [hr]
    cases l with
    | map v p f => exact (map_spec hs (pml3Index_lt v) h).1.tree
    | other => exact h.tree hs

/-- **Map and translate.** In every table that the manager has built, mapping
`v` to a page makes `v` translate to it and leaves the translation of every
other virtual page as it was. -/
theorem map_translate {s : Table σ} (hs : (tableLTS P).Reachable s) {v p f : Nat}
    (hp : p % PAGE = 0) (hlt : p < 2 ^ 52) (h : map P s.machine s.root v p f = some m') :
    translateToPhysical P m' s.root v = p ∧
      ∀ v', vpn v' ≠ vpn v →
        translateToPhysical P m' s.root v' = translateToPhysical P s.machine s.root v' := by
  have ht := (table_inductive P).reachable hs
  obtain ⟨hg, hself, hother⟩ := map_spec ht (pml3Index_lt v) h
  refine ⟨?_, fun v' hne => ?_⟩
  · rw [translateToPhysical_eq hg.tree (pml3Index_lt v), hself, if_pos (present_mapped _ _ _),
      getAddress_setAddress _ hp hlt]
  · rw [translateToPhysical_eq hg.tree (pml3Index_lt v'),
      translateToPhysical_eq ht (pml3Index_lt v'), hother v' (pml3Index_lt v') hne]

/-- A direct map of 64 pages at the usual offset. -/
def smallSource : PageSource Nat :=
  bumpSource 0xFFFF800000000000 64 hhdm_aligned pages64_physical pages64_end

def smallTable : Table Nat :=
  match archTableManagerNew smallSource ⟨fun _ => 0xAA, 0⟩ with
  | some (root, machine) => ⟨root, machine⟩
  | none => ⟨0, ⟨fun _ => 0, 0⟩⟩

theorem smallTable_reachable : (tableLTS smallSource).Reachable smallTable :=
  .init ⟨⟨fun _ => 0xAA, 0⟩, rfl⟩

theorem map_translate_small :
    ∃ m', map smallSource smallTable.machine smallTable.root 0x400123 0x5000 6 = some m' ∧
      translateToPhysical smallSource m' smallTable.root 0x400123 = 0x5000 := by
  obtain ⟨m', h⟩ := Option.isSome_iff_exists.mp
    (show (map smallSource smallTable.machine smallTable.root 0x400123 0x5000 6).isSome by rfl)
  exact ⟨m', h, (map_translate smallTable_reachable (by decide) (by decide) h).1⟩

end GaOS.L2.TableManager
