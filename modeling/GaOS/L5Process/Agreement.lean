import GaOS.L2Paging.Shared
import GaOS.L3Heap.BlockAllocator
import GaOS.L5Process.KernelHalf

/-!
# The kernel's half of all address spaces

The bootstrap table and the tables of the tasks. `Spaces` is what they have in
common: an entry of the upper half that a task has leads to the same layer as in the
bootstrap table, and below an entry that a task does not have the bootstrap table
maps nothing. Then all of them translate an address of the kernel's half alike
(`Spaces.agree`).

What the kernel does to one table goes down to a page (`Spaces.along`) or leaves all
of them alone (`Spaces.untouched`). Two things can go wrong: the bootstrap table gets
a page below an entry that some task does not have, or a task gets one below an entry
that the bootstrap table does not have.
-/
namespace GaOS.L5.Agreement

open GaOS.L1 GaOS.L1.PageAllocator GaOS.L2 GaOS.L2.TableManager GaOS.L3 GaOS.L4.Ustar GaOS.L5.Elf
open GaOS.L5.Fork (copyHigherHalf copyHigherHalf_spec untouched_fill)

variable {σ : Type} {P : PageSource σ} {boot r v : Nat} {tables : List Nat} {m m₁ m' : Machine σ}

structure Spaces (P : PageSource σ) (boot : Nat) (tables : List Nat) (m : Machine σ) : Prop where
  fresh : boot ∉ tables
  tree : ∀ r ∈ boot :: tables, Tree P 512 m r
  apart : ∀ r ∈ boot :: tables, ∀ r' ∈ boot :: tables, r ≠ r' → Apart P r r' m
  same : ∀ t ∈ tables, ∀ i a, 0x100 ≤ i → i < 512 → walk P.hhdm m.mem t [i] = some a →
    walk P.hhdm m.mem boot [i] = some a
  silent : ∀ t ∈ tables, ∀ v, 0x100 ≤ pml3Index v → walk P.hhdm m.mem t [pml3Index v] = none →
    translateToPhysical P m boot v = 0

/-- The entries for the upper half of the tasks' tables lead where they led. -/
def Tops (P : PageSource σ) (tables : List Nat) (m m' : Machine σ) : Prop :=
  ∀ t ∈ tables, ∀ i, 0x100 ≤ i → i < 512 →
    walk P.hhdm m'.mem t [i] = walk P.hhdm m.mem t [i]

theorem Tops.trans (h : Tops P tables m m₁) (h' : Tops P tables m₁ m') : Tops P tables m m' :=
  fun t ht i hi hlt => (h' t ht i hi hlt).trans (h t ht i hi hlt)

theorem valid_top {i : Nat} (hi : i < 512) : Valid 512 [i] :=
  ⟨by simp, by simpa using hi, by simpa using hi⟩

/-- Nothing is mapped below an entry that is not there. -/
theorem leafEntry_of_top (h : walk P.hhdm m.mem r [pml3Index v] = none) :
    leafEntry P.hhdm m.mem r v = 0 := by
  have hn : nextLayer P.hhdm m.mem r (pml3Index v) = none := by
    simpa [walk] using h
  simp [leafEntry, leafPath, walk, hn]

theorem translate_of_top (ht : Tree P 512 m r) (h : walk P.hhdm m.mem r [pml3Index v] = none) :
    translateToPhysical P m r v = 0 := by
  rw [translateToPhysical_eq ht (pml3Index_lt v), leafEntry_of_top h, if_neg not_present_zero]

theorem translate_congr (ht : Tree P 512 m r) (ht' : Tree P 512 m' r)
    (h : leafEntry P.hhdm m'.mem r v = leafEntry P.hhdm m.mem r v) :
    translateToPhysical P m' r v = translateToPhysical P m r v := by
  rw [translateToPhysical_eq ht (pml3Index_lt v), translateToPhysical_eq ht' (pml3Index_lt v), h]

theorem Spaces.kernel (h : Spaces P boot tables m) : Tree P 512 m boot :=
  h.tree boot (List.mem_cons_self ..)

/-- **The tables agree.** -/
theorem Spaces.agree (h : Spaces P boot tables m) {t : Nat} (ht : t ∈ tables)
    (hv : 0x100 ≤ pml3Index v) :
    translateToPhysical P m t v = translateToPhysical P m boot v := by
  have htree := h.tree t (List.mem_cons_of_mem _ ht)
  cases hw : walk P.hhdm m.mem t [pml3Index v] with
  | none => rw [h.silent t ht v hv hw, translate_of_top htree hw]
  | some a =>
    have hb := h.same t ht _ a hv (pml3Index_lt v) hw
    have hleaf : leafEntry P.hhdm m.mem t v = leafEntry P.hhdm m.mem boot v := by
      simp only [leafEntry, leafPath, walk_cons_of_first hw, walk_cons_of_first hb]
    rw [translateToPhysical_eq htree (pml3Index_lt v),
      translateToPhysical_eq h.kernel (pml3Index_lt v), hleaf]

theorem Spaces.top (h : Spaces P boot tables m) (hr : r ∈ boot :: tables) {i a : Nat}
    (hi : 0x100 ≤ i) (hlt : i < 512) (hw : walk P.hhdm m.mem r [i] = some a) :
    walk P.hhdm m.mem boot [i] = some a := by
  rcases List.mem_cons.mp hr with rfl | hr
  · exact hw
  · exact h.same r hr i a hi hlt hw

/-! ## Steps -/

/-- Work away from the tables. -/
theorem Spaces.untouched (h : Spaces P boot tables m)
    (hu : ∀ r ∈ boot :: tables, Untouched P 512 r m m') :
    Spaces P boot tables m' ∧ Tops P tables m m' := by
  have htop : Tops P tables m m' := fun t ht i _ hlt =>
    (hu t (List.mem_cons_of_mem _ ht)).walk (valid_top hlt)
  have hb := hu boot (List.mem_cons_self ..)
  refine ⟨⟨h.fresh, fun r hr => (hu r hr).tree (h.tree r hr), fun r hr r' hr' hne => ?_,
    fun t ht i a hi hlt hw => ?_, fun t ht v hv hw => ?_⟩, htop⟩
  · intro p q a hp hq hw hw'
    rw [(hu r hr).walk hp] at hw
    rw [(hu r' hr').walk hq] at hw'
    exact h.apart r hr r' hr' hne p q a hp hq hw hw'
  · rw [htop t ht i hi hlt] at hw
    rw [hb.walk (valid_top hlt)]
    exact h.same t ht i a hi hlt hw
  · rw [htop t ht _ hv (pml3Index_lt v)] at hw
    rw [translate_congr h.kernel (hb.tree h.kernel) (hb.leafEntry (pml3Index_lt v))]
    exact h.silent t ht v hv hw

/-- A call goes down to `v` from one of the tables. -/
theorem Spaces.follows (h : Spaces P boot tables m) (hr : r ∈ boot :: tables)
    (ha : Along P r v m m')
    (hown : r ≠ boot → 0x100 ≤ pml3Index v → walk P.hhdm m.mem r [pml3Index v] ≠ none) :
    ∀ r' ∈ boot :: tables, Follows P r r' m m' := by
  intro r' hr'
  by_cases he : r' = r
  · rw [he]
    exact ha.self
  refine ha.follows (h.tree r' hr') (h.apart r hr r' hr' (Ne.symm he)) fun c hi hc => ?_
  have hboot := h.top hr' hi (pml3Index_lt v) hc
  by_cases hrb : r = boot
  · rw [hrb]
    exact hboot
  · obtain ⟨d, hd⟩ := Option.ne_none_iff_exists'.mp (hown hrb hi)
    have hboot' := h.top hr hi (pml3Index_lt v) hd
    rw [hboot] at hboot'
    rw [hd, hboot']

/-- A call from one of the tables keeps what they share. A task's table must have the first
entry on the way, and when a leaf of the upper half changes all of them must. -/
theorem Spaces.along (h : Spaces P boot tables m) (hr : r ∈ boot :: tables)
    (ha : Along P r v m m')
    (hleaf : ∀ v', vpn v' ≠ vpn v →
      leafEntry P.hhdm m'.mem r v' = leafEntry P.hhdm m.mem r v')
    (hown : r ≠ boot → 0x100 ≤ pml3Index v → walk P.hhdm m.mem r [pml3Index v] ≠ none)
    (hall : leafEntry P.hhdm m'.mem r v = leafEntry P.hhdm m.mem r v ∨
      (0x100 ≤ pml3Index v → ∀ t ∈ tables, walk P.hhdm m.mem t [pml3Index v] ≠ none)) :
    Spaces P boot tables m' ∧ Tops P tables m m' := by
  have hrt := h.tree r hr
  have hb := List.mem_cons_self (a := boot) (l := tables)
  have hf := h.follows hr ha hown
  -- the entries of the upper half of the tasks' tables
  have htop : Tops P tables m m' := by
    intro t ht i hi hlt
    have hmem := List.mem_cons_of_mem boot ht
    by_cases he : t = r
    · by_cases hpre : [i] <+: leafPath v
      · obtain rfl : i = pml3Index v := by
          obtain ⟨rest, hrest⟩ := hpre
          exact (List.cons.inj hrest).1
        have hne : r ≠ boot := fun hb => h.fresh (hb ▸ he ▸ ht)
        obtain ⟨d, hd⟩ := Option.ne_none_iff_exists'.mp (hown hne hi)
        rw [he, hd]
        exact ha.grows.kept _ d (valid_top hlt) hd
      · rw [he]
        exact ha.walks _ (valid_top hlt) hpre
    · rw [walk, walk, nextLayer_congr ((hf t hmem).root he i hlt)]
      rfl
  have htree : ∀ r' ∈ boot :: tables, Tree P 512 m' r' := fun r' hr' =>
    (hf r' hr').tree ha.grows (h.tree r' hr')
  refine ⟨⟨h.fresh, htree, fun r₁ h₁ r₂ h₂ hne => ?_, fun t ht i a hi hlt hw => ?_,
    fun t ht v' hv' hw => ?_⟩, htop⟩
  · exact (hf r₁ h₁).apart ha.grows (hf r₂ h₂) (h.tree r₁ h₁) (h.tree r₂ h₂) hne
      (h.apart r₁ h₁ r₂ h₂ hne)
  · rw [htop t ht i hi hlt] at hw
    exact (hf boot hb).kept _ a (valid_top hlt) (h.same t ht i a hi hlt hw)
  · rw [htop t ht _ hv' (pml3Index_lt v')] at hw
    rw [← h.silent t ht v' hv' hw]
    refine translate_congr h.kernel (htree boot hb) ((hf boot hb).leafEntry ha.grows hrt ?_)
    by_cases he : vpn v' = vpn v
    · rcases hall with hsame | hall
      · rw [leafEntry_congr _ _ he, leafEntry_congr _ _ he]
        exact hsame
      · have hi : pml3Index v' = pml3Index v := by rw [pml3Index_eq, pml3Index_eq, he]
        rw [hi] at hv' hw
        exact absurd hw (hall hv' t ht)
    · exact hleaf v' he

/-! ## Calls of the table manager -/

/-- A page is mapped in one of the tables. -/
theorem Spaces.map {p f : Nat} (h : Spaces P boot tables m) (hr : r ∈ boot :: tables)
    (hm : TableManager.map P m r v p f = some m')
    (hown : r ≠ boot → 0x100 ≤ pml3Index v → walk P.hhdm m.mem r [pml3Index v] ≠ none)
    (hall : 0x100 ≤ pml3Index v → ∀ t ∈ tables, walk P.hhdm m.mem t [pml3Index v] ≠ none) :
    Spaces P boot tables m' ∧ Tops P tables m m' :=
  h.along hr (map_along (h.tree r hr) hm)
    (fun v' => (map_spec (h.tree r hr) (pml3Index_lt v) hm).2.2 v' (pml3Index_lt v')) hown (.inr hall)

/-- Layers of the bootstrap table are no concern of the tasks. -/
theorem Spaces.descend {f a : Nat} (h : Spaces P boot tables m)
    (hd : TableManager.descend P m boot v f = some (a, m')) :
    Spaces P boot tables m' ∧ Tops P tables m m' := by
  have hleaf := (descend_spec h.kernel (pml3Index_lt v) hd).2.2
  exact h.along (List.mem_cons_self ..) (descend_along h.kernel hd)
    (fun v' _ => hleaf v' (pml3Index_lt v')) (fun hn => absurd rfl hn)
    (.inl (hleaf v (pml3Index_lt v)))

/-- The tasks have the entries for the pages from `k` on. -/
def Covered (P : PageSource σ) (tables : List Nat) (m : Machine σ) (v k n : Nat) : Prop :=
  ∀ j, k ≤ j → j < k + n → 0x100 ≤ pml3Index (pageAfter v j) →
    ∀ t ∈ tables, walk P.hhdm m.mem t [pml3Index (pageAfter v j)] ≠ none

theorem Covered.tops {k n : Nat} (h : Covered P tables m v k n) (ht : Tops P tables m m') :
    Covered P tables m' v k n := by
  intro j h1 h2 hi t hmem
  rw [ht t hmem _ hi (pml3Index_lt _)]
  exact h j h1 h2 hi t hmem

theorem Spaces.mapEach {p f : Nat} : ∀ (n k : Nat) (m : Machine σ), Spaces P boot tables m →
    Covered P tables m v k n → TableManager.mapEach P boot v p f n k m = some m' →
    Spaces P boot tables m' ∧ Tops P tables m m' := by
  intro n
  induction n with
  | zero =>
    intro k m h _ hm
    cases hm
    exact ⟨h, fun _ _ _ _ _ => rfl⟩
  | succ n ih =>
    intro k m h hc hm
    rw [TableManager.mapEach, Option.bind_eq_some_iff] at hm
    obtain ⟨m₁, h1, h2⟩ := hm
    obtain ⟨hs, ht⟩ := h.map (List.mem_cons_self ..) h1 (fun hn => absurd rfl hn)
      (hc k (Nat.le_refl _) (by omega))
    obtain ⟨hs', ht'⟩ := ih (k + 1) m₁ hs
      (fun j hj hlt => hc.tops ht j (by omega) (by omega)) h2
    exact ⟨hs', ht.trans ht'⟩

/-- A range of no pages is mapped in the bootstrap table. -/
theorem Spaces.mapNone {p f : Nat} (h : Spaces P boot tables m)
    (hm : TableManager.mapRange P m boot v p f 0 = some m') :
    Spaces P boot tables m' ∧ Tops P tables m m' := by
  rw [mapRange_zero, Option.map_eq_some_iff] at hm
  obtain ⟨⟨l, m₁⟩, hd, rfl⟩ := hm
  have hd' : TableManager.descend P m boot v f = some (l.pml1, m₁) := by
    rw [descend_eq, hd]
    rfl
  exact h.descend hd'

/-- A range is mapped in the bootstrap table. -/
theorem Spaces.mapRange {p f count : Nat} (h : Spaces P boot tables m) (hr : RangeOk v count)
    (hc : Covered P tables m v 0 count)
    (hm : TableManager.mapRange P m boot v p f count = some m') :
    Spaces P boot tables m' ∧ Tops P tables m m' := by
  rw [mapRange_eq h.kernel hr.vpn, mapEachTrail, Option.bind_eq_some_iff] at hm
  obtain ⟨m₁, h1, hm⟩ := hm
  rw [Option.map_eq_some_iff] at hm
  obtain ⟨⟨l, m₂⟩, hd, rfl⟩ := hm
  obtain ⟨hs, ht⟩ := Spaces.mapEach count 0 m h hc h1
  have hd' : TableManager.descend P m₁ boot (trail v count) f = some (l.pml1, m₂) := by
    rw [descend_eq, hd]
    rfl
  obtain ⟨hs', ht'⟩ := hs.descend hd'
  exact ⟨hs', ht.trans ht'⟩

/-! ## Pages -/

theorem Spaces.allocate {n a : Nat} (h : Spaces P boot tables m) (hn : n < 2 ^ 64)
    (ha : m.pageAllocate P n = some (a, m')) : Spaces P boot tables m' ∧ Tops P tables m m' :=
  h.untouched fun r hr => untouched_allocate (h.tree r hr) hn ha

/-! ## A new address space -/

/-- The new table has what the bootstrap table has at this moment. -/
theorem Spaces.new {table : Nat} (h : Spaces P boot tables m)
    (hnew : archTableManagerNew P m = some (table, m₁)) :
    Spaces P boot (table :: tables) (copyHigherHalf table boot 0x100 m₁) ∧
      Tops P tables m (copyHigherHalf table boot 0x100 m₁) := by
  have hb := h.kernel
  have hfree := free_of_grant (Machine.pageAllocate_spec hnew).1
  have hshares := new_shares hb hnew
  obtain ⟨hold, htops⟩ := h.untouched fun r hr => new_untouched_other hb hnew (h.tree r hr)
  have hwalk : ∀ i p, Valid 512 (i :: p) → 0x100 ≤ i →
      walk P.hhdm (copyHigherHalf table boot 0x100 m₁).mem table (i :: p) =
        walk P.hhdm (copyHigherHalf table boot 0x100 m₁).mem boot (i :: p) := by
    intro i p hp hi
    rw [new_walk hb hnew hp, if_neg (by omega)]
  -- the page of the table was free
  have hother : ∀ r ∈ boot :: tables, ∀ q, Valid 512 q →
      walk P.hhdm (copyHigherHalf table boot 0x100 m₁).mem r q ≠ some table := by
    intro r hr q hq hw
    rw [(new_untouched_other hb hnew (h.tree r hr)).walk hq] at hw
    exact ((h.tree r hr).layer q table hq hw).taken hfree
  have hne : table ≠ boot := fun he => hother boot (List.mem_cons_self ..) [] .nil (by rw [he, walk])
  have hapart : ∀ r ∈ boot :: tables, Apart P table r (copyHigherHalf table boot 0x100 m₁) := by
    intro r hr p q a hp hq hw hw'
    by_cases hrb : r = boot
    · rw [hrb] at hw'
      exact hshares.apart p q a hp hq hw hw'
    cases p with
    | nil =>
      cases hw
      exact absurd hw' (hother r hr q hq)
    | cons i p =>
      rw [new_walk hb hnew hp] at hw
      split at hw
      · cases hw
      · exact hold.apart boot (List.mem_cons_self ..) r hr (Ne.symm hrb) _ q a hp hq hw hw'
  have hroots : ∀ r, r ∈ boot :: table :: tables → r = table ∨ r ∈ boot :: tables := by
    intro r hr
    simp only [List.mem_cons] at hr ⊢
    tauto
  refine ⟨⟨?_, fun r hr => ?_, fun r hr r' hr' hn => ?_, fun t ht i a hi hlt hw => ?_,
    fun t ht v hv hw => ?_⟩, htops⟩
  · simp only [List.mem_cons, not_or]
    exact ⟨Ne.symm hne, h.fresh⟩
  · rcases hroots r hr with rfl | hr
    · exact hshares.tree
    · exact hold.tree r hr
  · rcases hroots r hr with rfl | hr
    · rcases hroots r' hr' with rfl | hr'
      · exact absurd rfl hn
      · exact hapart r' hr'
    · rcases hroots r' hr' with he | hr'
      · rw [he]
        exact (hapart r hr).symm
      · exact hold.apart r hr r' hr' hn
  · rcases List.mem_cons.mp ht with rfl | ht
    · rw [← hwalk i [] (valid_top hlt) hi]
      exact hw
    · exact hold.same t ht i a hi hlt hw
  · rcases List.mem_cons.mp ht with rfl | ht
    · rw [hwalk _ [] (valid_top (pml3Index_lt v)) hv] at hw
      exact translate_of_top hold.kernel hw
    · exact hold.silent t ht v hv hw

/-- **Placing a page** of the lower half, or one of the upper half below an entry that
all tables have. -/
theorem Spaces.places {table : Nat} {l : Placed} (h : Spaces P boot tables m)
    (ht : table ∈ tables) (hs : Places P table m l m')
    (hall : 0x100 ≤ pml3Index l.address →
      ∀ t ∈ tables, walk P.hhdm m.mem t [pml3Index l.address] ≠ none) :
    Spaces P boot tables m' ∧ Tops P tables m m' := by
  obtain ⟨m₁, m₂, page, f, st⟩ := hs.stages
  have hmem := List.mem_cons_of_mem boot ht
  obtain ⟨h₁, ht₁⟩ := h.untouched fun r hr => st.first (h.tree r hr)
  have hall₁ : 0x100 ≤ pml3Index l.address →
      ∀ t ∈ tables, walk P.hhdm m₁.mem t [pml3Index l.address] ≠ none := by
    intro hi t ht
    rw [ht₁ t ht _ hi (pml3Index_lt _)]
    exact hall hi t ht
  have hown := fun (_ : table ≠ boot) hi => hall₁ hi table ht
  have hf := h₁.follows hmem (map_along (h₁.tree table hmem) st.mapped) hown
  obtain ⟨h₂, ht₂⟩ := h₁.map hmem st.mapped hown hall₁
  -- the page itself is no layer, and only it is written to
  have hpage : ∀ r ∈ boot :: tables, Untouched P 512 r m₂ m' := by
    intro r hr
    refine st.last (h₂.tree r hr) fun p hp hw => ?_
    rcases (hf r hr).origin p page hp hw with hold | ⟨hfree, -, -⟩
    · exact st.no_layer (h.tree r hr) hp hold
    · exact st.taken hfree
  obtain ⟨h₃, ht₃⟩ := h₂.untouched hpage
  exact ⟨h₃, (ht₁.trans ht₂).trans ht₃⟩

theorem Spaces.load_run {table : Nat} {ls : List Placed} (h : Spaces P boot tables m)
    (ht : table ∈ tables) (hr : (loadLTS P boot table).Run m ls m')
    (hall : ∀ l ∈ ls, 0x100 ≤ pml3Index l.address →
      ∀ t ∈ tables, walk P.hhdm m.mem t [pml3Index l.address] ≠ none) :
    Spaces P boot tables m' := by
  induction hr with
  | nil m => exact h
  | @cons m m₁ m' l ls hs _ ih =>
    obtain ⟨hl, hls⟩ := List.forall_mem_cons.mp hall
    obtain ⟨h₁, htops⟩ := h.places ht hs hl
    refine ih h₁ fun l' hl' hi t ht => ?_
    rw [htops t ht _ hi (pml3Index_lt _)]
    exact hls l' hl' hi t ht

/-! ## Loading an executable -/

/-- The segments of a file as the two passes over its headers see them. -/
def programHeaders (node : Node) (header : Ehdr) (buffer : Buffer) :
    Option (List Phdr × List Phdr) := do
  let (buffer, hs₁) ← headers node header.phoff header.phnum buffer
  let (_, hs₂) ← headers node header.phoff header.phnum buffer
  return (loadable hs₁, loadable hs₂)

/-- The addresses that are mapped: the pages of the segments and the stack. -/
def loadedAddresses (segments : List Phdr × List Phdr) : List Nat :=
  (segments.2.flatMap pagesOf).map (fun (h, i) => add64 h.vaddr i) ++
    [sub64 (lowest segments.1) PAGE]

theorem Spaces.loadImage {node : Node} {header : Ehdr} {buffer : Buffer} {table stackBase : Nat}
    (h : Spaces P boot tables m)
    (hl : Elf.loadImage P node header boot buffer m = some (table, stackBase, m'))
    (hall : ∀ segments, programHeaders node header buffer = some segments →
      ∀ v ∈ loadedAddresses segments, 0x100 ≤ pml3Index v →
        ∀ r ∈ boot :: tables, walk P.hhdm m.mem r [pml3Index v] ≠ none) :
    Spaces P boot (table :: tables) m' := by
  obtain ⟨m₁, b₁, b₂, hs₁, hs₂, hnew, hh₁, hh₂, hbase, -, hr⟩ := loadImage_run hl
  have hseg : programHeaders node header buffer = some (loadable hs₁, loadable hs₂) := by
    rw [programHeaders, hh₁]
    simp only [Option.bind_eq_bind, Option.bind_some, hh₂]
    rfl
  obtain ⟨h₁, htops⟩ := h.new hnew
  refine h₁.load_run (List.mem_cons_self ..) hr fun l hmem hi t ht => ?_
  have hmapped : l.address ∈ loadedAddresses (loadable hs₁, loadable hs₂) := by
    simp only [List.mem_append, List.mem_map, List.mem_singleton] at hmem
    simp only [loadedAddresses, List.mem_append, List.mem_map, List.mem_singleton]
    rcases hmem with ⟨page, hpage, rfl⟩ | rfl
    · exact .inl ⟨page, hpage, rfl⟩
    · exact .inr hbase
  have hold := hall _ hseg l.address hmapped hi
  have hvalid := valid_top (pml3Index_lt l.address)
  rcases List.mem_cons.mp ht with rfl | ht
  · rw [new_walk h.kernel hnew hvalid, if_neg (by omega),
      (new_untouched h.kernel hnew).walk hvalid]
    exact hold boot (List.mem_cons_self ..)
  · rw [htops t ht _ hi (pml3Index_lt _)]
    exact hold t (List.mem_cons_of_mem _ ht)

/-! ## Fork -/

section
variable {parent child : Nat}

/-- One page of the clone. -/
theorem Spaces.cloneFrame {e4 : Nat} (h : Spaces P boot (child :: tables) m)
    (hv : pml3Index v < 0x100) (hs : Fork.cloneFrame P child v e4 m = some m') :
    Spaces P boot (child :: tables) m' := by
  simp only [Fork.cloneFrame, Option.bind_eq_bind, Option.bind_eq_some_iff, Prod.exists] at hs
  obtain ⟨a, m₁, ha, hmap⟩ := hs
  obtain ⟨hg, hmem⟩ := Machine.pageAllocate_spec ha
  have hfill : ∀ r ∈ boot :: child :: tables,
      Untouched P 512 r m ⟨m₁.mem.copy a (Fork.target P e4) PAGE, m₁.src⟩ := by
    intro r hr
    refine untouched_fill (h.tree r hr) hg.aligned (free_of_grant hg) hg.kept fun x hx => ?_
    simp only [Mem.copy_out _ hx, hmem, Mem.zero_out _ hx]
  obtain ⟨h₁, -⟩ := h.untouched hfill
  exact (h₁.map (List.mem_cons_of_mem _ (List.mem_cons_self ..)) hmap (fun _ hi => by omega)
    fun hi => by omega).1

/-- What every round keeps, a loop over the entries of a layer keeps. -/
theorem forPresent_keeps {I : Machine σ → Prop} {layer n : Nat}
    {body : Nat → Nat → Machine σ → Option (Machine σ)}
    (hbody : ∀ i e t t', i < n → I t → body i e t = some t' → I t') (h : I m)
    (hs : Fork.forPresent layer n body m = some m') : I m' := by
  refine forUpto_inv (I := fun _ => I) hs h fun i t t' hi ht hb => ?_
  simp only at hb
  split at hb
  · exact hbody i _ t t' hi ht hb
  · cases hb
    exact ht

theorem Spaces.cloneLowerHalf (h : Spaces P boot (child :: tables) m)
    (hs : Fork.cloneLowerHalf P parent child m = some m') :
    Spaces P boot (child :: tables) m' := by
  refine forPresent_keeps (fun i1 e1 t1 t1' h1 ht1 hb1 => ?_) h hs
  refine forPresent_keeps (fun i2 e2 t2 t2' h2 ht2 hb2 => ?_) ht1 hb1
  refine forPresent_keeps (fun i3 e3 t3 t3' h3 ht3 hb3 => ?_) ht2 hb2
  refine forPresent_keeps (fun i4 e4 t4 t4' h4 ht4 hb4 => ?_) ht3 hb3
  refine ht4.cloneFrame ?_ hb4
  rw [Fork.rebuilt_address h2 h3 h4, pml3Index_eq, vpn]
  omega

/-- A child has what the bootstrap table has at this moment. -/
theorem Spaces.fork {cr3 cr3' : Nat} (h : Spaces P boot tables m)
    (hf : Fork.sysForkAddressSpace P boot cr3 m = some (cr3', m')) :
    Spaces P boot (add64 cr3' P.hhdm :: tables) m' := by
  simp only [Fork.sysForkAddressSpace, Option.bind_eq_bind, Option.bind_eq_some_iff, Prod.exists,
    Option.pure_def, Option.some.injEq, Prod.mk.injEq] at hf
  obtain ⟨child, m₁, hnew, m₂, hclone, rfl, rfl⟩ := hf
  have hs := (h.new hnew).1.cloneLowerHalf hclone
  have hlayer := (hs.tree child (by simp)).layer [] child .nil rfl
  rw [hlayer.physicalAddress.2.2]
  exact hs

end

/-! ## The kernel -/

open GaOS.L3.BlockAllocator

/-- The bootstrap table, the tables of the tasks, and the heap with its machine. -/
structure Kernel (σ : Type) where
  boot : Nat
  tables : List Nat
  heap : Heap σ

def Kernel.machine (s : Kernel σ) : Machine σ := s.heap.machine

def Kernel.become (s : Kernel σ) (tables : List Nat) (m : Machine σ) : Kernel σ :=
  { s with tables := tables, heap := { s.heap with machine := m } }

inductive KernelOp where
  /-- of the bootstrap table, while there are no tasks -/
  | map (virtualAddress physicalAddress flags : Nat)
  | mapRange (virtualAddress physicalAddress flags count : Nat)
  /-- `elf_load_from`: a file, its header, and what was on the stack -/
  | load (node : Node) (header : Ehdr) (buffer : Buffer)
  /-- `sys_fork` of the task with this table -/
  | fork (parent : Nat)
  /-- `block_allocator_allocate_block` -/
  | grow (pages : Nat)
  /-- the rest of the kernel, away from the tables -/
  | other

/-- All segments end in the lower half. -/
def LowerSegments (node : Node) (header : Ehdr) (buffer : Buffer) : Prop :=
  ∀ segments, programHeaders node header buffer = some segments →
    ∀ h ∈ segments.2, h.vaddr + h.memsz ≤ 2 ^ 47

/-- The kernel from the creation of the bootstrap table on. The heap starts anywhere
in the upper half. -/
def kernelSpacesLTS (P : PageSource σ) : LTS (Kernel σ) KernelOp where
  init s := s.tables = [] ∧ (∃ m, archTableManagerNew P m = some (s.boot, s.machine)) ∧
    s.heap.currentVirtualAddress % PAGE = 0 ∧
    0xFFFF800000000000 ≤ s.heap.currentVirtualAddress ∧ s.heap.currentVirtualAddress < 2 ^ 64
  step s l t := match l with
    | .map v p f => s.tables = [] ∧ ∃ m', TableManager.map P s.machine s.boot v p f = some m' ∧
        t = s.become [] m'
    | .mapRange v p f count => s.tables = [] ∧
        ∃ m', TableManager.mapRange P s.machine s.boot v p f count = some m' ∧ t = s.become [] m'
    | .load node header buffer => LowerSegments node header buffer ∧ ∃ table stackBase m',
        Elf.loadImage P node header s.boot buffer s.machine = some (table, stackBase, m') ∧
          t = s.become (table :: s.tables) m'
    | .fork parent => parent ∈ s.tables ∧ ∃ cr3 m',
        Fork.sysForkAddressSpace P s.boot (sub64 parent P.hhdm) s.machine = some (cr3, m') ∧
          t = s.become (add64 cr3 P.hhdm :: s.tables) m'
    | .grow pages => ∃ block heap', allocateBlock P s.boot pages s.heap = some (block, heap') ∧
        t = { s with heap := heap' }
    | .other => ∃ m', (∀ r ∈ s.boot :: s.tables, Untouched P 512 r s.machine m') ∧
        t = s.become s.tables m'

/-- What growing the heap does to the tables. -/
theorem Spaces.allocateBlock {pages block : Nat} {heap heap' : Heap σ}
    (h : Spaces P boot tables heap.machine) (hr : BlockAllocator.Room heap pages)
    (ha : BlockAllocator.allocateBlock P boot pages heap = some (block, heap'))
    (hc : Covered P tables heap.machine (alignPage heap.currentVirtualAddress) 0 pages) :
    Spaces P boot tables heap'.machine := by
  simp only [BlockAllocator.allocateBlock, Option.bind_eq_bind, Option.bind_eq_some_iff,
    Prod.exists] at ha
  obtain ⟨page, m₁, hpage, ha⟩ := ha
  split at ha
  · cases ha
  · rw [Option.bind_eq_some_iff] at ha
    obtain ⟨m₂, hmap, ha⟩ := ha
    simp only [Option.pure_def, Option.some.injEq, Prod.mk.injEq] at ha
    obtain ⟨-, rfl⟩ := ha
    have hlt : pages < 2 ^ 64 := by
      have hroom := hr
      simp only [BlockAllocator.Room, RangeOk, PAGE] at hroom
      omega
    obtain ⟨h₁, ht⟩ := h.allocate hlt hpage
    exact (h₁.mapRange hr (hc.tops ht) hmap).1

end GaOS.L5.Agreement
