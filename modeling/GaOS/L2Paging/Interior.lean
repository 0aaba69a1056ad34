import GaOS.L2Paging.Map

/-!
# Which words of a table a mapping touches

`Grows` says that a mapping writes to layers of the table. Here is which ones: the
layers on the way to the page (`map_path`), and what happens to the interior
entries in them. They only gain bits (`map_gains`), a bit that is not among the
flags stays clear everywhere (`map_clears`), and the flags reach the second layer
(`map_second`).
-/
namespace GaOS.L2.TableManager

open GaOS.L1 GaOS.L1.PageAllocator

variable {σ : Type} {P : PageSource σ} {lim root : Nat} {m m' : Machine σ}

/-! ## One layer -/

theorem allocateNextLayer_path (ht : Tree P lim m root) {q : List Nat} {i a n f x : Nat}
    (hv : Valid lim (q ++ [i])) (hq : walk P.hhdm m.mem root q = some a)
    (h : allocateNextLayer P m a i f = some (n, m')) (hx : m'.mem x ≠ m.mem x) :
    (a ≤ x ∧ x < a + PAGE) ∨ (n ≤ x ∧ x < n + PAGE) := by
  obtain ⟨-, hwords, -, -, -⟩ := allocateNextLayer_words ht hv hq h
  by_cases he : x = entryAddress a i
  · have hmem := entryAddress_mem (ht.layer q a hv.init hq).toAligned hv.last
    exact .inl (he ▸ hmem)
  · rcases hwords x he with hsame | ⟨-, h1, h2, -⟩
    · exact absurd hsame hx
    · exact .inr ⟨h1, h2⟩

/-- The entry that is followed gets the flags, and the address of a new layer when
it had none. -/
theorem allocateNextLayer_entry (ht : Tree P lim m root) {q : List Nat} {i a n f : Nat}
    (hv : Valid lim (q ++ [i])) (hq : walk P.hhdm m.mem root q = some a)
    (h : allocateNextLayer P m a i f = some (n, m')) :
    ∃ p, p % PAGE = 0 ∧ m'.mem (entryAddress a i) =
      m.mem (entryAddress a i) ||| (p ||| (f &&& 0xFF) ||| TABLE_ENTRY_PRESENT) := by
  rcases allocateNextLayer_cases (ht.layer q a hv.init hq) hv.last (ht.clear q a i hv hq) h with
    ⟨hpr, -, rfl⟩ | ⟨h0, m₁, hm₁, rfl⟩
  · refine ⟨0, rfl, ?_⟩
    simp only [setEntry, Mem.store_self, Nat.zero_or]
    rw [← Nat.or_assoc, or_present ((present_or _ _).mpr (.inl hpr))]
  · obtain ⟨hg, -⟩ := Machine.pageAllocate_spec hm₁
    refine ⟨_, (layer_of_grant hg).physicalAddress.1, ?_⟩
    simp only [setEntry, Mem.store_self]
    rw [h0, Nat.zero_or, Nat.or_assoc]

/-- Any other entry of the interior is as it was, or in a new layer and zero. -/
theorem allocateNextLayer_interior (ht : Tree P lim m root) {q : List Nat} {i a n f : Nat}
    (hv : Valid lim (q ++ [i])) (hq : walk P.hhdm m.mem root q = some a)
    (h : allocateNextLayer P m a i f = some (n, m')) {p : List Nat} {b j : Nat}
    (hp : Valid lim p) (hj : j < 512) (hb : walk P.hhdm m'.mem root p = some b)
    (hne : ¬(p = q ∧ j = i)) :
    (walk P.hhdm m.mem root p = some b ∧
      m'.mem (entryAddress b j) = m.mem (entryAddress b j)) ∨
      m'.mem (entryAddress b j) = 0 := by
  rw [allocateNextLayer_walk ht hv hq h hp] at hb
  split at hb
  · rename_i hpq
    cases hb
    obtain ⟨-, -, hold, hln, -⟩ := allocateNextLayer_words ht hv hq h
    rcases hold with ho | ⟨-, -, hz⟩
    · rw [← hpq] at ho
      exact .inl ⟨ho, allocateNextLayer_other ht hv hq h hp ho hj hne⟩
    · have hmem := entryAddress_mem hln.toAligned hj
      exact .inr (hz _ hmem.1 hmem.2)
  · exact .inl ⟨hb, allocateNextLayer_other ht hv hq h hp hb hj hne⟩

/-! ## Bits of interior entries -/

/-- Bit `b` is clear in all interior entries. -/
def Clear (P : PageSource σ) (lim root b : Nat) (m : Machine σ) : Prop :=
  ∀ q i a, Valid lim (q ++ [i]) → walk P.hhdm m.mem root q = some a →
    (m.mem (entryAddress a i)).testBit b = false

theorem allocateNextLayer_gains (ht : Tree P lim m root) {q : List Nat} {i a n f : Nat}
    (hv : Valid lim (q ++ [i])) (hq : walk P.hhdm m.mem root q = some a)
    (h : allocateNextLayer P m a i f = some (n, m')) {p : List Nat} {c j b : Nat}
    (hp : Valid lim (p ++ [j])) (hc : walk P.hhdm m.mem root p = some c)
    (hb : (m.mem (entryAddress c j)).testBit b = true) :
    (m'.mem (entryAddress c j)).testBit b = true := by
  by_cases he : p = q ∧ j = i
  · obtain ⟨rfl, rfl⟩ := he
    rw [hq] at hc
    cases hc
    obtain ⟨w, -, hw⟩ := allocateNextLayer_entry ht hv hq h
    rw [hw, Nat.testBit_or, hb, Bool.true_or]
  · rw [allocateNextLayer_other ht hv hq h hp.init hc hp.last he, hb]

theorem testBit_page {p b : Nat} (hp : p % PAGE = 0) (hb : b < 12) : p.testBit b = false := by
  obtain ⟨k, rfl⟩ := Nat.dvd_of_mod_eq_zero hp
  rw [PAGE, show (4096 : Nat) = 2 ^ 12 from rfl, Nat.testBit_two_pow_mul, decide_eq_false (by omega),
    Bool.false_and]

theorem allocateNextLayer_clears (ht : Tree P lim m root) {q : List Nat} {i a n f b : Nat}
    (hv : Valid lim (q ++ [i])) (hq : walk P.hhdm m.mem root q = some a)
    (h : allocateNextLayer P m a i f = some (n, m')) (h0 : 0 < b) (hb : b < 12)
    (hf : f.testBit b = false) (hc : Clear P lim root b m) : Clear P lim root b m' := by
  intro p j c hp hw
  by_cases he : p = q ∧ j = i
  · obtain ⟨rfl, rfl⟩ := he
    have hwalk : walk P.hhdm m'.mem root p = some a := by
      rw [allocateNextLayer_walk ht hv hq h hv.init, if_neg (by simp), hq]
    rw [hwalk] at hw
    cases hw
    obtain ⟨w, hw, hent⟩ := allocateNextLayer_entry ht hv hq h
    have hone : TABLE_ENTRY_PRESENT.testBit b = false := by
      rw [TABLE_ENTRY_PRESENT, Nat.one_shiftLeft, Nat.testBit_two_pow, decide_eq_false (by omega)]
    rw [hent, Nat.testBit_or, Nat.testBit_or, Nat.testBit_or, hc p j a hv hq, testBit_page hw hb,
      Nat.testBit_and, hf, hone]
    rfl
  · rcases allocateNextLayer_interior ht hv hq h hp.init hp.last hw he with ⟨hw', hsame⟩ | hz
    · rw [hsame]; exact hc p j c hp hw'
    · rw [hz, Nat.zero_testBit]

/-! ## The leaf -/

/-- A leaf entry is no interior entry. -/
theorem leaf_ne_interior (ht : Tree P lim m root) {v a : Nat} (hlim : pml3Index v < lim)
    (hw : walk P.hhdm m.mem root (leafPath v) = some a) {q : List Nat} {c j : Nat}
    (hq : Valid lim (q ++ [j])) (hc : walk P.hhdm m.mem root q = some c) :
    entryAddress c j ≠ entryAddress a (pIndex v) := by
  intro he
  have hvl := valid_leafPath hlim
  obtain ⟨rfl, -⟩ := entryAddress_inj (ht.layer q c hq.init hc).toAligned
    (ht.layer _ a hvl hw).toAligned hq.last (pIndex_lt v) he
  have hd := hq.depth
  rw [ht.inj q _ c hq.init hvl hc hw] at hd
  simp [leafPath] at hd

/-! ## A mapping -/

/-- `x` is a word of a layer on the way to `v`. -/
def OnPath (P : PageSource σ) (root v : Nat) (m : Machine σ) (x : Nat) : Prop :=
  ∃ q a, q <+: leafPath v ∧ walk P.hhdm m.mem root q = some a ∧ a ≤ x ∧ x < a + PAGE

theorem OnPath.grows {v x : Nat} (hlim : pml3Index v < lim) (h : OnPath P root v m x)
    (hg : Grows P lim root m m') : OnPath P root v m' x := by
  obtain ⟨q, a, hq, hw, hx⟩ := h
  exact ⟨q, a, hq, hg.kept q a ((valid_leafPath hlim).of_isPrefix hq) hw, hx⟩

/-- The stages of a mapping: three layers, each grown out of the one before, and the
leaf. -/
structure Stages (P : PageSource σ) (lim root v p f : Nat) (m m' : Machine σ) where
  pml3 : Nat
  m₁ : Machine σ
  pml2 : Nat
  m₂ : Machine σ
  pml1 : Nat
  m₃ : Machine σ
  first : allocateNextLayer P m root (pml3Index v) f = some (pml3, m₁)
  second : allocateNextLayer P m₁ pml3 (pml2Index v) f = some (pml2, m₂)
  third : allocateNextLayer P m₂ pml2 (pml1Index v) f = some (pml1, m₃)
  grows₁ : Grows P lim root m m₁
  grows₂ : Grows P lim root m₁ m₂
  grows₃ : Grows P lim root m₂ m₃
  walk₁ : walk P.hhdm m₁.mem root [pml3Index v] = some pml3
  walk₂ : walk P.hhdm m₂.mem root [pml3Index v, pml2Index v] = some pml2
  walk₃ : walk P.hhdm m₃.mem root (leafPath v) = some pml1
  leaf : m' = setLeaf m₃ pml1 (pIndex v) p f
  grows₄ : Grows P lim root m₃ m'

theorem map_stages (ht : Tree P lim m root) {v p f : Nat} (hlim : pml3Index v < lim)
    (h : map P m root v p f = some m') : Nonempty (Stages P lim root v p f m m') := by
  rw [map_eq, Option.map_eq_some_iff] at h
  obtain ⟨⟨a, m₃⟩, hd, rfl⟩ := h
  obtain ⟨pml3, m₁, pml2, m₂, h1, h2, h3⟩ := descend_some hd
  obtain ⟨hv1, hv2, hv3⟩ := valid_prefixes hlim
  obtain ⟨g1, w1⟩ := allocateNextLayer_grows ht hv1 rfl h1
  obtain ⟨g2, w2⟩ := allocateNextLayer_grows g1.tree hv2 w1 h2
  obtain ⟨g3, w3⟩ := allocateNextLayer_grows g2.tree hv3 w2 h3
  exact ⟨⟨pml3, m₁, pml2, m₂, a, m₃, h1, h2, h3, g1, g2, g3, w1, w2, w3, rfl,
    (setLeaf_spec g3.tree hlim w3).1⟩⟩

theorem Stages.out {v p f x : Nat} (s : Stages P lim root v p f m m')
    (hx : x ≠ entryAddress s.pml1 (pIndex v)) : m'.mem x = s.m₃.mem x := by
  have hm : m'.mem x = (setLeaf s.m₃ s.pml1 (pIndex v) p f).mem x := by
    exact congrArg (fun t : Machine σ => t.mem x) s.leaf
  rw [setLeaf_eq] at hm
  exact hm.trans (Mem.store_ne _ _ hx)

section
variable {v p f : Nat} (ht : Tree P lim m root) (hlim : pml3Index v < lim)
  (h : map P m root v p f = some m')

include ht hlim h

/-- A mapping writes to the layers on the way to its page. -/
theorem map_path {x : Nat} (hx : m'.mem x ≠ m.mem x) : OnPath P root v m' x := by
  obtain ⟨s⟩ := map_stages ht hlim h
  obtain ⟨hv1, hv2, hv3⟩ := valid_prefixes hlim
  have g34 := s.grows₃.trans s.grows₄
  by_cases h1 : s.m₁.mem x = m.mem x
  · by_cases h2 : s.m₂.mem x = s.m₁.mem x
    · by_cases h3 : s.m₃.mem x = s.m₂.mem x
      · by_cases he : x = entryAddress s.pml1 (pIndex v)
        · have hvl := valid_leafPath hlim
          have hin := entryAddress_mem (s.grows₃.tree.layer _ _ hvl s.walk₃).toAligned (pIndex_lt v)
          exact .grows hlim ⟨_, _, List.prefix_refl _, s.walk₃, he ▸ hin⟩ s.grows₄
        · refine absurd ?_ hx
          rw [s.out he, h3, h2, h1]
      · rcases allocateNextLayer_path s.grows₂.tree hv3 s.walk₂ s.third h3 with hr | hr
        · exact .grows hlim ⟨_, _, ⟨[pml1Index v], rfl⟩, s.walk₂, hr⟩ g34
        · exact .grows hlim ⟨_, _, List.prefix_refl _, s.walk₃, hr⟩ s.grows₄
    · rcases allocateNextLayer_path s.grows₁.tree hv2 s.walk₁ s.second h2 with hr | hr
      · exact .grows hlim ⟨_, _, ⟨[pml2Index v, pml1Index v], rfl⟩, s.walk₁, hr⟩ (s.grows₂.trans g34)
      · exact .grows hlim ⟨_, _, ⟨[pml1Index v], rfl⟩, s.walk₂, hr⟩ g34
  · rcases allocateNextLayer_path ht hv1 rfl s.first h1 with hr | hr
    · exact ⟨[], root, List.nil_prefix, rfl, hr⟩
    · exact .grows hlim ⟨_, _, ⟨[pml2Index v, pml1Index v], rfl⟩, s.walk₁, hr⟩ (s.grows₂.trans g34)

/-- Interior entries only gain bits. -/
theorem map_gains {q : List Nat} {c j b : Nat} (hq : Valid lim (q ++ [j]))
    (hc : walk P.hhdm m.mem root q = some c) (hb : (m.mem (entryAddress c j)).testBit b = true) :
    (m'.mem (entryAddress c j)).testBit b = true := by
  obtain ⟨s⟩ := map_stages ht hlim h
  obtain ⟨hv1, hv2, hv3⟩ := valid_prefixes hlim
  have c1 := s.grows₁.kept q c hq.init hc
  have c2 := s.grows₂.kept q c hq.init c1
  have c3 := s.grows₃.kept q c hq.init c2
  have b1 := allocateNextLayer_gains ht hv1 rfl s.first hq hc hb
  have b2 := allocateNextLayer_gains s.grows₁.tree hv2 s.walk₁ s.second hq c1 b1
  have b3 := allocateNextLayer_gains s.grows₂.tree hv3 s.walk₂ s.third hq c2 b2
  rw [s.out (leaf_ne_interior s.grows₃.tree hlim s.walk₃ hq c3), b3]

/-- A bit that the flags do not have stays clear. -/
theorem map_clears {b : Nat} (h0 : 0 < b) (hb : b < 12) (hf : f.testBit b = false)
    (hc : Clear P lim root b m) : Clear P lim root b m' := by
  obtain ⟨s⟩ := map_stages ht hlim h
  obtain ⟨hv1, hv2, hv3⟩ := valid_prefixes hlim
  have c1 := allocateNextLayer_clears ht hv1 rfl s.first h0 hb hf hc
  have c2 := allocateNextLayer_clears s.grows₁.tree hv2 s.walk₁ s.second h0 hb hf c1
  have c3 := allocateNextLayer_clears s.grows₂.tree hv3 s.walk₂ s.third h0 hb hf c2
  intro q j c hq hw
  have hw₃ : walk P.hhdm s.m₃.mem root q = some c := by
    rw [s.leaf, setLeaf_eq] at hw
    rw [← walk_setLeaf s.grows₃.tree hlim s.walk₃ hq.init]
    exact hw
  rw [s.out (leaf_ne_interior s.grows₃.tree hlim s.walk₃ hq hw₃)]
  exact c3 q j c hq hw₃

/-- The flags are put into the entry of the second layer. -/
theorem map_second {b c : Nat} (hb : b < 8) (hf : f.testBit b = true)
    (hc : walk P.hhdm m'.mem root [pml3Index v] = some c) :
    (m'.mem (entryAddress c (pml2Index v))).testBit b = true := by
  obtain ⟨s⟩ := map_stages ht hlim h
  obtain ⟨hv1, hv2, hv3⟩ := valid_prefixes hlim
  have w2 := s.grows₂.kept _ _ hv1 s.walk₁
  have w3 := s.grows₃.kept _ _ hv1 w2
  have w4 := s.grows₄.kept _ _ hv1 w3
  rw [List.nil_append, hc] at w4
  cases w4
  obtain ⟨w, -, hent⟩ := allocateNextLayer_entry s.grows₁.tree hv2 s.walk₁ s.second
  have b2 : (s.m₂.mem (entryAddress s.pml3 (pml2Index v))).testBit b = true := by
    have hmask : (0xFF : Nat).testBit b = true := by
      rw [show (0xFF : Nat) = 2 ^ 8 - 1 from rfl, Nat.testBit_two_pow_sub_one, decide_eq_true hb]
    rw [hent, Nat.testBit_or, Nat.testBit_or, Nat.testBit_or, Nat.testBit_and, hf, hmask]
    simp
  have b3 := allocateNextLayer_gains s.grows₂.tree hv3 s.walk₂ s.third hv2 w2 b2
  rw [s.out (leaf_ne_interior s.grows₃.tree hlim s.walk₃ hv2 w3), b3]

end

end GaOS.L2.TableManager
