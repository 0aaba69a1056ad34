import GaOS.L2Paging.Interior

/-!
# Tables that share layers

Two tables are `Apart` when the only layers they have in common are at one place of
the upper half. A call on one of them that goes down to a page (`Along`) reaches the
other one only through such a layer, and then at the same place: `Follows` says what
becomes of any other table. Its walks stay, a new layer of it is a new layer of the
first table, and a word of it that changes is a word of both.
-/
namespace GaOS.L2.TableManager

open GaOS.L1 GaOS.L1.PageAllocator

variable {σ : Type} {P : PageSource σ} {root other v : Nat} {m m₁ m' : Machine σ}

/-! ## Calls that go down to a page -/

/-- What a call that goes down to the last layer for `v` does to the table. -/
structure Along (P : PageSource σ) (root v : Nat) (m m' : Machine σ) : Prop where
  grows : Grows P 512 root m m'
  path : ∀ x, m'.mem x ≠ m.mem x → OnPath P root v m' x
  walks : ∀ p, Valid 512 p → ¬p <+: leafPath v →
    walk P.hhdm m'.mem root p = walk P.hhdm m.mem root p

theorem Along.trans (h : Along P root v m m₁) (h' : Along P root v m₁ m') :
    Along P root v m m' := by
  refine ⟨h.grows.trans h'.grows, fun x hx => ?_, fun p hp hn => ?_⟩
  · by_cases he : m₁.mem x = m.mem x
    · exact h'.path x (he ▸ hx)
    · exact (h.path x he).grows (pml3Index_lt v) h'.grows
  · rw [h'.walks p hp hn, h.walks p hp hn]

theorem allocateNextLayer_along (ht : Tree P 512 m root) {q : List Nat} {i a n f : Nat}
    (hv : q ++ [i] <+: leafPath v) (hq : walk P.hhdm m.mem root q = some a)
    (h : allocateNextLayer P m a i f = some (n, m')) : Along P root v m m' := by
  have hvalid := (valid_leafPath (pml3Index_lt v)).of_isPrefix hv
  obtain ⟨hg, hw⟩ := allocateNextLayer_grows ht hvalid hq h
  refine ⟨hg, fun x hx => ?_, fun p hp hn => ?_⟩
  · rcases allocateNextLayer_path ht hvalid hq h hx with hr | hr
    · exact ⟨q, a, (List.prefix_append ..).trans hv, hg.kept q a hvalid.init hq, hr⟩
    · exact ⟨_, n, hv, hw, hr⟩
  · have hne : p ≠ q ++ [i] := fun he => hn (he ▸ hv)
    rw [allocateNextLayer_walk ht hvalid hq h hp, if_neg hne]

theorem descend_along (ht : Tree P 512 m root) {f a : Nat}
    (h : descend P m root v f = some (a, m')) : Along P root v m m' := by
  obtain ⟨pml3, m₁, pml2, m₂, h1, h2, h3⟩ := descend_some h
  obtain ⟨hv1, hv2, hv3⟩ := valid_prefixes (pml3Index_lt v)
  obtain ⟨g1, w1⟩ := allocateNextLayer_grows ht hv1 rfl h1
  obtain ⟨g2, w2⟩ := allocateNextLayer_grows g1.tree hv2 w1 h2
  have p1 : [] ++ [pml3Index v] <+: leafPath v := ⟨[pml2Index v, pml1Index v], rfl⟩
  have p2 : [pml3Index v] ++ [pml2Index v] <+: leafPath v := ⟨[pml1Index v], rfl⟩
  have a1 : Along P root v m m₁ := allocateNextLayer_along ht p1 rfl h1
  have a2 : Along P root v m₁ m₂ := allocateNextLayer_along g1.tree p2 w1 h2
  exact (a1.trans a2).trans (allocateNextLayer_along g2.tree (List.prefix_refl _) w2 h3)

theorem map_along (ht : Tree P 512 m root) {p f : Nat} (h : map P m root v p f = some m') :
    Along P root v m m' := by
  rw [map_eq, Option.map_eq_some_iff] at h
  obtain ⟨⟨a, m₁⟩, hd, hleaf⟩ := h
  obtain rfl : setLeaf m₁ a (pIndex v) p f = m' := hleaf
  obtain ⟨g1, hw, -⟩ := descend_spec ht (pml3Index_lt v) hd
  refine (descend_along ht hd).trans ⟨(setLeaf_spec g1.tree (pml3Index_lt v) hw).1, fun x hx => ?_,
    fun q hq _ => ?_⟩
  · rw [setLeaf_eq] at hx ⊢
    have he : x = entryAddress a (pIndex v) := by
      by_contra hne
      exact hx (Mem.store_ne _ _ hne)
    have hvalid := valid_leafPath (pml3Index_lt v)
    have hin := entryAddress_mem (g1.tree.layer _ a hvalid hw).toAligned (pIndex_lt v)
    refine ⟨_, a, List.prefix_refl _, ?_, he ▸ hin⟩
    exact (walk_setLeaf g1.tree (pml3Index_lt v) hw hvalid).trans hw
  · rw [setLeaf_eq]
    exact walk_setLeaf g1.tree (pml3Index_lt v) hw hq

/-! ## Another table -/

/-- A layer of both tables is at one place of the upper half. -/
def Apart (P : PageSource σ) (root other : Nat) (m : Machine σ) : Prop :=
  ∀ p q a, Valid 512 p → Valid 512 q → walk P.hhdm m.mem root p = some a →
    walk P.hhdm m.mem other q = some a → p = q ∧ ∃ i t, p = i :: t ∧ 0x100 ≤ i

theorem Apart.symm (h : Apart P root other m) : Apart P other root m := by
  intro p q a hp hq hw hw'
  obtain ⟨rfl, hi⟩ := h q p a hq hp hw' hw
  exact ⟨rfl, hi⟩

/-- What becomes of the table at `other` when a call goes down to `v` from `root`. -/
structure Follows (P : PageSource σ) (root other : Nat) (m m' : Machine σ) : Prop where
  kept : ∀ p a, Valid 512 p → walk P.hhdm m.mem other p = some a →
    walk P.hhdm m'.mem other p = some a
  origin : ∀ p a, Valid 512 p → walk P.hhdm m'.mem other p = some a →
    walk P.hhdm m.mem other p = some a ∨ (P.Free m.src a ∧ walk P.hhdm m'.mem root p = some a ∧
      (other ≠ root → ∃ i t, p = i :: t ∧ 0x100 ≤ i))
  words : ∀ p a j, Valid 512 p → walk P.hhdm m.mem other p = some a → j < 512 →
    m'.mem (entryAddress a j) = m.mem (entryAddress a j) ∨ walk P.hhdm m.mem root p = some a
  root : other ≠ root → ∀ j, j < 512 →
    m'.mem (entryAddress other j) = m.mem (entryAddress other j)

theorem Along.self (h : Along P root v m m') : Follows P root root m m' where
  kept := h.grows.kept
  origin p a hp hw := (h.grows.new p a hp hw).imp_right fun hf => ⟨hf, hw, fun hn => absurd rfl hn⟩
  words _ _ _ _ hw _ := .inr hw
  root hn := absurd rfl hn

/-- Every walk that goes on goes through its first entry. -/
theorem walk_first {hhdm : Nat} {mem : Mem} {a i b : Nat} {t : List Nat}
    (h : walk hhdm mem a (i :: t) = some b) : ∃ c, walk hhdm mem a [i] = some c ∧
      walk hhdm mem c t = some b := by
  rw [walk, Option.bind_eq_some_iff] at h
  obtain ⟨c, hc, h⟩ := h
  exact ⟨c, by rw [walk, hc]; rfl, h⟩

theorem walk_cons_of_first {hhdm : Nat} {mem : Mem} {a i c : Nat}
    (h : walk hhdm mem a [i] = some c) (t : List Nat) :
    walk hhdm mem a (i :: t) = walk hhdm mem c t := by
  rw [walk, Option.bind_eq_some_iff] at h
  obtain ⟨b, hb, h⟩ := h
  cases h
  rw [walk, hb, Option.bind_some]

section
variable (h : Along P root v m m') (ht : Tree P 512 m other) (ha : Apart P root other m)
include h ht ha

/-- A layer of the other table whose words change is below an entry of the upper
half, on the way to `v`. -/
theorem Along.changed {q : List Nat} {b j : Nat} (hq : Valid 512 q)
    (hw : walk P.hhdm m.mem other q = some b) (hj : j < 512)
    (hne : m'.mem (entryAddress b j) ≠ m.mem (entryAddress b j)) :
    walk P.hhdm m.mem root q = some b ∧ 0x100 ≤ pml3Index v ∧
      ∃ t, q = pml3Index v :: t := by
  have hlb := ht.layer q b hq hw
  obtain ⟨t, a, hpre, hwa, h1, h2⟩ := h.path _ hne
  have hvt := (valid_leafPath (pml3Index_lt v)).of_isPrefix hpre
  have hla := h.grows.tree.layer t a hvt hwa
  have hin := entryAddress_mem hlb.toAligned hj
  obtain rfl : a = b := by
    have := hla.page; have := hlb.page
    simp only [PAGE] at *; omega
  rcases h.grows.new t a hvt hwa with hold | hfree
  · obtain ⟨rfl, i, t', rfl, hi⟩ := ha t q a hvt hq hold hw
    obtain ⟨rest, hrest⟩ := hpre
    obtain rfl : i = pml3Index v := (List.cons.inj hrest).1
    exact ⟨hold, hi, t', rfl⟩
  · exact absurd hfree hlb.taken

/-- Nothing happens to a table that does not have the first entry on the way. -/
theorem Along.untouched
    (hn : 0x100 ≤ pml3Index v → walk P.hhdm m.mem other [pml3Index v] = none) :
    Untouched P 512 other m m' := by
  intro q b hq hw
  refine ⟨fun j hj _ => ?_, fun hf => (ht.layer q b hq hw).taken (h.grows.free b hf)⟩
  by_contra hne
  obtain ⟨-, hi, t, rfl⟩ := h.changed ht ha hq hw hj hne
  obtain ⟨c, hc, -⟩ := walk_first hw
  rw [hn hi] at hc
  cases hc

theorem Along.follows
    (hshare : ∀ c, 0x100 ≤ pml3Index v → walk P.hhdm m.mem other [pml3Index v] = some c →
      walk P.hhdm m.mem root [pml3Index v] = some c) : Follows P root other m m' := by
  have hvroot : Valid 512 [pml3Index v] := (valid_prefixes (pml3Index_lt v)).1
  have hwords : ∀ q b j, Valid 512 q → walk P.hhdm m.mem other q = some b → j < 512 →
      m'.mem (entryAddress b j) = m.mem (entryAddress b j) ∨ walk P.hhdm m.mem root q = some b :=
    fun q b j hq hw hj => by
      by_cases hne : m'.mem (entryAddress b j) = m.mem (entryAddress b j)
      · exact .inl hne
      · exact .inr (h.changed ht ha hq hw hj hne).1
  have htop : ∀ j, j < 512 → m'.mem (entryAddress other j) = m.mem (entryAddress other j) := by
    intro j hj
    by_contra hne
    obtain ⟨-, -, t, ht⟩ := h.changed ht ha .nil rfl hj hne
    cases ht
  by_cases hc : 0x100 ≤ pml3Index v ∧ (walk P.hhdm m.mem other [pml3Index v]).isSome
  · -- below the shared entry the two tables are one
    obtain ⟨hi, hsome⟩ := hc
    obtain ⟨c, hc⟩ := Option.isSome_iff_exists.mp hsome
    have hcr := hshare c hi hc
    have hcr' := h.grows.kept _ c hvroot hcr
    have hc' : walk P.hhdm m'.mem other [pml3Index v] = some c := by
      rw [← hc, walk, walk, nextLayer_congr (htop _ (pml3Index_lt v))]
      rfl
    have hsame : ∀ t, walk P.hhdm m.mem other (pml3Index v :: t) =
        walk P.hhdm m.mem root (pml3Index v :: t) := fun t => by
      rw [walk_cons_of_first hc, walk_cons_of_first hcr]
    have hsame' : ∀ t, walk P.hhdm m'.mem other (pml3Index v :: t) =
        walk P.hhdm m'.mem root (pml3Index v :: t) := fun t => by
      rw [walk_cons_of_first hc', walk_cons_of_first hcr']
    have haway : ∀ p, Valid 512 p → (∀ t, p ≠ pml3Index v :: t) →
        walk P.hhdm m'.mem other p = walk P.hhdm m.mem other p := by
      intro p hp hn
      refine walk_congr fun q j b hq hb => nextLayer_congr ?_
      have hqj := hp.of_isPrefix hq
      by_contra hne
      obtain ⟨-, -, t, rfl⟩ := h.changed ht ha hqj.init hb hqj.last hne
      obtain ⟨rest, hrest⟩ := hq
      exact hn _ hrest.symm
    refine ⟨fun p a hp hw => ?_, fun p a hp hw => ?_, hwords, fun _ => htop⟩
    · by_cases hp' : ∃ t, p = pml3Index v :: t
      · obtain ⟨t, rfl⟩ := hp'
        rw [hsame] at hw
        rw [hsame']
        exact h.grows.kept _ a hp hw
      · rw [haway p hp fun t he => hp' ⟨t, he⟩]
        exact hw
    · by_cases hp' : ∃ t, p = pml3Index v :: t
      · obtain ⟨t, rfl⟩ := hp'
        rw [hsame'] at hw
        rw [hsame]
        rcases h.grows.new _ a hp hw with hold | hfree
        · exact .inl hold
        · exact .inr ⟨hfree, hw, fun _ => ⟨_, t, rfl, hi⟩⟩
      · rw [haway p hp fun t he => hp' ⟨t, he⟩] at hw
        exact .inl hw
  · have hunt := h.untouched ht ha fun hi => by
      rw [← Option.not_isSome_iff_eq_none]
      exact fun hs => hc ⟨hi, hs⟩
    refine ⟨fun p a hp hw => ?_, fun p a hp hw => .inl ?_, hwords, fun _ => htop⟩
    · rw [hunt.walk hp]; exact hw
    · rw [hunt.walk hp] at hw; exact hw

end

/-! ## All tables -/

section
variable {other' : Nat} (hg : Grows P 512 root m m')
include hg

theorem Follows.tree (hf : Follows P root other m m') (ht : Tree P 512 m other) :
    Tree P 512 m' other := by
  refine ⟨fun p a hp hw => ?_, fun p q a hp hq hw hw' => ?_, fun p a i hp hw hn => ?_⟩
  · rcases hf.origin p a hp hw with hold | ⟨-, hnew, -⟩
    · exact (ht.layer p a hp hold).mono hg.free
    · exact hg.tree.layer p a hp hnew
  · rcases hf.origin p a hp hw with hold | ⟨hfree, hnew, -⟩
    · rcases hf.origin q a hq hw' with hold' | ⟨hfree, -, -⟩
      · exact ht.inj p q a hp hq hold hold'
      · exact absurd hfree (ht.layer p a hp hold).taken
    · rcases hf.origin q a hq hw' with hold' | ⟨-, hnew', -⟩
      · exact absurd hfree (ht.layer q a hq hold').taken
      · exact hg.tree.inj p q a hp hq hnew hnew'
  · rcases hf.origin p a hp.init hw with hold | ⟨-, hnew, -⟩
    · rcases hf.words p a i hp.init hold hp.last with hsame | hroot
      · rw [hsame] at hn ⊢
        exact ht.clear p a i hp hold hn
      · exact hg.tree.clear p a i hp (hg.kept p a hp.init hroot) hn
    · exact hg.tree.clear p a i hp hnew hn

theorem Follows.apart (hf : Follows P root other m m') (hf' : Follows P root other' m m')
    (ht : Tree P 512 m other) (ht' : Tree P 512 m other') (hne : other ≠ other')
    (ha : Apart P other other' m) : Apart P other other' m' := by
  intro p q a hp hq hw hw'
  rcases hf.origin p a hp hw with hold | ⟨hfree, hnew, hhigh⟩
  · rcases hf'.origin q a hq hw' with hold' | ⟨hfree, -, -⟩
    · exact ha p q a hp hq hold hold'
    · exact absurd hfree (ht.layer p a hp hold).taken
  · rcases hf'.origin q a hq hw' with hold' | ⟨-, hnew', hhigh'⟩
    · exact absurd hfree (ht'.layer q a hq hold').taken
    · have hpq := hg.tree.inj p q a hp hq hnew hnew'
      refine ⟨hpq, ?_⟩
      by_cases he : other = root
      · rw [hpq]
        exact hhigh' fun he' => hne (he.trans he'.symm)
      · exact hhigh he

/-- A leaf that stays in the first table stays in the other one. -/
theorem Follows.leafEntry (hf : Follows P root other m m') (hr : Tree P 512 m root) {v' : Nat}
    (hl : TableManager.leafEntry P.hhdm m'.mem root v' = TableManager.leafEntry P.hhdm m.mem root v') :
    TableManager.leafEntry P.hhdm m'.mem other v' = TableManager.leafEntry P.hhdm m.mem other v' := by
  have hv := valid_leafPath (pml3Index_lt v')
  unfold TableManager.leafEntry at hl ⊢
  cases hw : walk P.hhdm m.mem other (leafPath v') with
  | some a =>
    rw [hf.kept _ a hv hw]
    rcases hf.words _ a _ hv hw (pIndex_lt v') with hsame | hroot
    · exact hsame
    · rw [hg.kept _ a hv hroot, hroot] at hl
      exact hl
  | none =>
    cases hw' : walk P.hhdm m'.mem other (leafPath v') with
    | none => rfl
    | some a =>
      rcases hf.origin _ a hv hw' with hold | ⟨hfree, hnew, -⟩
      · rw [hold] at hw
        cases hw
      · -- a new last layer: it was no layer of the first table either
        rw [hnew] at hl
        cases hb : walk P.hhdm m.mem root (leafPath v') with
        | none => rw [hb] at hl; exact hl
        | some b =>
          have hkept := hg.kept _ b hv hb
          rw [hnew] at hkept
          cases hkept
          exact absurd hfree (hr.layer _ a hv hb).taken

end

end GaOS.L2.TableManager
