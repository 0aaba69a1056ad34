import Mathlib.Data.List.Induction
import GaOS.L2Paging.Entry

/-!
# The tree that a page table is in memory

`walk` follows a path of indices from the root layer. `Tree` is the invariant
that makes the four layers a tree: every layer on a valid path is a page that
the page source has handed out, two paths never lead to the same layer, and an
interior entry that is not present is zero. `lim` bounds the root's index: 512
for a whole table, 256 for the lower half of a process's table (the upper half
is shared with the bootstrap table).

`allocateNextLayer_grows` is the one place where `allocate_next_layer` is
opened: the walks it changes, and that the tree stays one. Everything that the
manager does to a table is then a `Grows`: layers are kept, new ones come out
of the free pages, and only words of the table's own layers change.
-/
namespace GaOS.L2.TableManager

open GaOS.L1 GaOS.L1.PageAllocator

/-! ## Paths -/

/-- The layer that entry `index` of `layer` leads to. -/
def nextLayer (hhdm : Nat) (mem : Mem) (layer index : Nat) : Option Nat :=
  let entry := mem (entryAddress layer index)
  if Present entry then some (add64 (getAddress entry) hhdm) else none

/-- The layer at the end of a path of indices. -/
def walk (hhdm : Nat) (mem : Mem) (layer : Nat) : List Nat → Option Nat
  | [] => some layer
  | i :: p => (nextLayer hhdm mem layer i).bind fun next => walk hhdm mem next p

/-- Paths from the root to a layer, the root's index below `lim`. -/
structure Valid (lim : Nat) (p : List Nat) : Prop where
  depth : p.length ≤ 3
  index : ∀ i ∈ p, i < 512
  root : ∀ i, p.head? = some i → i < lim

variable {σ : Type} {P : PageSource σ} {lim root : Nat} {m m' m'' : Machine σ}

theorem walk_snoc (hhdm : Nat) (mem : Mem) (a : Nat) (p : List Nat) (i : Nat) :
    walk hhdm mem a (p ++ [i]) =
      (walk hhdm mem a p).bind fun b => nextLayer hhdm mem b i := by
  induction p generalizing a with
  | nil => simp only [List.nil_append, walk, Option.bind_fun_some, Option.bind_some]
  | cons j p ih => simp only [List.cons_append, walk, ih, Option.bind_assoc]

theorem Valid.nil : Valid lim [] := ⟨by simp, by simp, by simp⟩

theorem Valid.init {p : List Nat} {i : Nat} (h : Valid lim (p ++ [i])) : Valid lim p := by
  refine ⟨?_, fun j hj => h.index j (by simp [hj]), fun j hj => h.root j ?_⟩
  · have := h.depth; simp at this; omega
  · cases p with
    | nil => simp at hj
    | cons k p => simpa using hj

theorem Valid.last {p : List Nat} {i : Nat} (h : Valid lim (p ++ [i])) : i < 512 :=
  h.index i (by simp)

theorem Valid.mono {lim' : Nat} {p : List Nat} (h : Valid lim p) (hl : lim ≤ lim') :
    Valid lim' p := ⟨h.depth, h.index, fun i hi => Nat.lt_of_lt_of_le (h.root i hi) hl⟩

/-- Memories that agree on every entry passed lead to the same layer. -/
theorem walk_congr {hhdm : Nat} {mem mem' : Mem} {a : Nat} {p : List Nat}
    (h : ∀ q i b, q ++ [i] <+: p → walk hhdm mem a q = some b →
      nextLayer hhdm mem' b i = nextLayer hhdm mem b i) :
    walk hhdm mem' a p = walk hhdm mem a p := by
  induction p using List.reverseRecOn with
  | nil => rfl
  | append_singleton p i ih =>
    rw [walk_snoc, walk_snoc, ih fun q j b hq => h q j b (hq.trans (List.prefix_append _ _))]
    cases hw : walk hhdm mem a p with
    | none => rfl
    | some b => exact h p i b (List.prefix_refl _) hw

/-! ## The invariant -/

/-- A page of the direct map that is in use. -/
structure Layer (P : PageSource σ) (src : σ) (a : Nat) : Prop extends Aligned a where
  above : P.hhdm + PAGE ≤ a
  physical : a + PAGE ≤ P.hhdm + 2 ^ 52
  taken : ¬P.Free src a

structure Tree (P : PageSource σ) (lim : Nat) (m : Machine σ) (root : Nat) : Prop where
  layer : ∀ p a, Valid lim p → walk P.hhdm m.mem root p = some a → Layer P m.src a
  inj : ∀ p q a, Valid lim p → Valid lim q → walk P.hhdm m.mem root p = some a →
    walk P.hhdm m.mem root q = some a → p = q
  clear : ∀ p a i, Valid lim (p ++ [i]) → walk P.hhdm m.mem root p = some a →
    ¬Present (m.mem (entryAddress a i)) → m.mem (entryAddress a i) = 0

/-- A page that was just granted is in use. -/
theorem layer_of_grant {src src' : σ} {n : Nat}
    (h : Grant P.hhdm (P.Free src) (P.Free src') (P.remaining src) (P.remaining src') n 1) :
    Layer P src' n := by
  have h1 := h.below; have h2 := h.physical
  simp only [Nat.max_self, Nat.one_mul] at h1 h2
  refine ⟨⟨h.aligned, h1⟩, h.above, h2, fun hf => ?_⟩
  have := h.taken n hf
  simp only [PAGE] at this; omega

theorem free_of_grant {Free Free' : Nat → Prop} {hhdm left left' n : Nat}
    (h : Grant hhdm Free Free' left left' n 1) : Free n := by
  simpa using h.fresh 0 (by decide)

/-- An entry of a layer in use is not in a page that was free. -/
theorem entryAddress_outside {src : σ} {a i n : Nat} (ha : Layer P src a) (hi : i < 512)
    (hn : P.Free src n) (hal : n % PAGE = 0) :
    entryAddress a i < n ∨ n + PAGE ≤ entryAddress a i := by
  have hne : a ≠ n := fun h => ha.taken (h ▸ hn)
  have h1 := entryAddress_mem ha.toAligned hi
  have h2 := ha.page
  simp only [PAGE] at *; omega

theorem Layer.mono {src src' : σ} {a : Nat} (h : Layer P src a)
    (hf : ∀ x, P.Free src' x → P.Free src x) : Layer P src' a :=
  { h with taken := fun hx => h.taken (hf a hx) }

/-- The physical address of a layer is what an entry can hold. -/
theorem Layer.physicalAddress {src : σ} {n : Nat} (h : Layer P src n) :
    sub64 n P.hhdm % PAGE = 0 ∧ sub64 n P.hhdm < 2 ^ 52 ∧ add64 (sub64 n P.hhdm) P.hhdm = n := by
  have hle : P.hhdm ≤ n := Nat.le_trans (Nat.le_add_right _ _) h.above
  have hlt : n < 2 ^ 64 := Nat.lt_of_lt_of_le (Nat.lt_add_of_pos_right (by decide)) h.below
  have h1 := h.page; have h2 := P.hhdm_aligned; have h3 := h.physical
  refine ⟨?_, ?_, add64_sub64 hlt⟩
  · rw [sub64_of_le hle hlt]
    simp only [PAGE] at *; omega
  · rw [sub64_of_le hle hlt]
    simp only [PAGE] at h3; omega

/-- Put in an entry and read back, it gives the layer again. -/
theorem address_of_layer {src : σ} {n : Nat} (h : Layer P src n) (f : Nat) (hf : f < 4096) :
    add64 (getAddress (sub64 n P.hhdm ||| f)) P.hhdm = n := by
  obtain ⟨h1, h2, h3⟩ := h.physicalAddress
  rw [getAddress_or_flags _ hf, getAddress_of_page h1 h2, h3]

/-! ## One `allocate_next_layer` -/

/-- Both branches of the code: the entry is present, or a page is allocated
for it. -/
theorem allocateNextLayer_cases {a i f n : Nat} (ha : Layer P m.src a) (hi : i < 512)
    (hclear : ¬Present (m.mem (entryAddress a i)) → m.mem (entryAddress a i) = 0)
    (h : allocateNextLayer P m a i f = some (n, m')) :
    (Present (m.mem (entryAddress a i)) ∧
      n = add64 (getAddress (m.mem (entryAddress a i))) P.hhdm ∧
      m' = setEntry m (entryAddress a i) (m.mem (entryAddress a i) ||| (f &&& 0xFF))) ∨
    (m.mem (entryAddress a i) = 0 ∧ ∃ m₁, m.pageAllocate P 1 = some (n, m₁) ∧
      m' = setEntry m₁ (entryAddress a i)
        (sub64 n P.hhdm ||| (f &&& 0xFF ||| TABLE_ENTRY_PRESENT))) := by
  unfold allocateNextLayer at h
  simp only at h
  split at h
  · rename_i hp
    rw [Option.map_eq_some_iff] at h
    obtain ⟨⟨b, m₁⟩, hb, he⟩ := h
    obtain ⟨hg, hmem⟩ := Machine.pageAllocate_spec hb
    have hz : m₁.mem (entryAddress a i) = 0 := by
      rw [hmem, Mem.zero_out _ (entryAddress_outside ha hi (free_of_grant hg) hg.aligned),
        hclear hp]
    have hfl : f &&& 0xFF ||| TABLE_ENTRY_PRESENT < 4096 :=
      Nat.or_lt_two_pow (n := 12) (Nat.lt_trans (flags_lt f) (by decide)) (by decide)
    simp only [setEntry, Mem.store_self, hz, Nat.zero_or, Prod.mk.injEq,
      address_of_layer (layer_of_grant hg) _ hfl] at he
    obtain ⟨rfl, rfl⟩ := he
    refine .inr ⟨hclear hp, m₁, hb, ?_⟩
    simp only [setEntry, Machine.mk.injEq, and_true]
    funext x
    by_cases hx : x = entryAddress a i
    · simp only [hx, Mem.store_self]
    · simp only [Mem.store_ne _ _ hx]
  · rename_i hp
    rw [Decidable.not_not] at hp
    simp only [setEntry, Mem.store_self, Option.some.injEq, Prod.mk.injEq,
      getAddress_or_flags _ (Nat.lt_trans (flags_lt f) (by decide))] at h
    exact .inl ⟨hp, h.1.symm, h.2.symm⟩

/-- The table at `root` in `m'` has grown out of the one in `m`. -/
structure Grows (P : PageSource σ) (lim root : Nat) (m m' : Machine σ) : Prop where
  tree : Tree P lim m' root
  kept : ∀ p a, Valid lim p → walk P.hhdm m.mem root p = some a →
    walk P.hhdm m'.mem root p = some a
  new : ∀ p a, Valid lim p → walk P.hhdm m'.mem root p = some a →
    walk P.hhdm m.mem root p = some a ∨ P.Free m.src a
  words : ∀ x, m'.mem x ≠ m.mem x →
    ∃ p a, Valid lim p ∧ walk P.hhdm m'.mem root p = some a ∧ a ≤ x ∧ x < a + PAGE
  free : ∀ x, P.Free m'.src x → P.Free m.src x
  upper : ∀ i, lim ≤ i → i < 512 → m'.mem (entryAddress root i) = m.mem (entryAddress root i)

theorem Grows.trans (h : Grows P lim root m m') (h' : Grows P lim root m' m'') :
    Grows P lim root m m'' := by
  refine ⟨h'.tree, fun p a hv hw => h'.kept p a hv (h.kept p a hv hw), fun p a hv hw => ?_,
    fun x hx => ?_, fun x hx => h.free x (h'.free x hx),
    fun i hi hlt => (h'.upper i hi hlt).trans (h.upper i hi hlt)⟩
  · cases h'.new p a hv hw with
    | inl hw => exact h.new p a hv hw
    | inr hf => exact .inr (h.free a hf)
  · by_cases he : m'.mem x = m.mem x
    · exact h'.words x (he ▸ hx)
    · obtain ⟨p, a, hv, hw, hr⟩ := h.words x he
      exact ⟨p, a, hv, h'.kept p a hv hw, hr⟩

/-- A page that is in use and is no layer of the table keeps its words. -/
theorem Grows.word (h : Grows P lim root m m') {a x : Nat} (ha : a % PAGE = 0)
    (hf : ¬P.Free m.src a) (hw : ∀ p, Valid lim p → walk P.hhdm m.mem root p ≠ some a)
    (hx : x < PAGE) : m'.mem (a + x) = m.mem (a + x) := by
  by_contra hne
  obtain ⟨p, b, hp, hb, h1, h2⟩ := h.words _ hne
  have hbp := (h.tree.layer p b hp hb).page
  have : b = a := by simp only [PAGE] at *; omega
  subst this
  cases h.new p b hp hb with
  | inl hb => exact hw p hp hb
  | inr hb => exact hf hb

theorem nextLayer_congr {hhdm : Nat} {mem mem' : Mem} {a i : Nat}
    (h : mem' (entryAddress a i) = mem (entryAddress a i)) :
    nextLayer hhdm mem' a i = nextLayer hhdm mem a i := by
  unfold nextLayer; rw [h]

theorem present_of_nextLayer {hhdm : Nat} {mem : Mem} {a i n : Nat}
    (h : nextLayer hhdm mem a i = some n) :
    Present (mem (entryAddress a i)) ∧ n = add64 (getAddress (mem (entryAddress a i))) hhdm := by
  simp only [nextLayer] at h
  split at h
  · rename_i hp
    cases h
    exact ⟨hp, rfl⟩
  · cases h

theorem nextLayer_zero {hhdm : Nat} {mem : Mem} {a i : Nat} (h : mem (entryAddress a i) = 0) :
    nextLayer hhdm mem a i = none := by
  unfold nextLayer; rw [h]; exact if_neg not_present_zero

/-- The walks after a zeroed page `n` is hung under entry `i` of the layer at
`q`. -/
theorem walk_fresh (ht : Tree P lim m root) {q : List Nat} {i a n : Nat}
    (hv : Valid lim (q ++ [i])) (hq : walk P.hhdm m.mem root q = some a)
    (h0 : m.mem (entryAddress a i) = 0) (hn : P.Free m.src n) (hal : Aligned n) {mem' : Mem}
    (hentry : nextLayer P.hhdm mem' a i = some n)
    (hzero : ∀ x, n ≤ x → x < n + PAGE → mem' x = 0)
    (hsame : ∀ x, x ≠ entryAddress a i → x < n ∨ n + PAGE ≤ x → mem' x = m.mem x)
    {p : List Nat} (hp : Valid lim p) :
    walk P.hhdm mem' root p = if p = q ++ [i] then some n else walk P.hhdm m.mem root p := by
  have hla := ht.layer q a hv.init hq
  induction p using List.reverseRecOn with
  | nil => rw [if_neg (by simp)]; rfl
  | append_singleton p j ih =>
    rw [walk_snoc, ih hp.init]
    by_cases hpq : p = q ++ [i]
    · -- below the new layer there is nothing yet, before and after
      have hmem := entryAddress_mem hal hp.last
      rw [if_pos hpq, if_neg (by rw [hpq]; simp), walk_snoc, hpq, walk_snoc, hq]
      simp only [Option.bind_some, nextLayer_zero (hzero _ hmem.1 hmem.2), nextLayer_zero h0,
        Option.bind_none]
    · rw [if_neg hpq]
      cases hw : walk P.hhdm m.mem root p with
      | none =>
        have hne : p ≠ q := fun h => by rw [h, hq] at hw; cases hw
        rw [if_neg (by simp [hne]), walk_snoc, hw]
        rfl
      | some b =>
        have hlb := ht.layer p b hp.init hw
        rw [Option.bind_some]
        by_cases he : entryAddress b j = entryAddress a i
        · obtain ⟨rfl, rfl⟩ := entryAddress_inj hlb.toAligned hla.toAligned hp.last hv.last he
          rw [ht.inj p q b hp.init hv.init hw hq, if_pos rfl, hentry]
        · have hne : p ++ [j] ≠ q ++ [i] := by
            intro h
            obtain ⟨rfl, h2⟩ := List.append_inj' h rfl
            rw [hw] at hq
            cases hq; cases h2
            exact he rfl
          rw [if_neg hne, walk_snoc, hw, Option.bind_some, nextLayer_congr]
          exact hsame _ he (entryAddress_outside hlb hp.last hn hal.page)

/-- Or-ing flags into a present entry changes no walk. -/
theorem walk_or_flags {hhdm : Nat} {mem : Mem} {e f : Nat} (hp : Present (mem e))
    (hf : f < 4096) (a : Nat) (p : List Nat) :
    walk hhdm (mem.store e (mem e ||| f)) a p = walk hhdm mem a p := by
  refine walk_congr fun q i b _ _ => ?_
  by_cases he : entryAddress b i = e
  · simp only [nextLayer, he, Mem.store_self, getAddress_or_flags _ hf, hp,
      (present_or _ _).mpr (.inl hp), if_true]
  · exact nextLayer_congr (Mem.store_ne _ _ he)

/-- The walks after `allocate_next_layer`: entry `i` of the layer at `q` leads
to `n`, and nothing else has changed. -/
theorem allocateNextLayer_walk (ht : Tree P lim m root) {q : List Nat} {i a n f : Nat}
    (hv : Valid lim (q ++ [i])) (hq : walk P.hhdm m.mem root q = some a)
    (h : allocateNextLayer P m a i f = some (n, m')) {p : List Nat} (hp : Valid lim p) :
    walk P.hhdm m'.mem root p = if p = q ++ [i] then some n else walk P.hhdm m.mem root p := by
  have hla := ht.layer q a hv.init hq
  rcases allocateNextLayer_cases hla hv.last (ht.clear q a i hv hq) h with
    ⟨hpr, hn, rfl⟩ | ⟨h0, m₁, hm₁, rfl⟩
  · have hfl : f &&& 0xFF < 4096 := Nat.lt_trans (flags_lt f) (by decide)
    simp only [setEntry, walk_or_flags hpr hfl]
    split
    · rename_i hpq
      rw [hpq, walk_snoc, hq, Option.bind_some, nextLayer, if_pos hpr, hn]
    · rfl
  · obtain ⟨hg, hmem⟩ := Machine.pageAllocate_spec hm₁
    have hln := layer_of_grant hg
    have hout := entryAddress_outside hla hv.last (free_of_grant hg) hg.aligned
    refine walk_fresh ht hv hq h0 (free_of_grant hg) hln.toAligned ?_ ?_ ?_ hp
    · simp only [setEntry, nextLayer, Mem.store_self]
      rw [if_pos, address_of_layer hln]
      · exact Nat.or_lt_two_pow (n := 12) (Nat.lt_trans (flags_lt f) (by decide)) (by decide)
      · exact (present_or _ _).mpr (.inr ((present_or _ _).mpr (.inr present_self)))
    · intro x h1 h2
      simp only [setEntry, hmem]
      rw [Mem.store_ne _ _ (by omega), Mem.zero_in _ h1 h2]
    · intro x hx hr
      simp only [setEntry, hmem]
      rw [Mem.store_ne _ _ hx, Mem.zero_out _ hr]

/-- The words after `allocate_next_layer`: the entry is present, and any other
word is as it was or lies in the page that was free. -/
theorem allocateNextLayer_words (ht : Tree P lim m root) {q : List Nat} {i a n f : Nat}
    (hv : Valid lim (q ++ [i])) (hq : walk P.hhdm m.mem root q = some a)
    (h : allocateNextLayer P m a i f = some (n, m')) :
    Present (m'.mem (entryAddress a i)) ∧
      (∀ x, x ≠ entryAddress a i → m'.mem x = m.mem x ∨
        (P.Free m.src n ∧ n ≤ x ∧ x < n + PAGE ∧ m'.mem x = 0)) ∧
      (walk P.hhdm m.mem root (q ++ [i]) = some n ∨
        (walk P.hhdm m.mem root (q ++ [i]) = none ∧ P.Free m.src n ∧
          ∀ x, n ≤ x → x < n + PAGE → m'.mem x = 0)) ∧
      Layer P m'.src n ∧ ∀ x, P.Free m'.src x → P.Free m.src x := by
  have hla := ht.layer q a hv.init hq
  rcases allocateNextLayer_cases hla hv.last (ht.clear q a i hv hq) h with
    ⟨hpr, hn, rfl⟩ | ⟨h0, m₁, hm₁, rfl⟩
  · have hw : walk P.hhdm m.mem root (q ++ [i]) = some n := by
      rw [walk_snoc, hq, Option.bind_some, nextLayer, if_pos hpr, hn]
    refine ⟨?_, fun x hx => .inl (Mem.store_ne _ _ hx), .inl hw, ht.layer _ n hv hw,
      fun _ => id⟩
    simp only [setEntry, Mem.store_self]
    exact (present_or _ _).mpr (.inl hpr)
  · obtain ⟨hg, hmem⟩ := Machine.pageAllocate_spec hm₁
    have hout := entryAddress_outside hla hv.last (free_of_grant hg) hg.aligned
    have hz : ∀ x, n ≤ x → x < n + PAGE →
        (m₁.mem.store (entryAddress a i)
          (sub64 n P.hhdm ||| (f &&& 0xFF ||| TABLE_ENTRY_PRESENT))) x = 0 := by
      intro x h1 h2
      rw [hmem, Mem.store_ne _ _ (by omega), Mem.zero_in _ h1 h2]
    have hw : walk P.hhdm m.mem root (q ++ [i]) = none := by
      rw [walk_snoc, hq, Option.bind_some, nextLayer_zero h0]
    refine ⟨?_, fun x hx => ?_, .inr ⟨hw, free_of_grant hg, hz⟩, layer_of_grant hg, hg.kept⟩
    · simp only [setEntry, Mem.store_self]
      exact (present_or _ _).mpr (.inr ((present_or _ _).mpr (.inr present_self)))
    · by_cases hr : n ≤ x ∧ x < n + PAGE
      · exact .inr ⟨free_of_grant hg, hr.1, hr.2, hz x hr.1 hr.2⟩
      · left
        simp only [setEntry, hmem]
        rw [Mem.store_ne _ _ hx, Mem.zero_out _ (by omega)]

theorem allocateNextLayer_tree (ht : Tree P lim m root) {q : List Nat} {i a n f : Nat}
    (hv : Valid lim (q ++ [i])) (hq : walk P.hhdm m.mem root q = some a)
    (h : allocateNextLayer P m a i f = some (n, m')) : Tree P lim m' root := by
  obtain ⟨hpr, hwords, hold, hln, hfree⟩ := allocateNextLayer_words ht hv hq h
  have hwalk := fun p (hp : Valid lim p) => allocateNextLayer_walk ht hv hq h hp
  -- the layer below the entry is new, or the walk to it is the old one
  have hself : ∀ p, Valid lim p → walk P.hhdm m.mem root p = some n → p = q ++ [i] := by
    intro p hp hw
    rcases hold with ho | ⟨-, hf, -⟩
    · exact ht.inj p _ n hp hv hw ho
    · exact absurd hf (ht.layer p n hp hw).taken
  refine ⟨fun p b hp hw => ?_, fun p p' b hp hp' hw hw' => ?_, fun p b j hp hw hnp => ?_⟩
  · rw [hwalk p hp] at hw
    split at hw
    · cases hw; exact hln
    · exact (ht.layer p b hp hw).mono hfree
  · rw [hwalk p hp] at hw
    rw [hwalk p' hp'] at hw'
    split at hw <;> split at hw'
    · rename_i h1 h2; rw [h1, h2]
    · rename_i h1 h2; cases hw; exact absurd (hself p' hp' hw') h2
    · rename_i h1 h2; cases hw'; exact absurd (hself p hp hw) h1
    · exact ht.inj p p' b hp hp' hw hw'
  · have hne : entryAddress b j ≠ entryAddress a i := fun he => hnp (he ▸ hpr)
    rcases hwords _ hne with hsame | ⟨-, -, -, hz⟩
    · rw [hsame] at hnp ⊢
      rw [hwalk p hp.init] at hw
      split at hw
      · cases hw
        rcases hold with ho | ⟨-, -, hz⟩
        · rename_i hpq; subst hpq; exact ht.clear _ n j hp ho hnp
        · have hmem := entryAddress_mem hln.toAligned hp.last
          rw [← hsame]; exact hz _ hmem.1 hmem.2
      · exact ht.clear p b j hp hw hnp
    · exact hz

theorem allocateNextLayer_grows (ht : Tree P lim m root) {q : List Nat} {i a n f : Nat}
    (hv : Valid lim (q ++ [i])) (hq : walk P.hhdm m.mem root q = some a)
    (h : allocateNextLayer P m a i f = some (n, m')) :
    Grows P lim root m m' ∧ walk P.hhdm m'.mem root (q ++ [i]) = some n := by
  obtain ⟨hpr, hwords, hold, hln, hfree⟩ := allocateNextLayer_words ht hv hq h
  have hwalk := fun p (hp : Valid lim p) => allocateNextLayer_walk ht hv hq h hp
  have hself : walk P.hhdm m'.mem root (q ++ [i]) = some n := by rw [hwalk _ hv, if_pos rfl]
  refine ⟨⟨allocateNextLayer_tree ht hv hq h, fun p b hp hw => ?_, fun p b hp hw => ?_,
    fun x hx => ?_, hfree, fun j hj hlt => ?_⟩, hself⟩
  · rw [hwalk p hp]
    split
    · rename_i hpq
      subst hpq
      rcases hold with ho | ⟨hnone, -⟩
      · rw [← hw, ho]
      · rw [hnone] at hw; cases hw
    · exact hw
  · rw [hwalk p hp] at hw
    split at hw
    · rename_i hpq
      cases hw; subst hpq
      rcases hold with ho | ⟨-, hf, -⟩
      · exact .inl ho
      · exact .inr hf
    · exact .inl hw
  · by_cases he : x = entryAddress a i
    · have hmem := entryAddress_mem (ht.layer q a hv.init hq).toAligned hv.last
      refine ⟨q, a, hv.init, ?_, he ▸ hmem.1, he ▸ hmem.2⟩
      rw [hwalk q hv.init, if_neg (by simp), hq]
    · rcases hwords x he with hsame | ⟨-, h1, h2, -⟩
      · exact absurd hsame hx
      · exact ⟨q ++ [i], n, hv, hself, h1, h2⟩
  · have hlr := ht.layer [] root .nil rfl
    have he : entryAddress root j ≠ entryAddress a i := by
      intro he
      obtain ⟨rfl, rfl⟩ := entryAddress_inj hlr.toAligned
        (ht.layer q a hv.init hq).toAligned hlt hv.last he
      have := hv.root j (by rw [ht.inj q [] root hv.init .nil hq rfl]; rfl)
      omega
    rcases hwords _ he with hsame | ⟨hf, h1, h2, -⟩
    · exact hsame
    · have := entryAddress_outside hlr hlt hf hln.page
      omega

end GaOS.L2.TableManager
