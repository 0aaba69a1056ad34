import GaOS.Core.Loop
import GaOS.L2Paging.Map

/-!
# `sys_fork`: cloning the address space

Model of kernel/src/syscalls/sys_fork.c:37-86, the part of the system call that
duplicates the working set: a new table whose upper half is the bootstrap
table's, then a walk over the four layers of the parent's lower half that gives
every present page a fresh frame with the same contents and maps it in the
child with the same flags.

The walk goes through the lower half in the order of the page numbers.
`Cloning n` says that the pages below `n` are done: it is the invariant of all
four loops (`forPresent_cloning`), a loop at one layer advancing `n` by the
pages that an entry of that layer covers.
-/
namespace GaOS.L5.Fork

open GaOS.L1 GaOS.L1.PageAllocator GaOS.L2.TableManager

/-! ## The code -/

section
variable {σ : Type} (P : PageSource σ)

/-- The first `n` entries from 0x100 on.
mirrors kernel/src/syscalls/sys_fork.c:43-44 and kernel/src/executables/elf.c:66-67 -/
def copyHigherHalf (table bootstrap : Nat) : Nat → Machine σ → Machine σ
  | 0, m => m
  | n + 1, m =>
    let m := copyHigherHalf table bootstrap n m
    setEntry m (entryAddress table (0x100 + n)) (m.mem (entryAddress bootstrap (0x100 + n)))

/-- The layer or frame that an entry points to, in the direct map. -/
def target (entry : Nat) : Nat := add64 (getAddress entry) P.hhdm

/-- One of the four nested loops: `body` for each present entry of `layer`. -/
def forPresent (layer n : Nat) (body : Nat → Nat → Machine σ → Option (Machine σ)) :
    Machine σ → Option (Machine σ) :=
  forUpto (fun i m =>
    let e := m.mem (entryAddress layer i)
    if Present e then body i e m else some m) n

/-- mirrors kernel/src/syscalls/sys_fork.c:69-75 -/
def cloneFrame (child virtualAddress e4 : Nat) (m : Machine σ) : Option (Machine σ) := do
  let parentPhysicalAddress := target P e4
  let (childPhysicalAddress, m) ← m.pageAllocate P 1
  let m := { m with mem := m.mem.copy childPhysicalAddress parentPhysicalAddress PAGE }
  map P m child virtualAddress (sub64 childPhysicalAddress P.hhdm) (e4 &&& FLAGS_MASK)

/-- mirrors kernel/src/syscalls/sys_fork.c:46-83 -/
def cloneLowerHalf (parent child : Nat) : Machine σ → Option (Machine σ) :=
  forPresent parent 0x100 fun i1 e1 =>
    forPresent (target P e1) 0x200 fun i2 e2 =>
      forPresent (target P e2) 0x200 fun i3 e3 =>
        forPresent (target P e3) 0x200 fun i4 e4 =>
          cloneFrame P child (i4 <<< 12 ||| i3 <<< 21 ||| i2 <<< 30 ||| i1 <<< 39) e4

/-- From the parent's `cr3` to the child's.
mirrors kernel/src/syscalls/sys_fork.c:41-85 -/
def sysForkAddressSpace (bootstrap cr3 : Nat) (m : Machine σ) : Option (Nat × Machine σ) := do
  let (child, m) ← archTableManagerNew P m
  let parent := add64 cr3 P.hhdm
  let m := copyHigherHalf child bootstrap 0x100 m
  let m ← cloneLowerHalf P parent child m
  return (sub64 child P.hhdm, m)

end

/-! ## The state of the clone -/

variable {σ : Type} {P : PageSource σ} {parent child boot : Nat} {m₀ m m' : Machine σ}

/-- The frame that `v` is mapped to. -/
def frame (P : PageSource σ) (mem : Mem) (root v : Nat) : Nat :=
  target P (leafEntry P.hhdm mem root v)

/-- Page `v` of the parent, as it was in `m₀`, has the copy `a` in the child. -/
structure FrameCopy (P : PageSource σ) (parent child : Nat) (m₀ m : Machine σ) (v a : Nat) :
    Prop where
  aligned : a % PAGE = 0
  fresh : P.Free m₀.src a
  held : ¬P.Free m.src a
  apart : ∀ p, Valid 0x100 p → walk P.hhdm m.mem child p ≠ some a
  present : Present (leafEntry P.hhdm m.mem child v)
  flags : leafEntry P.hhdm m.mem child v &&& FLAGS_MASK =
    leafEntry P.hhdm m₀.mem parent v &&& FLAGS_MASK
  address : frame P m.mem child v = a
  words : ∀ x, x < PAGE → m.mem (a + x) = m₀.mem (frame P m₀.mem parent v + x)

/-- The lower-half pages with numbers below `n` have been cloned. -/
structure Cloning (P : PageSource σ) (parent child boot : Nat) (m₀ : Machine σ) (n : Nat)
    (m : Machine σ) : Prop where
  tree : Tree P 0x100 m child
  layers : ∀ p a, Valid 0x100 p → walk P.hhdm m.mem child p = some a → P.Free m₀.src a
  free : ∀ x, P.Free m.src x → P.Free m₀.src x
  writes : ∀ x, m.mem x ≠ m₀.mem x →
    ∃ b, b % PAGE = 0 ∧ P.Free m₀.src b ∧ b ≤ x ∧ x < b + PAGE
  higher : ∀ i, 0x100 ≤ i → i < 0x200 →
    m.mem (entryAddress child i) = m₀.mem (entryAddress boot i)
  done : ∀ v, pml3Index v < 0x100 → vpn v < n → Present (leafEntry P.hhdm m₀.mem parent v) →
    ∃ a, FrameCopy P parent child m₀ m v a
  todo : ∀ v, pml3Index v < 0x100 →
    n ≤ vpn v ∨ ¬Present (leafEntry P.hhdm m₀.mem parent v) → leafEntry P.hhdm m.mem child v = 0

/-- What the parent uses is not free: the meaning of "`page_allocate` returns
fresh pages" when `fork` is called. -/
structure InUse (P : PageSource σ) (parent boot : Nat) (m : Machine σ) : Prop where
  bootstrap : Layer P m.src boot
  layers : ∀ p a, Valid 0x200 p → walk P.hhdm m.mem parent p = some a → ¬P.Free m.src a
  frames : ∀ v, pml3Index v < 0x100 → Present (leafEntry P.hhdm m.mem parent v) →
    ¬P.Free m.src (frame P m.mem parent v)

theorem target_aligned (e : Nat) : target P e % PAGE = 0 := by
  have h1 := getAddress_aligned e; have h2 := P.hhdm_aligned
  simp only [target, add64, PAGE] at *; omega

/-- Words of a page that is in use are not written. -/
theorem Cloning.word {n a x : Nat} (h : Cloning P parent child boot m₀ n m) (ha : a % PAGE = 0)
    (hf : ¬P.Free m₀.src a) (h1 : a ≤ x) (h2 : x < a + PAGE) : m.mem x = m₀.mem x := by
  by_contra hne
  obtain ⟨b, hb, hfree, h3, h4⟩ := h.writes x hne
  have : b = a := by simp only [PAGE] at *; omega
  exact hf (this ▸ hfree)

/-- Pages that the parent does not map need no work. -/
theorem Cloning.skip {n n' : Nat} (h : Cloning P parent child boot m₀ n m) (hle : n ≤ n')
    (hnone : ∀ v, pml3Index v < 0x100 → n ≤ vpn v → vpn v < n' →
      ¬Present (leafEntry P.hhdm m₀.mem parent v)) :
    Cloning P parent child boot m₀ n' m := by
  refine { h with done := fun v hv hlt hp => h.done v hv ?_ hp, todo := fun v hv hc => ?_ }
  · by_contra hge
    exact hnone v hv (by omega) hlt hp
  · apply h.todo v hv
    rcases hc with hc | hc
    · exact .inl (by omega)
    · exact .inr hc

/-- A copy made earlier is still good when the words of its page and the leaf
are. -/
theorem FrameCopy.keep {v a : Nat} (h : FrameCopy P parent child m₀ m v a)
    (hfree : ∀ x, P.Free m'.src x → P.Free m.src x)
    (hnew : ∀ p, Valid 0x100 p → walk P.hhdm m'.mem child p = some a →
      walk P.hhdm m.mem child p = some a ∨ P.Free m.src a)
    (hleaf : leafEntry P.hhdm m'.mem child v = leafEntry P.hhdm m.mem child v)
    (hwords : ∀ x, x < PAGE → m'.mem (a + x) = m.mem (a + x)) :
    FrameCopy P parent child m₀ m' v a where
  aligned := h.aligned
  fresh := h.fresh
  held := fun hf => h.held (hfree a hf)
  apart := by
    intro p hp hw
    cases hnew p hp hw with
    | inl hw => exact h.apart p hp hw
    | inr hf => exact h.held hf
  present := hleaf ▸ h.present
  flags := hleaf ▸ h.flags
  address := by
    rw [frame, hleaf]; exact h.address
  words := fun x hx => (hwords x hx).trans (h.words x hx)

/-! ## One page -/

/-- Filling a page that was free leaves a table alone. -/
theorem untouched_fill {lim a : Nat} (ht : Tree P lim m child) (hal : a % PAGE = 0)
    (hfree : P.Free m.src a) (hkept : ∀ x, P.Free m'.src x → P.Free m.src x)
    (hout : ∀ x, x < a ∨ a + PAGE ≤ x → m'.mem x = m.mem x) : Untouched P lim child m m' := by
  intro p b hp hw
  have hl := ht.layer p b hp hw
  exact ⟨fun i hi _ => hout _ (entryAddress_outside hl hi hfree hal),
    fun hf => hl.taken (hkept b hf)⟩

/-- Growing the child's table keeps the copies made before. -/
theorem FrameCopy.grows {v a : Nat} (h : FrameCopy P parent child m₀ m v a)
    (hg : Grows P 0x100 child m m')
    (hleaf : leafEntry P.hhdm m'.mem child v = leafEntry P.hhdm m.mem child v) :
    FrameCopy P parent child m₀ m' v a := by
  exact h.keep hg.free (fun p hp => hg.new p a hp) hleaf
    fun x hx => hg.word h.aligned h.held h.apart hx

/-- The leaf that the child gets: the parent's flags and the new frame. -/
theorem clone_leaf {src : σ} {e a : Nat} (hp : Present e) (ha : Layer P src a) :
    let leaf := setAddress (0 ||| (e &&& FLAGS_MASK ||| TABLE_ENTRY_PRESENT)) (sub64 a P.hhdm)
    Present leaf ∧ leaf &&& FLAGS_MASK = e &&& FLAGS_MASK ∧ target P leaf = a := by
  obtain ⟨h1, h2, h3⟩ := ha.physicalAddress
  have hf : Present (e &&& FLAGS_MASK) := by
    rw [present_iff] at hp ⊢
    rw [Nat.testBit_and, hp, show FLAGS_MASK.testBit 0 = true by decide, Bool.and_true]
  rw [Nat.zero_or, or_present hf]
  refine ⟨present_setAddress _ hf, ?_, ?_⟩
  · rw [setAddress, Nat.and_or_distrib_right, and_flags_of_page h1 h2, Nat.or_zero, Nat.and_assoc,
      Nat.and_assoc, Nat.and_self, Nat.and_self]
  · rw [target, getAddress_setAddress _ h1 h2, h3]

/-- The new frame has the contents of the parent's before it is mapped. -/
theorem cloneFrame_fill {n v : Nat} (hu : InUse P parent boot m₀)
    (h : Cloning P parent child boot m₀ n m) (hv : pml3Index v < 0x100)
    (hp : Present (leafEntry P.hhdm m₀.mem parent v))
    (hs : cloneFrame P child v (leafEntry P.hhdm m₀.mem parent v) m = some m') :
    ∃ a m₂, a % PAGE = 0 ∧ P.Free m.src a ∧ Layer P m₂.src a ∧
      (∀ x, P.Free m₂.src x → P.Free m.src x) ∧
      (∀ x, x < a ∨ a + PAGE ≤ x → m₂.mem x = m.mem x) ∧
      (∀ x, x < PAGE → m₂.mem (a + x) = m₀.mem (frame P m₀.mem parent v + x)) ∧
      map P m₂ child v (sub64 a P.hhdm)
        (leafEntry P.hhdm m₀.mem parent v &&& FLAGS_MASK) = some m' := by
  simp only [cloneFrame, Option.bind_eq_bind, Option.bind_eq_some_iff, Prod.exists] at hs
  obtain ⟨a, m₁, ha, hmap⟩ := hs
  obtain ⟨hg, hmem⟩ := Machine.pageAllocate_spec ha
  have hfa := free_of_grant hg
  have hal := hg.aligned
  have hsrc : frame P m₀.mem parent v % PAGE = 0 := target_aligned _
  have hne : frame P m₀.mem parent v ≠ a := fun he => hu.frames v hv hp (he ▸ h.free a hfa)
  refine ⟨a, ⟨m₁.mem.copy a (frame P m₀.mem parent v) PAGE, m₁.src⟩, hal, hfa, layer_of_grant hg,
    hg.kept, fun x hx => ?_, fun x hx => ?_, hmap⟩
  · simp only [Mem.copy_out _ hx, hmem, Mem.zero_out _ hx]
  · simp only [Mem.copy_in _ hx, hmem]
    rw [Mem.zero_out _ (by simp only [PAGE] at *; omega)]
    exact h.word hsrc (hu.frames v hv hp) (Nat.le_add_right _ _) (Nat.add_lt_add_left hx _)

theorem cloneFrame_cloning {n v : Nat} (hu : InUse P parent boot m₀)
    (h : Cloning P parent child boot m₀ n m) (hv : pml3Index v < 0x100) (hn : vpn v = n)
    (hp : Present (leafEntry P.hhdm m₀.mem parent v))
    (hs : cloneFrame P child v (leafEntry P.hhdm m₀.mem parent v) m = some m') :
    Cloning P parent child boot m₀ (n + 1) m' := by
  obtain ⟨a, m₂, hal, hfa, hla₂, hfree₂, hout, hin, hmap⟩ := cloneFrame_fill hu h hv hp hs
  have hunt : Untouched P 0x100 child m m₂ := untouched_fill h.tree hal hfa hfree₂ hout
  have ht₂ := hunt.tree h.tree
  obtain ⟨hgrow, hself, hother⟩ := map_spec ht₂ hv hmap
  rw [hunt.leafEntry hv, h.todo v hv (.inl (by omega))] at hself
  obtain ⟨c1, c2, c3⟩ := clone_leaf (P := P) hp hla₂
  have hleaf : ∀ v', pml3Index v' < 0x100 → vpn v' ≠ n →
      leafEntry P.hhdm m'.mem child v' = leafEntry P.hhdm m.mem child v' := by
    intro v' hv' hne
    rw [hother v' hv' (by omega), hunt.leafEntry hv']
  have hnotLayer : ∀ p, Valid 0x100 p → walk P.hhdm m₂.mem child p ≠ some a := by
    intro p hp hw
    rw [hunt.walk hp] at hw
    exact (h.tree.layer p a hp hw).taken hfa
  have hlayers : ∀ p b, Valid 0x100 p → walk P.hhdm m'.mem child p = some b → P.Free m₀.src b := by
    intro p b hp hw
    cases hgrow.new p b hp hw with
    | inl hw => exact h.layers p b hp (hunt.walk hp ▸ hw)
    | inr hf => exact h.free b (hfree₂ b hf)
  refine ⟨hgrow.tree, hlayers, fun x hx => h.free x (hfree₂ x (hgrow.free x hx)),
    fun x hx => ?_, fun i h1 h2 => ?_, fun v' hv' hlt hp' => ?_, fun v' hv' hc => ?_⟩
  · by_cases he : m'.mem x = m₂.mem x
    · by_cases hr : x < a ∨ a + PAGE ≤ x
      · exact h.writes x (by rw [← hout x hr, ← he]; exact hx)
      · exact ⟨a, hal, h.free a hfa, by omega, by omega⟩
    · obtain ⟨p, b, hp, hw, h1, h2⟩ := hgrow.words x he
      exact ⟨b, (hgrow.tree.layer p b hp hw).page, hlayers p b hp hw, h1, h2⟩
  · have hroot := entryAddress_outside (h.tree.layer [] child .nil rfl) h2 hfa hal
    rw [hgrow.upper i h1 h2, hout _ hroot, h.higher i h1 h2]
  · by_cases hvn : vpn v' = n
    · -- the page just cloned
      have he : vpn v' = vpn v := hvn.trans hn.symm
      have hl₀ : leafEntry P.hhdm m₀.mem parent v' = leafEntry P.hhdm m₀.mem parent v :=
        leafEntry_congr P.hhdm m₀.mem he
      have hl' : leafEntry P.hhdm m'.mem child v' = leafEntry P.hhdm m'.mem child v :=
        leafEntry_congr P.hhdm m'.mem he
      refine ⟨a, hal, h.free a hfa, fun hf => hla₂.taken (hgrow.free a hf), fun p hp hw => ?_,
        by rw [hl', hself]; exact c1, by rw [hl', hself, hl₀]; exact c2,
        by rw [frame, hl', hself]; exact c3, fun x hx => ?_⟩
      · cases hgrow.new p a hp hw with
        | inl hw => exact hnotLayer p hp hw
        | inr hf => exact hla₂.taken hf
      · rw [hgrow.word hal hla₂.taken hnotLayer hx, hin x hx, frame, frame, hl₀]
    · obtain ⟨b, hb⟩ := h.done v' hv' (by omega) hp'
      have hb₂ : FrameCopy P parent child m₀ m₂ v' b := by
        refine hb.keep hfree₂ (fun p hp hw => .inl (hunt.walk hp ▸ hw))
          (hunt.leafEntry hv') fun x hx => hout _ ?_
        have hba : b ≠ a := fun he => hb.held (he ▸ hfa)
        have := hb.aligned
        simp only [PAGE] at *; omega
      exact ⟨b, hb₂.grows hgrow (hother v' hv' (by omega))⟩
  · have hvn : vpn v' ≠ n := by
      intro he
      rcases hc with hc | hc
      · omega
      · rw [leafEntry_congr P.hhdm m₀.mem (he.trans hn.symm)] at hc
        exact hc hp
    rw [hleaf v' hv' hvn]
    apply h.todo v' hv'
    rcases hc with hc | hc
    · exact .inl (by omega)
    · exact .inr hc

/-! ## The loops -/

/-- A loop over the entries of a layer of the parent, each covering `size` page
numbers: what one round does decides what the loop does. -/
theorem forPresent_cloning {q : List Nat} {a base size n : Nat}
    {body : Nat → Nat → Machine σ → Option (Machine σ)} (ht : Tree P 0x100 m₀ parent)
    (hq : Valid 0x100 q) (hw : walk P.hhdm m₀.mem parent q = some a) (hn : n ≤ 0x200)
    (hbody : ∀ i t t', i < n → Present (m₀.mem (entryAddress a i)) →
      Cloning P parent child boot m₀ (base + i * size) t →
      body i (m₀.mem (entryAddress a i)) t = some t' →
      Cloning P parent child boot m₀ (base + (i + 1) * size) t')
    (habsent : ∀ i v, i < n → ¬Present (m₀.mem (entryAddress a i)) → pml3Index v < 0x100 →
      base + i * size ≤ vpn v → vpn v < base + (i + 1) * size →
      ¬Present (leafEntry P.hhdm m₀.mem parent v))
    (h : Cloning P parent child boot m₀ base m) (hs : forPresent a n body m = some m') :
    Cloning P parent child boot m₀ (base + n * size) m' := by
  have hl := ht.layer q a hq hw
  refine forUpto_inv (I := fun i t => Cloning P parent child boot m₀ (base + i * size) t) hs
    (by simpa using h) fun i t t' hi hc hb => ?_
  have hin := entryAddress_mem hl.toAligned (Nat.lt_of_lt_of_le hi hn)
  have hread := hc.word hl.page hl.taken hin.1 hin.2
  simp only [hread] at hb
  split at hb
  · rename_i hp
    exact hbody i t t' hi hp hc hb
  · rename_i hp
    cases hb
    exact hc.skip (Nat.add_le_add_left (Nat.mul_le_mul_right _ (Nat.le_succ i)) _)
      fun v hv h1 h2 => habsent i v hi hp hv h1 h2

theorem walk_append (hhdm : Nat) (mem : Mem) (a : Nat) (p q : List Nat) :
    walk hhdm mem a (p ++ q) = (walk hhdm mem a p).bind fun b => walk hhdm mem b q := by
  induction p generalizing a with
  | nil => rfl
  | cons i p ih => simp only [List.cons_append, walk, ih, Option.bind_assoc]

/-- Nothing is mapped below an entry that is not present. -/
theorem not_present_below {q t : List Nat} {a i v : Nat}
    (hw : walk P.hhdm m.mem parent q = some a) (hn : ¬Present (m.mem (entryAddress a i)))
    (hpath : leafPath v = q ++ [i] ++ t) : ¬Present (leafEntry P.hhdm m.mem parent v) := by
  have hnone : walk P.hhdm m.mem parent (leafPath v) = none := by
    rw [hpath, walk_append, walk_snoc, hw, Option.bind_some, nextLayer, if_neg hn,
      Option.bind_none]
  rw [leafEntry, hnone]
  exact not_present_zero

theorem walk_target {q : List Nat} {a i : Nat} (hw : walk P.hhdm m.mem parent q = some a)
    (hp : Present (m.mem (entryAddress a i))) :
    walk P.hhdm m.mem parent (q ++ [i]) = some (target P (m.mem (entryAddress a i))) := by
  rw [walk_snoc, hw, Option.bind_some, nextLayer, if_pos hp]; rfl

/-- The address that the loops rebuild from their indices. -/
theorem rebuilt_address {i1 i2 i3 i4 : Nat} (h2 : i2 < 512) (h3 : i3 < 512) (h4 : i4 < 512) :
    i4 <<< 12 ||| i3 <<< 21 ||| i2 <<< 30 ||| i1 <<< 39 =
      (((i1 * 512 + i2) * 512 + i3) * 512 + i4) * 4096 := by
  have e1 : i4 <<< 12 ||| i3 <<< 21 = (i3 * 512 + i4) * 4096 := by
    have hlt : i4 <<< 12 < 2 ^ 21 := by rw [Nat.shiftLeft_eq]; omega
    rw [Nat.or_comm, ← Nat.shiftLeft_add_eq_or_of_lt hlt, Nat.shiftLeft_eq, Nat.shiftLeft_eq]
    omega
  have e2 : (i3 * 512 + i4) * 4096 ||| i2 <<< 30 = ((i2 * 512 + i3) * 512 + i4) * 4096 := by
    rw [Nat.or_comm, ← Nat.shiftLeft_add_eq_or_of_lt (by omega), Nat.shiftLeft_eq]
    omega
  rw [e1, e2, Nat.or_comm, ← Nat.shiftLeft_add_eq_or_of_lt (by omega), Nat.shiftLeft_eq]
  omega

theorem valid_indices {i1 i2 i3 : Nat} (h1 : i1 < 0x100) (h2 : i2 < 0x200) (h3 : i3 < 0x200) :
    Valid 0x100 [i1] ∧ Valid 0x100 [i1, i2] ∧ Valid 0x100 [i1, i2, i3] := by
  have hv : Valid 0x100 ([i1, i2] ++ [i3]) := by
    refine ⟨by simp, fun i hi => ?_, fun i hi => ?_⟩
    · simp only [List.cons_append, List.nil_append, List.mem_cons, List.not_mem_nil, or_false] at hi
      omega
    · simp only [List.cons_append, List.head?_cons, Option.some.injEq] at hi
      omega
  have hv2 : Valid 0x100 ([i1] ++ [i2]) := hv.init
  exact ⟨hv2.init, hv2, hv⟩

/-- The innermost loop clones the 2 MiB of one last layer. -/
theorem clone_pages {i1 i2 i3 a : Nat} (ht : Tree P 0x100 m₀ parent) (hu : InUse P parent boot m₀)
    (h1 : i1 < 0x100) (h2 : i2 < 0x200) (h3 : i3 < 0x200)
    (hw : walk P.hhdm m₀.mem parent [i1, i2, i3] = some a)
    (h : Cloning P parent child boot m₀ (((i1 * 512 + i2) * 512 + i3) * 512) m)
    (hs : forPresent a 0x200 (fun i4 e4 =>
      cloneFrame P child (i4 <<< 12 ||| i3 <<< 21 ||| i2 <<< 30 ||| i1 <<< 39) e4) m = some m') :
    Cloning P parent child boot m₀ (((i1 * 512 + i2) * 512 + i3) * 512 + 0x200 * 1) m' := by
  -- the leaf of the page with this number is the entry that the loop reads
  have hleaf : ∀ v i4, vpn v = ((i1 * 512 + i2) * 512 + i3) * 512 + i4 → i4 < 512 →
      leafEntry P.hhdm m₀.mem parent v = m₀.mem (entryAddress a i4) := by
    intro v i4 hv h4
    have hpath : leafPath v = [i1, i2, i3] := by
      simp only [leafPath, pml3Index_eq, pml2Index_eq, pml1Index_eq, hv, List.cons.injEq, and_true]
      omega
    have hidx : pIndex v = i4 := by rw [pIndex_eq, hv]; omega
    rw [leafEntry, hpath, hw, hidx]
  refine forPresent_cloning ht (valid_indices h1 h2 h3).2.2 hw (Nat.le_refl _) ?_ ?_ h hs
  · intro i4 t t' h4 hp hc hb
    rw [rebuilt_address h2 h3 h4] at hb
    have hv : vpn ((((i1 * 512 + i2) * 512 + i3) * 512 + i4) * 4096) =
        ((i1 * 512 + i2) * 512 + i3) * 512 + i4 := by simp only [vpn]; omega
    have hl := hleaf _ i4 hv h4
    rw [← hl] at hp hb
    rw [Nat.mul_one] at hc ⊢
    rw [← Nat.add_assoc]
    exact cloneFrame_cloning hu hc (by rw [pml3Index_eq, hv]; omega) hv hp hb
  · intro i4 v h4 hn _ hge hlt
    rw [hleaf v i4 (by omega) h4]; exact hn

theorem clone_pml2 {i1 i2 a : Nat} (ht : Tree P 0x100 m₀ parent) (hu : InUse P parent boot m₀)
    (h1 : i1 < 0x100) (h2 : i2 < 0x200) (hw : walk P.hhdm m₀.mem parent [i1, i2] = some a)
    (h : Cloning P parent child boot m₀ ((i1 * 512 + i2) * 2 ^ 18) m)
    (hs : forPresent a 0x200 (fun i3 e3 => forPresent (target P e3) 0x200 fun i4 e4 =>
      cloneFrame P child (i4 <<< 12 ||| i3 <<< 21 ||| i2 <<< 30 ||| i1 <<< 39) e4) m = some m') :
    Cloning P parent child boot m₀ ((i1 * 512 + i2) * 2 ^ 18 + 0x200 * 2 ^ 9) m' := by
  refine forPresent_cloning ht (valid_indices h1 h2 h2).2.1 hw (Nat.le_refl _) ?_ ?_ h hs
  · intro i3 t t' h3 hp hc hb
    rw [show (i1 * 512 + i2) * 2 ^ 18 + i3 * 2 ^ 9 = ((i1 * 512 + i2) * 512 + i3) * 512 by
      omega] at hc
    rw [show (i1 * 512 + i2) * 2 ^ 18 + (i3 + 1) * 2 ^ 9 =
      ((i1 * 512 + i2) * 512 + i3) * 512 + 0x200 * 1 by omega]
    exact clone_pages ht hu h1 h2 h3 (walk_target hw hp) hc hb
  · intro i3 v h3 hn _ hge hlt
    apply not_present_below (t := []) hw hn
    simp only [leafPath, pml3Index_eq, pml2Index_eq, pml1Index_eq, List.cons_append,
      List.nil_append, List.cons.injEq, and_true]
    omega

theorem clone_pml3 {i1 a : Nat} (ht : Tree P 0x100 m₀ parent) (hu : InUse P parent boot m₀)
    (h1 : i1 < 0x100) (hw : walk P.hhdm m₀.mem parent [i1] = some a)
    (h : Cloning P parent child boot m₀ (i1 * 2 ^ 27) m)
    (hs : forPresent a 0x200 (fun i2 e2 => forPresent (target P e2) 0x200 fun i3 e3 =>
      forPresent (target P e3) 0x200 fun i4 e4 =>
        cloneFrame P child (i4 <<< 12 ||| i3 <<< 21 ||| i2 <<< 30 ||| i1 <<< 39) e4) m = some m') :
    Cloning P parent child boot m₀ (i1 * 2 ^ 27 + 0x200 * 2 ^ 18) m' := by
  have h0 : 0 < 0x200 := by decide
  refine forPresent_cloning ht (valid_indices h1 h0 h0).1 hw (Nat.le_refl _) ?_ ?_ h hs
  · intro i2 t t' h2 hp hc hb
    rw [show i1 * 2 ^ 27 + i2 * 2 ^ 18 = (i1 * 512 + i2) * 2 ^ 18 by omega] at hc
    rw [show i1 * 2 ^ 27 + (i2 + 1) * 2 ^ 18 = (i1 * 512 + i2) * 2 ^ 18 + 0x200 * 2 ^ 9 by omega]
    exact clone_pml2 ht hu h1 h2 (walk_target hw hp) hc hb
  · intro i2 v h2 hn _ hge hlt
    apply not_present_below (t := [pml1Index v]) hw hn
    simp only [leafPath, pml3Index_eq, pml2Index_eq, List.cons_append, List.nil_append,
      List.cons.injEq, and_true]
    omega

theorem cloneLowerHalf_cloning (ht : Tree P 0x100 m₀ parent) (hu : InUse P parent boot m₀)
    (h : Cloning P parent child boot m₀ 0 m) (hs : cloneLowerHalf P parent child m = some m') :
    Cloning P parent child boot m₀ (0 + 0x100 * 2 ^ 27) m' := by
  refine forPresent_cloning ht .nil rfl (by decide) ?_ ?_ h hs
  · intro i1 t t' h1 hp hc hb
    rw [Nat.zero_add] at hc ⊢
    rw [show (i1 + 1) * 2 ^ 27 = i1 * 2 ^ 27 + 0x200 * 2 ^ 18 by omega]
    exact clone_pml3 ht hu h1 (walk_target (q := []) rfl hp) hc hb
  · intro i1 v h1 hn _ hge hlt
    apply not_present_below (q := []) (t := [pml2Index v, pml1Index v]) rfl hn
    simp only [leafPath, pml3Index_eq, List.cons_append, List.nil_append, List.cons.injEq, and_true]
    omega

/-! ## The upper half -/

/-- What copying the upper half leaves in memory. -/
theorem copyHigherHalf_spec {table : Nat} (hta : Aligned table) (hbo : Aligned boot)
    (hne : boot ≠ table) : ∀ n, n ≤ 0x100 →
    (copyHigherHalf table boot n m).src = m.src ∧
    (∀ i, i < n → (copyHigherHalf table boot n m).mem (entryAddress table (0x100 + i)) =
      m.mem (entryAddress boot (0x100 + i))) ∧
    ∀ x, (∀ i, i < n → x ≠ entryAddress table (0x100 + i)) →
      (copyHigherHalf table boot n m).mem x = m.mem x := by
  intro n
  induction n with
  | zero => intro _; exact ⟨rfl, fun i hi => absurd hi (Nat.not_lt_zero i), fun x _ => rfl⟩
  | succ n ih =>
    intro hn
    obtain ⟨h1, h2, h3⟩ := ih (by omega)
    have hread : (copyHigherHalf table boot n m).mem (entryAddress boot (0x100 + n)) =
        m.mem (entryAddress boot (0x100 + n)) :=
      h3 _ fun i hi he => hne (entryAddress_inj hbo hta (by omega) (by omega) he).1
    refine ⟨h1, fun i hi => ?_, fun x hx => ?_⟩
    · simp only [copyHigherHalf, setEntry]
      by_cases hin : i = n
      · rw [hin, Mem.store_self, hread]
      · rw [Mem.store_ne, h2 i (by omega)]
        intro he
        have := (entryAddress_inj hta hta (by omega) (by omega) he).2
        omega
    · simp only [copyHigherHalf, setEntry]
      rw [Mem.store_ne _ _ (hx n (by omega)), h3 x fun i hi => hx i (by omega)]

/-- It does not touch the lower half. -/
theorem copyHigherHalf_untouched {table : Nat} (ht : Tree P 0x100 m table) (hbo : Aligned boot)
    (hne : boot ≠ table) :
    Untouched P 0x100 table m (copyHigherHalf table boot 0x100 m) := by
  have hta := (ht.layer [] table .nil rfl).toAligned
  obtain ⟨h1, -, h3⟩ := copyHigherHalf_spec (m := m) hta hbo hne 0x100 (Nat.le_refl _)
  intro p a hp hw
  have hla := ht.layer p a hp hw
  refine ⟨fun i hi hroot => h3 _ fun j hj he => ?_, by rw [h1]; exact hla.taken⟩
  obtain ⟨rfl, hij⟩ := entryAddress_inj hla.toAligned hta hi (by omega) he
  have := hroot (ht.inj p [] a hp .nil hw rfl)
  omega

/-- The new table, its upper half filled in, is where the walk starts. -/
theorem cloning_start (hu : InUse P parent boot m₀)
    (h : archTableManagerNew P m₀ = some (child, m)) :
    Cloning P parent child boot m₀ 0 (copyHigherHalf child boot 0x100 m) := by
  obtain ⟨hg, hmem⟩ := Machine.pageAllocate_spec h
  have hfc := free_of_grant hg
  have htree : Tree P 0x100 m child := archTableManagerNew_tree h
  have hlc := htree.layer [] child .nil rfl
  have hne : boot ≠ child := fun he => hu.bootstrap.taken (he ▸ hfc)
  have hunt := copyHigherHalf_untouched htree hu.bootstrap.toAligned hne
  obtain ⟨h1, h2, h3⟩ :=
    copyHigherHalf_spec (m := m) hlc.toAligned hu.bootstrap.toAligned hne 0x100 (Nat.le_refl _)
  refine ⟨hunt.tree htree, fun p a hp hw => ?_, fun x hx => hg.kept x (h1 ▸ hx), fun x hx => ?_,
    fun i hi hlt => ?_, fun v _ hlt => absurd hlt (Nat.not_lt_zero _), fun v hv _ => ?_⟩
  · rw [hunt.walk hp] at hw
    cases p with
    | nil => cases hw; exact hfc
    | cons i p =>
      rw [(archTableManagerNew_walk h (hp.index i (by simp))).2] at hw
      cases hw
  · refine ⟨child, hlc.page, hfc, ?_⟩
    by_contra hout
    apply hx
    rw [h3, hmem, Mem.zero_out _ (by omega)]
    intro i hi he
    have hin := entryAddress_mem hlc.toAligned (i := 0x100 + i) (by omega)
    omega
  · obtain ⟨j, rfl⟩ : ∃ j, i = 0x100 + j := ⟨i - 0x100, by omega⟩
    have hout := entryAddress_outside hu.bootstrap hlt hfc hg.aligned
    rw [h2 j (by omega), hmem, Mem.zero_out _ hout]
  · rw [hunt.leafEntry hv, archTableManagerNew_leaf h]

/-! ## Process tables -/

/-- The table of a process: created with the bootstrap table's upper half, as in
kernel/src/executables/elf.c:63-67, then mapped into at lower-half addresses,
while the rest of the kernel and the process itself do anything that is not to
the layers of the lower half. -/
def processLTS (P : PageSource σ) (boot : Nat) : LTS (Table σ) TableOp where
  init s := ∃ m m₁, Layer P m.src boot ∧ archTableManagerNew P m = some (s.root, m₁) ∧
    s.machine = copyHigherHalf s.root boot 0x100 m₁
  step s l t := t.root = s.root ∧ match l with
    | .map v p f => pml3Index v < 0x100 ∧ map P s.machine s.root v p f = some t.machine
    | .other => Untouched P 0x100 s.root s.machine t.machine

theorem process_inductive (P : PageSource σ) (boot : Nat) :
    (processLTS P boot).Inductive fun s => Tree P 0x100 s.machine s.root where
  init s h := by
    obtain ⟨m, m₁, hb, hnew, hm⟩ := h
    obtain ⟨hg, -⟩ := Machine.pageAllocate_spec hnew
    have hne : boot ≠ s.root := fun he => hb.taken (he ▸ free_of_grant hg)
    have htree : Tree P 0x100 m₁ s.root := archTableManagerNew_tree hnew
    rw [hm]
    exact (copyHigherHalf_untouched htree hb.toAligned hne).tree htree
  step s l t hs h := by
    obtain ⟨hr, h⟩ := h
    rw [hr]
    cases l with
    | map v p f => exact (map_spec hs h.1 h.2).1.tree
    | other => exact h.tree hs

/-- `a` is a layer of the table, or a frame of its lower half. The upper half is
the kernel's and maps all of memory, also what is free. -/
def Reaches (P : PageSource σ) (mem : Mem) (root a : Nat) : Prop :=
  (∃ p, Valid 0x200 p ∧ walk P.hhdm mem root p = some a) ∨
    ∃ v, pml3Index v < 0x100 ∧ Present (leafEntry P.hhdm mem root v) ∧ frame P mem root v = a

/-- `a` is a frame or a layer of the lower half. -/
def LowerPage (P : PageSource σ) (mem : Mem) (root a : Nat) : Prop :=
  (∃ p, Valid 0x100 p ∧ walk P.hhdm mem root p = some a) ∨
    ∃ v, pml3Index v < 0x100 ∧ Present (leafEntry P.hhdm mem root v) ∧ frame P mem root v = a

/-- The child in `m'` is an exact and separate copy of the parent in `m`. -/
structure Cloned (P : PageSource σ) (parent child boot : Nat) (m m' : Machine σ) : Prop where
  mapped : ∀ v, pml3Index v < 0x100 →
    (Present (leafEntry P.hhdm m'.mem child v) ↔ Present (leafEntry P.hhdm m.mem parent v))
  flags : ∀ v, pml3Index v < 0x100 → Present (leafEntry P.hhdm m.mem parent v) →
    leafEntry P.hhdm m'.mem child v &&& FLAGS_MASK = leafEntry P.hhdm m.mem parent v &&& FLAGS_MASK
  contents : ∀ v, pml3Index v < 0x100 → Present (leafEntry P.hhdm m.mem parent v) →
    ∀ x, x < PAGE →
      m'.mem (frame P m'.mem child v + x) = m.mem (frame P m.mem parent v + x)
  fresh : ∀ a, LowerPage P m'.mem child a → P.Free m.src a
  isolated : ∀ a, LowerPage P m'.mem child a → ¬Reaches P m'.mem parent a
  unchanged : ∀ a, Reaches P m.mem parent a → ∀ x, x < PAGE → m'.mem (a + x) = m.mem (a + x)
  higher : ∀ i, 0x100 ≤ i → i < 0x200 →
    m'.mem (entryAddress child i) = m'.mem (entryAddress boot i)

theorem InUse.reaches (hu : InUse P parent boot m) {a : Nat} (h : Reaches P m.mem parent a) :
    ¬P.Free m.src a := by
  rcases h with ⟨p, hp, hw⟩ | ⟨v, hv, hpr, rfl⟩
  · exact hu.layers p a hp hw
  · exact hu.frames v hv hpr

theorem Reaches.aligned (hpa : parent % PAGE = 0) {a : Nat} (h : Reaches P m.mem parent a) :
    a % PAGE = 0 := by
  rcases h with ⟨p, hp, hw⟩ | ⟨v, hv, hpr, rfl⟩
  · induction p using List.reverseRecOn with
    | nil => cases hw; exact hpa
    | append_singleton p i =>
      rw [walk_snoc, Option.bind_eq_some_iff] at hw
      obtain ⟨b, -, hb⟩ := hw
      rw [(present_of_nextLayer hb).2]
      exact target_aligned _
  · exact target_aligned _

/-- Nothing that the parent reaches is written while the child is built. -/
theorem Cloning.reaches {n : Nat} (h : Cloning P parent child boot m₀ n m)
    (hu : InUse P parent boot m₀) (hpa : parent % PAGE = 0) {a x : Nat}
    (ha : Reaches P m₀.mem parent a) (hx : x < PAGE) : m.mem (a + x) = m₀.mem (a + x) :=
  h.word (ha.aligned hpa) (hu.reaches ha) (Nat.le_add_right _ _) (Nat.add_lt_add_left hx _)

theorem entryAddress_offset {a i : Nat} (ha : a % PAGE = 0) (hlt : a < 2 ^ 64) (hi : i < 512) :
    entryAddress a i = a + 8 * i ∧ 8 * i < PAGE := by
  have : a + PAGE ≤ 2 ^ 64 := by simp only [PAGE] at *; omega
  exact ⟨entryAddress_eq ⟨ha, this⟩ hi, by simp only [PAGE]; omega⟩

/-- The parent's table leads to the same layers and frames as before. -/
theorem Cloning.parent_walk {n : Nat} (h : Cloning P parent child boot m₀ n m)
    (hu : InUse P parent boot m₀) (hpa : parent % PAGE = 0) (hlt : parent < 2 ^ 64) {p : List Nat}
    (hp : Valid 0x200 p) : walk P.hhdm m.mem parent p = walk P.hhdm m₀.mem parent p ∧
      ∀ a i, walk P.hhdm m₀.mem parent p = some a → i < 512 →
        m.mem (entryAddress a i) = m₀.mem (entryAddress a i) := by
  have hword : ∀ q a i, Valid 0x200 q → walk P.hhdm m₀.mem parent q = some a → i < 512 →
      m.mem (entryAddress a i) = m₀.mem (entryAddress a i) := by
    intro q a i hq hw hi
    have hr : Reaches P m₀.mem parent a := .inl ⟨q, hq, hw⟩
    have halt : a < 2 ^ 64 := by
      induction q using List.reverseRecOn with
      | nil => cases hw; exact hlt
      | append_singleton q j =>
        rw [walk_snoc, Option.bind_eq_some_iff] at hw
        obtain ⟨b, -, hb⟩ := hw
        rw [(present_of_nextLayer hb).2]
        exact add64_lt _ _
    obtain ⟨he, hoff⟩ := entryAddress_offset (hr.aligned hpa) halt hi
    rw [he]
    exact h.reaches hu hpa hr hoff
  refine ⟨walk_congr fun q i b hq hb => nextLayer_congr ?_, fun a i hw hi => hword p a i hp hw hi⟩
  have hv := hp.of_isPrefix hq
  exact hword q b i hv.init hb hv.last

theorem Cloning.parent_leaf {n : Nat} (h : Cloning P parent child boot m₀ n m)
    (hu : InUse P parent boot m₀) (hpa : parent % PAGE = 0) (hlt : parent < 2 ^ 64) (v : Nat) :
    leafEntry P.hhdm m.mem parent v = leafEntry P.hhdm m₀.mem parent v := by
  obtain ⟨hw, hword⟩ := h.parent_walk hu hpa hlt (valid_leafPath (pml3Index_lt v))
  unfold leafEntry
  rw [hw]
  cases hl : walk P.hhdm m₀.mem parent (leafPath v) with
  | none => rfl
  | some a => exact hword a _ hl (pIndex_lt v)

/-- When the walk is over, the child is the clone. -/
theorem Cloning.cloned (h : Cloning P parent child boot m₀ (0x100 * 2 ^ 27) m)
    (ht : Tree P 0x100 m₀ parent) (hu : InUse P parent boot m₀) :
    Cloned P parent child boot m₀ m := by
  have hroot := ht.layer [] parent .nil rfl
  have hplt : parent < 2 ^ 64 :=
    Nat.lt_of_lt_of_le (Nat.lt_add_of_pos_right (by decide)) hroot.below
  have hcopy : ∀ v, pml3Index v < 0x100 → Present (leafEntry P.hhdm m₀.mem parent v) →
      ∃ a, FrameCopy P parent child m₀ m v a := by
    intro v hv
    apply h.done v hv
    rw [pml3Index_eq] at hv; omega
  have hmapped : ∀ v, pml3Index v < 0x100 → (Present (leafEntry P.hhdm m.mem child v) ↔
      Present (leafEntry P.hhdm m₀.mem parent v)) := by
    intro v hv
    by_cases hp : Present (leafEntry P.hhdm m₀.mem parent v)
    · obtain ⟨a, ha⟩ := hcopy v hv hp
      exact ⟨fun _ => hp, fun _ => ha.present⟩
    · rw [h.todo v hv (.inr hp)]
      exact ⟨fun hc => absurd hc not_present_zero, fun hc => absurd hc hp⟩
  have hfresh : ∀ a, LowerPage P m.mem child a → P.Free m₀.src a := by
    rintro a (⟨p, hp, hw⟩ | ⟨v, hv, hpr, rfl⟩)
    · exact h.layers p a hp hw
    · obtain ⟨a, ha⟩ := hcopy v hv ((hmapped v hv).mp hpr)
      rw [ha.address]; exact ha.fresh
  refine ⟨hmapped, fun v hv hp => ?_, fun v hv hp x hx => ?_, hfresh, fun a ha hr => ?_,
    fun a ha x hx => h.reaches hu hroot.page ha hx, fun i h1 h2 => ?_⟩
  · obtain ⟨a, ha⟩ := hcopy v hv hp
    exact ha.flags
  · obtain ⟨a, ha⟩ := hcopy v hv hp
    rw [ha.address]; exact ha.words x hx
  · refine hu.reaches (?_ : Reaches P m₀.mem parent a) (hfresh a ha)
    rcases hr with ⟨p, hp, hw⟩ | ⟨v, hv, hpr, hf⟩
    · exact .inl ⟨p, hp, (h.parent_walk hu hroot.page hplt hp).1 ▸ hw⟩
    · rw [frame, h.parent_leaf hu hroot.page hplt] at hf
      rw [h.parent_leaf hu hroot.page hplt] at hpr
      exact .inr ⟨v, hv, hpr, hf⟩
  · have hin := entryAddress_mem hu.bootstrap.toAligned h2
    rw [h.higher i h1 h2, h.word hu.bootstrap.page hu.bootstrap.taken hin.1 hin.2]

theorem sysForkAddressSpace_eq_some_iff {cr3 cr3' : Nat} :
    sysForkAddressSpace P boot cr3 m = some (cr3', m') ↔
      ∃ child m₁, archTableManagerNew P m = some (child, m₁) ∧
        cloneLowerHalf P (add64 cr3 P.hhdm) child (copyHigherHalf child boot 0x100 m₁) = some m' ∧
        sub64 child P.hhdm = cr3' := by
  simp only [sysForkAddressSpace, Option.bind_eq_bind, Option.bind_eq_some_iff, Prod.exists,
    Option.pure_def, Option.some.injEq, Prod.mk.injEq]
  constructor
  · intro ⟨child, m₁, h1, m₂, h2, h3, h4⟩
    exact ⟨child, m₁, h1, h4 ▸ h2, h3⟩
  · intro ⟨child, m₁, h1, h2, h3⟩
    exact ⟨child, m₁, h1, m', h2, h3, rfl⟩

/-- **Fork clones the address space.** From every process table, with everything
that the parent uses kept out of the free pages: the child maps the same
lower-half pages with the same flags and contents, shares no page of its lower
half with the parent, leaves the parent as it was, and has the bootstrap
table's upper half. -/
theorem fork_clones_address_space {s : Table σ} (hs : (processLTS P boot).Reachable s)
    (hu : InUse P s.root boot s.machine) {cr3 : Nat}
    (h : sysForkAddressSpace P boot (sub64 s.root P.hhdm) s.machine = some (cr3, m')) :
    Cloned P s.root (add64 cr3 P.hhdm) boot s.machine m' := by
  have ht := (process_inductive P boot).reachable hs
  obtain ⟨-, -, hparent⟩ := (ht.layer [] s.root .nil rfl).physicalAddress
  rw [sysForkAddressSpace_eq_some_iff, hparent] at h
  obtain ⟨child, m₁, hnew, hclone, rfl⟩ := h
  have hstart := cloning_start hu hnew
  obtain ⟨-, -, hchild⟩ := (hstart.tree.layer [] child .nil rfl).physicalAddress
  rw [hchild]
  have hend := cloneLowerHalf_cloning ht hu hstart hclone
  rw [Nat.zero_add] at hend
  exact hend.cloned ht hu

/-! ## A process with one page -/

/-- Copying an upper half onto an equal one changes nothing. -/
theorem copyHigherHalf_same {table : Nat} : ∀ n,
    (∀ i, i < n → m.mem (entryAddress boot (0x100 + i)) = m.mem (entryAddress table (0x100 + i))) →
    copyHigherHalf table boot n m = m := by
  intro n
  induction n with
  | zero => intro _; rfl
  | succ n ih =>
    intro h
    rw [copyHigherHalf, ih fun i hi => h i (Nat.lt_succ_of_lt hi), h n (Nat.lt_succ_self n),
      setEntry, Mem.store_same]

/-- A process's table next to `smallTable`, an empty bootstrap table. -/
def smallProcess : Table Nat :=
  match archTableManagerNew smallSource smallTable.machine with
  | some (root, machine) => ⟨root, machine⟩
  | none => smallTable

theorem smallProcess_map :
    (map smallSource smallProcess.machine smallProcess.root 0x400000 0x100000 6).isSome := by
  decide +kernel

/-- The process with one page mapped. -/
def smallParent : Table Nat :=
  ⟨smallProcess.root,
    (map smallSource smallProcess.machine smallProcess.root 0x400000 0x100000 6).get
      smallProcess_map⟩

theorem smallBoot_layer {src : Nat} (h : 1 ≤ src) : Layer smallSource src smallTable.root := by
  refine ⟨⟨by decide, by decide⟩, by decide, by decide, fun ⟨k, h1, h2, h3⟩ => ?_⟩
  have h3 : 0xFFFF800000001000 = 0xFFFF800000000000 + (k + 1) * PAGE := h3
  simp only [PAGE] at h3; omega

theorem smallProcess_new : archTableManagerNew smallSource smallTable.machine =
    some (smallProcess.root, smallProcess.machine) := rfl

theorem smallParent_reachable :
    (processLTS smallSource smallTable.root).Reachable smallParent := by
  refine LTS.Reachable.step (s := smallProcess) (l := .map 0x400000 0x100000 6) (.init ?_) ?_
  · refine ⟨smallTable.machine, smallProcess.machine, smallBoot_layer (by decide),
      smallProcess_new, ?_⟩
    rw [copyHigherHalf_same]
    decide +kernel
  · exact ⟨rfl, by decide, (Option.some_get smallProcess_map).symm⟩

theorem smallParent_src : smallParent.machine.src = 5 := by decide +kernel

theorem smallParent_inUse :
    InUse smallSource smallParent.root smallTable.root smallParent.machine := by
  have ht := (process_inductive smallSource smallTable.root).reachable smallParent_reachable
  have ht₀ : Tree smallSource 0x100 smallProcess.machine smallProcess.root :=
    archTableManagerNew_tree smallProcess_new
  have hmap : map smallSource smallProcess.machine smallProcess.root 0x400000 0x100000 6 =
      some smallParent.machine := (Option.some_get smallProcess_map).symm
  obtain ⟨hg, hself, hother⟩ := map_spec ht₀ (by decide) hmap
  rw [archTableManagerNew_leaf smallProcess_new] at hself
  refine ⟨smallBoot_layer (by rw [smallParent_src]; decide), fun p a hp hw => ?_,
    fun v hv hpr => ?_⟩
  · cases p with
    | nil => cases hw; exact (ht.layer [] _ .nil rfl).taken
    | cons i p =>
      by_cases hi : i < 0x100
      · exact (ht.layer _ a ⟨hp.depth, hp.index, by simpa using hi⟩ hw).taken
      · -- the upper half of this process is empty
        have hlt := hp.index i (by simp)
        have hz : smallParent.machine.mem (entryAddress smallParent.root i) = 0 :=
          (hg.upper i (by omega) hlt).trans (archTableManagerNew_walk smallProcess_new hlt).1
        rw [walk, nextLayer_zero hz] at hw
        cases hw
  · by_cases he : vpn v = vpn 0x400000
    · have hleaf : leafEntry smallSource.hhdm smallParent.machine.mem smallParent.root v =
          setAddress (0 ||| (6 ||| TABLE_ENTRY_PRESENT)) 0x100000 :=
        (leafEntry_congr _ _ he).trans hself
      rw [frame, hleaf, smallParent_src]
      rintro ⟨k, h1, h2, h3⟩
      have h3 : 0xFFFF800000100000 = 0xFFFF800000000000 + (k + 1) * PAGE := h3
      simp only [PAGE] at h3; omega
    · have hleaf : leafEntry smallSource.hhdm smallParent.machine.mem smallParent.root v = 0 :=
        (hother v hv he).trans (archTableManagerNew_leaf smallProcess_new v)
      rw [hleaf] at hpr
      exact absurd hpr not_present_zero

/-- The machine when `fork` has taken a page for the child's table. -/
def smallFork : Machine Nat := ⟨smallParent.machine.mem.zero 0xFFFF800000006000 PAGE, 6⟩

theorem smallFork_new :
    archTableManagerNew smallSource smallParent.machine = some (0xFFFF800000006000, smallFork) := by
  rw [archTableManagerNew, Machine.pageAllocate, smallParent_src]; rfl

theorem smallFork_clone :
    (cloneLowerHalf smallSource 0xFFFF800000002000 0xFFFF800000006000 smallFork).isSome := by
  decide +kernel

theorem smallFork_upper : ∀ i, i < 0x100 →
    smallFork.mem (entryAddress smallTable.root (0x100 + i)) =
      smallFork.mem (entryAddress 0xFFFF800000006000 (0x100 + i)) := by
  decide +kernel

/-- The page that `smallParent` has is in its child too. -/
theorem fork_clones_small :
    ∃ cr3 m', sysForkAddressSpace smallSource smallTable.root
        (sub64 smallParent.root smallSource.hhdm) smallParent.machine = some (cr3, m') ∧
      Present (leafEntry smallSource.hhdm m'.mem (add64 cr3 smallSource.hhdm) 0x400000) := by
  have hparent : add64 (sub64 smallParent.root smallSource.hhdm) smallSource.hhdm =
      0xFFFF800000002000 := by decide
  obtain ⟨m', hclone⟩ := Option.isSome_iff_exists.mp smallFork_clone
  have h : sysForkAddressSpace smallSource smallTable.root
      (sub64 smallParent.root smallSource.hhdm) smallParent.machine =
        some (sub64 0xFFFF800000006000 smallSource.hhdm, m') := by
    rw [sysForkAddressSpace_eq_some_iff, hparent]
    refine ⟨_, smallFork, smallFork_new, ?_, rfl⟩
    rw [copyHigherHalf_same 0x100 smallFork_upper]
    exact hclone
  have hc := fork_clones_address_space smallParent_reachable smallParent_inUse h
  refine ⟨_, m', h, (hc.mapped 0x400000 (by decide)).mpr ?_⟩
  decide +kernel

end GaOS.L5.Fork
