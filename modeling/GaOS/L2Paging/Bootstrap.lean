import GaOS.L2Paging.MapRange

/-!
# The bootstrap table

Model of `arch_table_manager_create_bootstrap_table_limine`
(kernel/src/arch/x86_64/page_table_manager/table_manager.c:161-187): one range for every
entry of the memory map. The kernel's image goes to where the boot loader has put it, every
other entry into the direct map, its base rounded down and its length cut to whole pages.

`Bootable` is what the boot protocol promises of the addresses: the direct map and the
image are in the upper part of the address space, and the image is above. The memory map
itself is any list of entries.

`bootstrap_direct` says which pages of the direct map the table has: those that some entry
`Maps`. `bootstrap_present` says that it has nothing else but the image.
-/
namespace GaOS.L2.Bootstrap

open GaOS.L1 GaOS.L1.PageAllocator GaOS.L2.TableManager

/-! ## The code -/

/-- The answers of the boot loader. -/
structure BootInfo where
  /-- `kernel_memmap_request` -/
  memmap : List MemmapEntry
  /-- `kernel_executable_address_request` -/
  physicalBase : Nat
  virtualBase : Nat

/-- mirrors kernel/src/arch/x86_64/page_table_manager/table_manager.c:175-178 -/
def roundDown (base : Nat) : Nat :=
  if base % PAGE ≠ 0 then sub64 base (base % PAGE) else base

section
variable {σ : Type} (P : PageSource σ) (info : BootInfo)

/-- mirrors kernel/src/arch/x86_64/page_table_manager/table_manager.c:171-186 -/
def mapEntry (table : Nat) (m : Machine σ) (e : MemmapEntry) : Option (Machine σ) :=
  let physicalBase := roundDown e.base
  let virtualBase := add64 physicalBase P.hhdm
  if e.type = .executableAndModules then
    mapRange P m table info.virtualBase info.physicalBase TABLE_ENTRY_READ_WRITE (e.length / PAGE)
  else mapRange P m table virtualBase physicalBase TABLE_ENTRY_READ_WRITE (e.length / PAGE)

/-- mirrors kernel/src/arch/x86_64/page_table_manager/table_manager.c:161-187 -/
def createBootstrapTable (m : Machine σ) : Option (Nat × Machine σ) := do
  let (table, m) ← archTableManagerNew P m
  let m ← info.memmap.foldlM (mapEntry P info table) m
  return (table, m)

/-! ## The boot protocol -/

structure Bootable : Prop where
  upper : 2 ^ 64 - 2 ^ 48 ≤ P.hhdm
  /-- the direct map ends below the image -/
  direct : ∀ e ∈ info.memmap, e.type ≠ .executableAndModules →
    P.hhdm + (e.base + e.length) ≤ info.virtualBase
  image : ∀ e ∈ info.memmap, e.type = .executableAndModules →
    info.virtualBase + e.length ≤ 2 ^ 64 - 2 ^ 21
  aligned : info.virtualBase % PAGE = 0
  above : P.hhdm ≤ info.virtualBase
  room : info.virtualBase ≤ 2 ^ 64 - 2 ^ 21

end

/-! ## Pages of the direct map -/

/-- The loop maps page `n` of the direct map for this entry. -/
def Maps (e : MemmapEntry) (n : Nat) : Prop :=
  e.type ≠ .executableAndModules ∧ e.base / PAGE ≤ n ∧ n < e.base / PAGE + e.length / PAGE

instance (e : MemmapEntry) (n : Nat) : Decidable (Maps e n) := inferInstanceAs (Decidable (_ ∧ _))

/-- A page of the kernel's image. -/
def InImage (info : BootInfo) (v : Nat) : Prop :=
  ∃ e ∈ info.memmap, e.type = .executableAndModules ∧ vpn info.virtualBase ≤ vpn v ∧
    vpn v < vpn info.virtualBase + e.length / PAGE

variable {σ : Type} {P : PageSource σ} {info : BootInfo} {root : Nat} {m m' : Machine σ}
  {e : MemmapEntry}

theorem roundDown_eq {base : Nat} (h : base < 2 ^ 64) : roundDown base = base / PAGE * PAGE := by
  unfold roundDown
  simp only [PAGE]
  split
  · rw [sub64_of_le (Nat.mod_le _ _) h]
    omega
  · omega

/-- Above the direct map's offset the page numbers do not wrap. -/
theorem vpn_direct (hu : 2 ^ 64 - 2 ^ 48 ≤ P.hhdm) {a : Nat} (h : P.hhdm + a < 2 ^ 64) :
    vpn (P.hhdm + a) = vpn P.hhdm + a / PAGE := by
  have hal := P.hhdm_aligned
  simp only [PAGE] at *
  unfold vpn
  omega

theorem Bootable.direct_range (hb : Bootable P info) (he : e ∈ info.memmap)
    (hne : e.type ≠ .executableAndModules) :
    add64 (roundDown e.base) P.hhdm = P.hhdm + e.base / PAGE * PAGE ∧
      RangeOk (P.hhdm + e.base / PAGE * PAGE) (e.length / PAGE) := by
  have hu := hb.upper
  have hd := hb.direct e he hne
  have hroom := hb.room
  constructor
  · rw [roundDown_eq (by omega)]
    simp only [PAGE, add64]
    omega
  · simp only [RangeOk, PAGE]
    omega

theorem Bootable.image_range (hb : Bootable P info) (he : e ∈ info.memmap)
    (hx : e.type = .executableAndModules) : RangeOk info.virtualBase (e.length / PAGE) := by
  have hu := hb.upper
  have ha := hb.above
  have hi := hb.image e he hx
  simp only [RangeOk, PAGE]
  omega

/-! ## One entry -/

/-- An entry is one range that can be mapped. -/
theorem mapEntry_range (hb : Bootable P info) (he : e ∈ info.memmap)
    (h : mapEntry P info root m e = some m') :
    ∃ v p, RangeOk v (e.length / PAGE) ∧
      mapRange P m root v p TABLE_ENTRY_READ_WRITE (e.length / PAGE) = some m' ∧
      (e.type = .executableAndModules ∧ v = info.virtualBase ∨
        e.type ≠ .executableAndModules ∧ v = P.hhdm + e.base / PAGE * PAGE ∧
          p = e.base / PAGE * PAGE) := by
  unfold mapEntry at h
  by_cases hx : e.type = .executableAndModules
  · rw [if_pos hx] at h
    exact ⟨_, _, hb.image_range he hx, h, .inl ⟨hx, rfl⟩⟩
  · have hu := hb.upper
    have hd := hb.direct e he hx
    have hroom := hb.room
    obtain ⟨hstart, hr⟩ := hb.direct_range he hx
    rw [if_neg hx, hstart, roundDown_eq (by omega)] at h
    exact ⟨_, _, hr, h, .inr ⟨hx, rfl, rfl⟩⟩

theorem mapEntry_tree (hb : Bootable P info) (he : e ∈ info.memmap) (ht : Tree P 512 m root)
    (h : mapEntry P info root m e = some m') : Tree P 512 m' root := by
  obtain ⟨v, p, hr, hm, -⟩ := mapEntry_range hb he h
  obtain ⟨m₂, -, -, hg, -⟩ := mapRange_some ht hr hm
  exact hg.tree

/-- A page of the direct map after one entry. -/
theorem mapEntry_direct (hb : Bootable P info) (he : e ∈ info.memmap) (ht : Tree P 512 m root)
    (h : mapEntry P info root m e = some m') {a : Nat} (ha : P.hhdm + a < info.virtualBase) :
    leafEntry P.hhdm m'.mem root (P.hhdm + a) =
      if Maps e (a / PAGE) then
        setAddress (leafEntry P.hhdm m.mem root (P.hhdm + a) |||
          (TABLE_ENTRY_READ_WRITE ||| TABLE_ENTRY_PRESENT)) (a / PAGE * PAGE)
      else leafEntry P.hhdm m.mem root (P.hhdm + a) := by
  have hu := hb.upper
  have hroom := hb.room
  have hva := vpn_direct hu (a := a) (by omega)
  obtain ⟨v, p, hr, hm, hx | ⟨hx, rfl, rfl⟩⟩ := mapEntry_range hb he h
  · -- the image is above
    obtain ⟨hx, rfl⟩ := hx
    have habove := hb.above
    have hal := hb.aligned
    have hhal := P.hhdm_aligned
    have hvb := vpn_direct hu (a := info.virtualBase - P.hhdm) (by omega)
    rw [Nat.add_sub_cancel' habove] at hvb
    rw [mapRange_leaf ht hr hm, if_neg, if_neg fun hc => hc.1 hx]
    simp only [PAGE] at *
    omega
  · have hd := hb.direct e he hx
    have hvs := vpn_direct hu (a := e.base / PAGE * PAGE) (by simp only [PAGE]; omega)
    rw [Nat.mul_div_cancel _ (by decide)] at hvs
    rw [mapRange_leaf ht hr hm, hva, hvs]
    by_cases hc : Maps e (a / PAGE)
    · have h1 := hc.2.1
      have h2 := hc.2.2
      have hpage : pageAfter (e.base / PAGE * PAGE)
          (vpn P.hhdm + a / PAGE - (vpn P.hhdm + e.base / PAGE)) = a / PAGE * PAGE := by
        simp only [pageAfter, add64, mul64, PAGE] at *
        omega
      rw [if_pos hc, if_pos ⟨by omega, by omega⟩, hpage]
    · have h1 : ¬(e.base / PAGE ≤ a / PAGE ∧ a / PAGE < e.base / PAGE + e.length / PAGE) :=
        fun h1 => hc ⟨hx, h1⟩
      rw [if_neg hc, if_neg (by omega)]

/-- What an entry makes present. -/
theorem mapEntry_present (hb : Bootable P info) (he : e ∈ info.memmap) (ht : Tree P 512 m root)
    (h : mapEntry P info root m e = some m') {v : Nat}
    (hv : Present (leafEntry P.hhdm m'.mem root v)) :
    Present (leafEntry P.hhdm m.mem root v) ∨
      (∃ n, Maps e n ∧ vpn v = vpn P.hhdm + n) ∨ InImage info v := by
  obtain ⟨v₀, p, hr, hm, hx⟩ := mapEntry_range hb he h
  rcases (mapRange_present ht hr hm v).mp hv with hv | hin
  · exact .inl hv
  · right
    rcases hx with ⟨hx, rfl⟩ | ⟨hx, rfl, -⟩
    · exact .inr ⟨e, he, hx, hin⟩
    · have hu := hb.upper
      have hroom := hb.room
      have hd := hb.direct e he hx
      have hvs := vpn_direct hu (a := e.base / PAGE * PAGE) (by simp only [PAGE]; omega)
      rw [Nat.mul_div_cancel _ (by decide)] at hvs
      rw [hvs, Nat.add_assoc] at hin
      obtain ⟨n, hn⟩ := Nat.exists_eq_add_of_le (Nat.le_trans (Nat.le_add_right _ _) hin.1)
      rw [hn] at hin
      exact .inl ⟨n, ⟨hx, Nat.le_of_add_le_add_left hin.1, Nat.lt_of_add_lt_add_left hin.2⟩, hn⟩

/-! ## The whole map -/

/-- Address `a` is reached through the direct map. -/
def Backed (P : PageSource σ) (root a : Nat) (m : Machine σ) : Prop :=
  Present (leafEntry P.hhdm m.mem root (P.hhdm + a)) ∧
    getAddress (leafEntry P.hhdm m.mem root (P.hhdm + a)) = a / PAGE * PAGE

theorem backed_of_maps (hb : Bootable P info) (he : e ∈ info.memmap) (ht : Tree P 512 m root)
    (h : mapEntry P info root m e = some m') {a : Nat} (ha : P.hhdm + a < info.virtualBase)
    (hmaps : Maps e (a / PAGE)) : Backed P root a m' := by
  have hu := hb.upper
  have hroom := hb.room
  unfold Backed
  rw [mapEntry_direct hb he ht h ha, if_pos hmaps]
  constructor
  · exact present_mapped _ _ _
  · exact getAddress_setAddress _ (Nat.mul_mod_left _ _) (by simp only [PAGE]; omega)

/-- The loop over the entries: what is backed stays so, an entry backs its pages, and a page
of no entry is left alone. -/
theorem mapEntries_backed (hb : Bootable P info) : ∀ (es : List MemmapEntry) (m m' : Machine σ),
    (∀ e ∈ es, e ∈ info.memmap) → Tree P 512 m root →
    es.foldlM (mapEntry P info root) m = some m' →
    Tree P 512 m' root ∧ ∀ a, P.hhdm + a < info.virtualBase →
      ((Backed P root a m ∨ ∃ e ∈ es, Maps e (a / PAGE)) → Backed P root a m') ∧
      ((¬∃ e ∈ es, Maps e (a / PAGE)) → leafEntry P.hhdm m'.mem root (P.hhdm + a) =
        leafEntry P.hhdm m.mem root (P.hhdm + a)) := by
  intro es
  induction es with
  | nil =>
    intro m m' _ ht h
    cases h
    refine ⟨ht, fun a _ => ⟨fun hback => ?_, fun _ => rfl⟩⟩
    rcases hback with hback | ⟨e, he, -⟩
    · exact hback
    · simp at he
  | cons e es ih =>
    intro m m' hes ht h
    simp only [List.foldlM_cons, Option.bind_eq_bind, Option.bind_eq_some_iff] at h
    obtain ⟨m₁, h1, h2⟩ := h
    have he := hes e (List.mem_cons_self ..)
    obtain ⟨ht', hrest⟩ := ih m₁ m' (fun e he => hes e (List.mem_cons_of_mem _ he))
      (mapEntry_tree hb he ht h1) h2
    refine ⟨ht', fun a ha => ?_⟩
    obtain ⟨hback, hsame⟩ := hrest a ha
    have hstep := mapEntry_direct hb he ht h1 ha
    constructor
    · intro hor
      apply hback
      by_cases hmaps : Maps e (a / PAGE)
      · exact .inl (backed_of_maps hb he ht h1 ha hmaps)
      · rw [if_neg hmaps] at hstep
        rcases hor with hor | ⟨e', he', hmaps'⟩
        · unfold Backed
          rw [hstep]
          exact .inl hor
        · rcases List.mem_cons.mp he' with rfl | he'
          · exact absurd hmaps' hmaps
          · exact .inr ⟨e', he', hmaps'⟩
    · intro hnone
      have hmaps : ¬Maps e (a / PAGE) := fun hc => hnone ⟨e, List.mem_cons_self .., hc⟩
      rw [if_neg hmaps] at hstep
      rw [hsame fun ⟨e', he', hc⟩ => hnone ⟨e', List.mem_cons_of_mem _ he', hc⟩, hstep]

theorem mapEntries_present (hb : Bootable P info) {v : Nat} :
    ∀ (es : List MemmapEntry) (m m' : Machine σ), (∀ e ∈ es, e ∈ info.memmap) →
    Tree P 512 m root → es.foldlM (mapEntry P info root) m = some m' →
    Present (leafEntry P.hhdm m'.mem root v) →
    Present (leafEntry P.hhdm m.mem root v) ∨
      (∃ e ∈ es, ∃ n, Maps e n ∧ vpn v = vpn P.hhdm + n) ∨ InImage info v := by
  intro es
  induction es with
  | nil =>
    intro m m' _ _ h hv
    cases h
    exact .inl hv
  | cons e es ih =>
    intro m m' hes ht h hv
    simp only [List.foldlM_cons, Option.bind_eq_bind, Option.bind_eq_some_iff] at h
    obtain ⟨m₁, h1, h2⟩ := h
    have he := hes e (List.mem_cons_self ..)
    rcases ih m₁ m' (fun e he => hes e (List.mem_cons_of_mem _ he))
      (mapEntry_tree hb he ht h1) h2 hv with hv | ⟨e', he', hn⟩ | hv
    · rcases mapEntry_present hb he ht h1 hv with hv | hn | hv
      · exact .inl hv
      · exact .inr (.inl ⟨e, List.mem_cons_self .., hn⟩)
      · exact .inr (.inr hv)
    · exact .inr (.inl ⟨e', List.mem_cons_of_mem _ he', hn⟩)
    · exact .inr (.inr hv)

/-- The image is mapped. -/
theorem mapEntries_image (hb : Bootable P info) {v : Nat} :
    ∀ (es : List MemmapEntry) (m m' : Machine σ), (∀ e ∈ es, e ∈ info.memmap) →
    Tree P 512 m root → es.foldlM (mapEntry P info root) m = some m' →
    (Present (leafEntry P.hhdm m.mem root v) ∨
      ∃ e ∈ es, e.type = .executableAndModules ∧ vpn info.virtualBase ≤ vpn v ∧
        vpn v < vpn info.virtualBase + e.length / PAGE) →
    Present (leafEntry P.hhdm m'.mem root v) := by
  intro es
  induction es with
  | nil =>
    intro m m' _ _ h hor
    cases h
    rcases hor with hv | ⟨e, he, -⟩
    · exact hv
    · simp at he
  | cons e es ih =>
    intro m m' hes ht h hor
    simp only [List.foldlM_cons, Option.bind_eq_bind, Option.bind_eq_some_iff] at h
    obtain ⟨m₁, h1, h2⟩ := h
    have he := hes e (List.mem_cons_self ..)
    obtain ⟨v₀, p, hr, hm, hx⟩ := mapEntry_range hb he h1
    have hkeep := mapRange_present ht hr hm v
    refine ih m₁ m' (fun e he => hes e (List.mem_cons_of_mem _ he))
      (mapEntry_tree hb he ht h1) h2 ?_
    rcases hor with hv | ⟨e', he', hx', hin⟩
    · exact .inl (hkeep.mpr (.inl hv))
    · rcases List.mem_cons.mp he' with rfl | he'
      · -- this entry maps it
        rcases hx with ⟨-, rfl⟩ | ⟨hx, -⟩
        · exact .inl (hkeep.mpr (.inr hin))
        · exact absurd hx' hx
      · exact .inr ⟨e', he', hx', hin⟩

/-! ## The table -/

theorem createBootstrapTable_some (h : createBootstrapTable P info m = some (root, m')) :
    ∃ m₁, archTableManagerNew P m = some (root, m₁) ∧
      info.memmap.foldlM (mapEntry P info root) m₁ = some m' := by
  simp only [createBootstrapTable, Option.bind_eq_bind, Option.bind_eq_some_iff, Option.pure_def,
    Option.some.injEq, Prod.mk.injEq, Prod.exists] at h
  obtain ⟨_, m₁, hnew, _, hfold, rfl, rfl⟩ := h
  exact ⟨m₁, hnew, hfold⟩

theorem bootstrap_tree (hb : Bootable P info)
    (h : createBootstrapTable P info m = some (root, m')) : Tree P 512 m' root := by
  obtain ⟨m₁, hnew, hfold⟩ := createBootstrapTable_some h
  exact (mapEntries_backed hb _ m₁ m' (fun _ he => he) (archTableManagerNew_tree hnew) hfold).1

/-- The direct map reaches an address above the first page iff the loop maps its page for
some entry. -/
theorem bootstrap_direct (hb : Bootable P info)
    (h : createBootstrapTable P info m = some (root, m')) {a : Nat} (hp : PAGE ≤ a)
    (ha : P.hhdm + a < info.virtualBase) :
    translateToPhysical P m' root (add64 P.hhdm a) = a / PAGE * PAGE ↔
      ∃ e ∈ info.memmap, Maps e (a / PAGE) := by
  have hroom := hb.room
  obtain ⟨m₁, hnew, hfold⟩ := createBootstrapTable_some h
  obtain ⟨ht, hall⟩ := mapEntries_backed hb _ m₁ m' (fun _ he => he)
    (archTableManagerNew_tree hnew) hfold
  obtain ⟨hback, hsame⟩ := hall a ha
  rw [add64_of_lt (by omega), translateToPhysical_eq ht (pml3Index_lt _)]
  by_cases hmaps : ∃ e ∈ info.memmap, Maps e (a / PAGE)
  · obtain ⟨hpresent, haddr⟩ := hback (.inr hmaps)
    rw [if_pos hpresent]
    exact iff_of_true haddr hmaps
  · rw [hsame hmaps, archTableManagerNew_leaf hnew, if_neg not_present_zero]
    refine iff_of_false ?_ hmaps
    simp only [PAGE] at hp ⊢
    omega

/-- What the table has is a page of the direct map for some entry, or one of the image. -/
theorem bootstrap_present (hb : Bootable P info)
    (h : createBootstrapTable P info m = some (root, m')) {v : Nat}
    (hv : Present (leafEntry P.hhdm m'.mem root v)) :
    (∃ e ∈ info.memmap, ∃ n, Maps e n ∧ vpn v = vpn P.hhdm + n) ∨ InImage info v := by
  obtain ⟨m₁, hnew, hfold⟩ := createBootstrapTable_some h
  refine (mapEntries_present hb _ m₁ m' (fun _ he => he) (archTableManagerNew_tree hnew) hfold
    hv).resolve_left ?_
  rw [archTableManagerNew_leaf hnew]
  exact not_present_zero

theorem bootstrap_image (hb : Bootable P info)
    (h : createBootstrapTable P info m = some (root, m')) {v : Nat} (hv : InImage info v) :
    Present (leafEntry P.hhdm m'.mem root v) := by
  obtain ⟨m₁, hnew, hfold⟩ := createBootstrapTable_some h
  exact mapEntries_image hb _ m₁ m' (fun _ he => he) (archTableManagerNew_tree hnew) hfold (.inr hv)

end GaOS.L2.Bootstrap
