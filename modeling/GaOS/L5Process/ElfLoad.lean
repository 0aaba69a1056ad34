import GaOS.L2Paging.Interior
import GaOS.L5Process.Elf

/-!
# What loading an executable does to memory

The two loops of `elf_load_from` over the program headers read the same headers
(`headers`) when all of them are in the file, and the second one maps pages, one
after the other (`pagesOf`). `Loaded` is the invariant of that: a list says, latest
first, which page got which bytes, and the table maps every page of the list to a
frame of its own with the latest of its contents.
-/
namespace GaOS.L5.Elf

open GaOS.L1 GaOS.L1.PageAllocator GaOS.L2.TableManager GaOS.L4.RoundRobin GaOS.L4.Ustar
open GaOS.L5.Fork (copyHigherHalf frame target untouched_fill)

variable {σ : Type} {P : PageSource σ} {node : Node} {table : Nat} {m m₁ m₂ m' : Machine σ}

/-! ## The headers -/

/-- The program headers as a loop over them sees them. -/
def headers (node : Node) (phoff : Nat) : Nat → Buffer → Option (Buffer × List Phdr)
  | 0, buffer => some (buffer, [])
  | n + 1, buffer => do
    let (buffer, hs) ← headers node phoff n buffer
    let buffer ← readPhdr node phoff n buffer
    return (buffer, hs ++ [buffer.phdr])

def loadable (hs : List Phdr) : List Phdr := hs.filter (·.type = PT_LOAD)

/-- The least address of the segments. -/
def lowest (hs : List Phdr) : Nat :=
  hs.foldl (fun base h => if h.vaddr < base then h.vaddr else base) (2 ^ 64 - 1)

theorem loadable_snoc (hs : List Phdr) (h : Phdr) :
    loadable (hs ++ [h]) = loadable hs ++ if h.type = PT_LOAD then [h] else [] := by
  unfold loadable
  rw [List.filter_append, List.filter_singleton]
  by_cases ht : h.type = PT_LOAD <;> simp [ht]

theorem lowest_snoc (hs : List Phdr) (h : Phdr) :
    lowest (hs ++ [h]) = if h.vaddr < lowest hs then h.vaddr else lowest hs :=
  List.foldl_append ..

theorem findBase_headers {phoff n base : Nat} {buffer buffer' : Buffer}
    (h : findBase node phoff n buffer = some (buffer', base)) :
    ∃ hs, headers node phoff n buffer = some (buffer', hs) ∧ base = lowest (loadable hs) := by
  unfold findBase at h
  induction n generalizing buffer' base with
  | zero => cases h; exact ⟨[], rfl, rfl⟩
  | succ n ih =>
    rw [forUpto, Option.bind_eq_some_iff] at h
    obtain ⟨⟨b, base₀⟩, h0, h⟩ := h
    obtain ⟨hs, hh, rfl⟩ := ih h0
    simp only [Option.bind_eq_bind, Option.bind_eq_some_iff] at h
    obtain ⟨b', hr, h⟩ := h
    refine ⟨hs ++ [b'.phdr], ?_⟩
    rw [headers, hh, loadable_snoc]
    simp only [Option.bind_eq_bind, Option.bind_some, hr]
    split at h
    · rename_i ht
      cases h
      exact ⟨rfl, by rw [if_neg ht, List.append_nil]⟩
    · rename_i ht
      cases h
      exact ⟨rfl, by rw [if_pos (not_not.mp ht), lowest_snoc]⟩

theorem loadSegments_headers {phoff n : Nat} {buffer buffer' : Buffer}
    (h : loadSegments P node phoff n table (buffer, m) = some (buffer', m')) :
    ∃ hs, headers node phoff n buffer = some (buffer', hs) ∧
      (loadable hs).foldlM (fun m h => loadSegment P node table h m) m = some m' := by
  unfold loadSegments at h
  induction n generalizing buffer' m' with
  | zero => cases h; exact ⟨[], rfl, rfl⟩
  | succ n ih =>
    rw [forUpto, Option.bind_eq_some_iff] at h
    obtain ⟨⟨b, m₀⟩, h0, h⟩ := h
    obtain ⟨hs, hh, hm⟩ := ih h0
    simp only [Option.bind_eq_bind, Option.bind_eq_some_iff] at h
    obtain ⟨b', hr, h⟩ := h
    refine ⟨hs ++ [b'.phdr], ?_⟩
    rw [headers, hh, loadable_snoc, List.foldlM_append, hm]
    simp only [Option.bind_eq_bind, Option.bind_some, hr]
    split at h
    · rename_i ht
      cases h
      exact ⟨rfl, by rw [if_neg ht]; rfl⟩
    · rename_i ht
      rw [Option.bind_eq_some_iff] at h
      obtain ⟨m₁, hseg, h⟩ := h
      cases h
      refine ⟨rfl, ?_⟩
      rw [if_pos (not_not.mp ht), List.foldlM_cons, hseg]
      rfl

/-! ## The pages -/

/-- The pages of a segment, by their offsets, in the order of the loop. -/
def pagesOf (h : Phdr) : List (Phdr × Nat) :=
  (List.range (h.memsz / PAGE + 1)).map fun n => (h, n * PAGE)

theorem loadSegment_pages (h : Phdr) (m : Machine σ) : loadSegment P node table h m =
    (pagesOf h).foldlM (fun m (h, i) => loadPage P node table h i m) m := by
  rw [loadSegment, forUpto_eq_foldlM, pagesOf, List.foldlM_map]

theorem loadable_pages (hs : List Phdr) (m : Machine σ) :
    hs.foldlM (fun m h => loadSegment P node table h m) m =
      (hs.flatMap pagesOf).foldlM (fun m (h, i) => loadPage P node table h i m) m := by
  induction hs generalizing m with
  | nil => rfl
  | cons h hs ih =>
    rw [List.foldlM_cons, List.flatMap_cons, List.foldlM_append, loadSegment_pages]
    congr 1
    funext m₁
    exact ih m₁

/-- The bytes that the loader puts into the page at offset `i`. -/
def pageBytes (node : Node) (h : Phdr) (i : Nat) : Option (Nat → Nat) := do
  match ← loadSize h.filesz i with
  | none => return fun _ => 0
  | some size =>
    let copy ← readAt node (add64 h.offset i) size
    return fun k => if k < copy.count then node.file.image (copy.position + k) else 0

/-- At most a page is asked for. -/
theorem loadSize_le {filesz i size : Nat} (h : loadSize filesz i = some (some size)) :
    size ≤ PAGE := by
  simp only [loadSize] at h
  split at h
  · simp at h
  · split at h
    · simp at h
    · rw [Option.map_eq_some_iff] at h
      obtain ⟨a, -, h⟩ := h
      simp only [Option.some.injEq] at h
      have hpage : toInt32 (PAGE : Nat) = PAGE := toInt32_of_lt (by decide) (by decide)
      rw [← h, minInt, hpage]
      split <;> omega

/-- A page of the new address space: where it is mapped, and its bytes. -/
structure Placed where
  address : Nat
  bytes : Nat → Nat

/-- A page is taken, mapped for the user, and gets its first bytes. -/
def Places (P : PageSource σ) (table : Nat) (m : Machine σ) (l : Placed) (m' : Machine σ) : Prop :=
  ∃ page m₁ m₂ f count data, m.pageAllocate P 1 = some (page, m₁) ∧
    map P m₁ table l.address (sub64 page P.hhdm) f = some m₂ ∧ f.testBit 2 = true ∧
    count ≤ PAGE ∧ (∀ k, data k < 256) ∧ (l.bytes = fun k => if k < count then data k else 0) ∧
    m' = { m₂ with mem := m₂.mem.writeBytes page count data }

/-- A new address space with the upper half of the bootstrap table, and the pages
that are placed in it. -/
def loadLTS (P : PageSource σ) (boot table : Nat) : LTS (Machine σ) Placed where
  init m := ∃ m₀ m₁, Tree P 512 m₀ boot ∧ archTableManagerNew P m₀ = some (table, m₁) ∧
    m = copyHigherHalf table boot 0x100 m₁
  step := Places P table

/-- Placing a page without writing to it. -/
theorem places_zero {page v f : Nat} (ha : m.pageAllocate P 1 = some (page, m₁))
    (hm : map P m₁ table v (sub64 page P.hhdm) f = some m') (hf : f.testBit 2 = true) :
    Places P table m ⟨v, fun _ => 0⟩ m' := by
  have hsame : m'.mem.writeBytes page 0 (fun _ => 0) = m'.mem :=
    funext fun x => Mem.writeBytes_out _ _ (by omega)
  refine ⟨page, m₁, m', f, 0, fun _ => 0, ha, hm, hf, Nat.zero_le _, fun _ => Nat.zero_lt_succ _,
    ?_, ?_⟩
  · simp only [ite_self]
  · rw [hsame]

theorem loadPage_places {h : Phdr} {i : Nat} (hl : loadPage P node table h i m = some m') :
    ∃ bytes, pageBytes node h i = some bytes ∧ Places P table m ⟨add64 h.vaddr i, bytes⟩ m' := by
  simp only [loadPage, Option.bind_eq_bind, Option.bind_eq_some_iff, Prod.exists] at hl
  obtain ⟨page, m₁, ha, m₂, hm, size, hsize, hl⟩ := hl
  cases size with
  | none =>
    cases hl
    exact ⟨fun _ => 0, by rw [pageBytes, hsize]; rfl, places_zero ha hm (by decide)⟩
  | some size =>
    rw [Option.bind_eq_some_iff] at hl
    obtain ⟨copy, hcopy, hl⟩ := hl
    cases hl
    have hle := loadSize_le hsize
    have hcount := readAt_count (by simp only [PAGE] at hle; omega) hcopy
    refine ⟨_, ?_, page, m₁, m₂, _, copy.count, fun k => node.file.image (copy.position + k), ha, hm,
      by decide, Nat.le_trans hcount hle, fun k => node.file.byte _, rfl, rfl⟩
    rw [pageBytes, hsize]
    simp only [Option.bind_eq_bind, Option.bind_some, hcopy]
    rfl

/-- What is placed for a page of a segment. -/
def placed (node : Node) (page : Phdr × Nat) : Placed :=
  ⟨add64 page.1.vaddr page.2, (pageBytes node page.1 page.2).getD fun _ => 0⟩

theorem loadPages_run {boot : Nat} {pages : List (Phdr × Nat)}
    (h : pages.foldlM (fun m (h, i) => loadPage P node table h i m) m = some m') :
    (∀ page ∈ pages, (pageBytes node page.1 page.2).isSome) ∧
      (loadLTS P boot table).Run m (pages.map (placed node)) m' := by
  induction pages generalizing m with
  | nil =>
    cases h
    exact ⟨nofun, .nil _⟩
  | cons page pages ih =>
    rw [List.foldlM_cons, Option.bind_eq_bind, Option.bind_eq_some_iff] at h
    obtain ⟨m₁, h1, h2⟩ := h
    obtain ⟨bytes, hb, hp⟩ := loadPage_places h1
    obtain ⟨hsome, hr⟩ := ih h2
    refine ⟨List.forall_mem_cons.mpr ⟨by rw [hb]; rfl, hsome⟩, .cons ?_ hr⟩
    rw [placed, hb]
    exact hp

/-- **Loading is placing.** A new table, the pages of the segments one after the
other, and the page of the stack. -/
theorem loadImage_run {header : Ehdr} {boot stackBase : Nat} {buffer : Buffer}
    (h : loadImage P node header boot buffer m = some (table, stackBase, m')) :
    ∃ m₁ buffer₁ buffer₂ hs₁ hs₂, archTableManagerNew P m = some (table, m₁) ∧
      headers node header.phoff header.phnum buffer = some (buffer₁, hs₁) ∧
      headers node header.phoff header.phnum buffer₁ = some (buffer₂, hs₂) ∧
      stackBase = sub64 (lowest (loadable hs₁)) PAGE ∧
      (∀ page ∈ (loadable hs₂).flatMap pagesOf, (pageBytes node page.1 page.2).isSome) ∧
      (loadLTS P boot table).Run (copyHigherHalf table boot 0x100 m₁)
        (((loadable hs₂).flatMap pagesOf).map (placed node) ++ [⟨stackBase, fun _ => 0⟩]) m' := by
  simp only [loadImage, Option.bind_eq_bind, Option.bind_eq_some_iff, Prod.exists] at h
  obtain ⟨buffer₁, base, hbase, _, m₁, hnew, buffer₂, m₂, hseg, stack, m₃, ha, m₄, hm, he⟩ := h
  simp only [Option.pure_def, Option.some.injEq, Prod.mk.injEq] at he
  obtain ⟨rfl, rfl, rfl⟩ := he
  obtain ⟨hs₁, hh₁, rfl⟩ := findBase_headers hbase
  obtain ⟨hs₂, hh₂, hfold⟩ := loadSegments_headers hseg
  rw [loadable_pages] at hfold
  obtain ⟨hsome, hr⟩ := loadPages_run hfold
  exact ⟨m₁, buffer₁, buffer₂, hs₁, hs₂, hnew, hh₁, hh₂, rfl, hsome,
    hr.snoc (places_zero ha hm (by decide))⟩

/-! ## The invariant -/

/-- A frame that the table does not use as a layer, with its bytes. -/
structure Held (P : PageSource σ) (table : Nat) (m : Machine σ) (page : Nat)
    (bytes : Nat → Nat) : Prop where
  aligned : page % PAGE = 0
  taken : ¬P.Free m.src page
  apart : ∀ p, Valid 512 p → walk P.hhdm m.mem table p ≠ some page
  bytes : ∀ k, k < PAGE → byteAt m.mem (page + k) = bytes k

/-- The latest contents of page `n`. -/
def latest (ls : List Placed) (n : Nat) : Option (Nat → Nat) :=
  (ls.reverse.find? (vpn ·.address = n)).map Placed.bytes

structure Loaded (P : PageSource σ) (table : Nat) (ls : List Placed) (m : Machine σ) : Prop where
  tree : Tree P 512 m table
  frames : ∀ v bytes, latest ls (vpn v) = some bytes →
    Present (leafEntry P.hhdm m.mem table v) ∧ Held P table m (frame P m.mem table v) bytes

theorem latest_append (ls ls' : List Placed) (n : Nat) :
    latest (ls ++ ls') n = (latest ls' n).or (latest ls n) := by
  unfold latest
  rw [List.reverse_append, List.find?_append]
  cases List.find? (vpn ·.address = n) ls'.reverse <;> rfl

theorem latest_singleton (l : Placed) (n : Nat) :
    latest [l] n = if vpn l.address = n then some l.bytes else none := by
  by_cases h : vpn l.address = n <;> simp [latest, h]

/-- Bytes of a page whose words are the same. -/
theorem byteAt_page {mem mem' : Mem} {a k : Nat} (ha : a % PAGE = 0) (hk : k < PAGE)
    (h : ∀ x, x < PAGE → mem' (a + x) = mem (a + x)) : byteAt mem' (a + k) = byteAt mem (a + k) := by
  apply byteAt_congr
  have he : (a + k) / 8 * 8 = a + k / 8 * 8 := by simp only [PAGE] at ha; omega
  rw [he]
  exact h _ (by omega)

theorem Held.keep {page : Nat} {bytes : Nat → Nat} (h : Held P table m page bytes)
    (hfree : ∀ x, P.Free m'.src x → P.Free m.src x)
    (hnew : ∀ p, Valid 512 p → walk P.hhdm m'.mem table p = some page →
      walk P.hhdm m.mem table p = some page ∨ P.Free m.src page)
    (hwords : ∀ x, x < PAGE → m'.mem (page + x) = m.mem (page + x)) :
    Held P table m' page bytes where
  aligned := h.aligned
  taken hf := h.taken (hfree page hf)
  apart p hp hw := by
    rcases hnew p hp hw with hw | hf
    · exact h.apart p hp hw
    · exact h.taken hf
  bytes k hk := (byteAt_page h.aligned hk hwords).trans (h.bytes k hk)

/-- Writing to a page that is no layer leaves the table alone. -/
theorem untouched_write {lim a : Nat} (ht : Tree P lim m table) (hal : a % PAGE = 0)
    (hnot : ∀ p, Valid lim p → walk P.hhdm m.mem table p ≠ some a) (hsrc : m'.src = m.src)
    (hout : ∀ x, x < a ∨ a + PAGE ≤ x → m'.mem x = m.mem x) : Untouched P lim table m m' := by
  intro p b hp hw
  have hl := ht.layer p b hp hw
  refine ⟨fun i hi _ => hout _ ?_, by rw [hsrc]; exact hl.taken⟩
  have hne : b ≠ a := fun he => hnot p hp (he ▸ hw)
  have h1 := entryAddress_mem hl.toAligned hi
  have h2 := hl.page
  simp only [PAGE] at *; omega

/-- The leaf of a page that was just mapped. -/
theorem mapped_leaf {src : σ} {e a f : Nat} (ha : Layer P src a) :
    Present (setAddress (e ||| (f ||| TABLE_ENTRY_PRESENT)) (sub64 a P.hhdm)) ∧
      target P (setAddress (e ||| (f ||| TABLE_ENTRY_PRESENT)) (sub64 a P.hhdm)) = a := by
  obtain ⟨h1, h2, h3⟩ := ha.physicalAddress
  refine ⟨present_setAddress _ ?_, by rw [target, getAddress_setAddress _ h1 h2, h3]⟩
  exact (present_or _ _).mpr (.inr ((present_or _ _).mpr (.inr present_self)))

/-- **One page.** A fresh page is mapped and gets its first bytes. -/
theorem Loaded.step {ls : List Placed} {l : Placed} (hl : Loaded P table ls m)
    (hs : Places P table m l m') : Loaded P table (ls ++ [l]) m' := by
  obtain ⟨page, m₁, m₂, f, count, data, ha, hm, -, hn, hd, hbytes, rfl⟩ := hs
  obtain ⟨hg, hmem⟩ := Machine.pageAllocate_spec ha
  have hfree := free_of_grant hg
  have hlayer : Layer P m₁.src page := layer_of_grant hg
  have hal := hg.aligned
  have hout₁ : ∀ x, x < page ∨ page + PAGE ≤ x → m₁.mem x = m.mem x := by
    intro x hx
    rw [hmem, Mem.zero_out _ hx]
  have hunt₁ : Untouched P 512 table m m₁ := untouched_fill hl.tree hal hfree hg.kept hout₁
  have ht₁ := hunt₁.tree hl.tree
  obtain ⟨hgrow, hself, hother⟩ := map_spec ht₁ (pml3Index_lt l.address) hm
  have hnot₁ : ∀ p, Valid 512 p → walk P.hhdm m₁.mem table p ≠ some page := by
    intro p hp hw
    rw [hunt₁.walk hp] at hw
    exact (hl.tree.layer p page hp hw).taken hfree
  have hnot₂ : ∀ p, Valid 512 p → walk P.hhdm m₂.mem table p ≠ some page := by
    intro p hp hw
    rcases hgrow.new p page hp hw with hw | hf
    · exact hnot₁ p hp hw
    · exact hlayer.taken hf
  have hout₃ : ∀ x, x < page ∨ page + PAGE ≤ x →
      m₂.mem.writeBytes page count data x = m₂.mem x :=
    fun x hx => Mem.writeBytes_out _ _ (by omega)
  have hunt₃ : Untouched P 512 table m₂
      { m₂ with mem := m₂.mem.writeBytes page count data } :=
    untouched_write hgrow.tree hal hnot₂ rfl hout₃
  refine ⟨hunt₃.tree hgrow.tree, fun v' bytes hv' => ?_⟩
  rw [frame, hunt₃.leafEntry (pml3Index_lt v')]
  rw [latest_append, latest_singleton] at hv'
  split at hv'
  · rename_i he
    simp only [Option.some_or, Option.some.injEq] at hv'
    subst hv'
    rw [hbytes]
    obtain ⟨hp, ht⟩ := mapped_leaf (e := leafEntry P.hhdm m₁.mem table l.address) (f := f) hlayer
    rw [leafEntry_congr P.hhdm m₂.mem he.symm, hself, ht]
    refine ⟨hp, hal, fun hf => hlayer.taken (hgrow.free _ hf), fun p hp => ?_, fun k hk => ?_⟩
    · rw [hunt₃.walk hp]
      exact hnot₂ p hp
    · -- the rest of the page is still zero
      have hzero : byteAt m₂.mem (page + k) = 0 := by
        rw [byteAt_page hal hk fun x hx => hgrow.word hal hlayer.taken hnot₁ hx, byteAt, hmem,
          Mem.zero_in _ (by simp only [PAGE] at *; omega) (by simp only [PAGE] at *; omega)]
        simp
      rw [byteAt_writeBytes _ (by simp only [PAGE] at hal; omega) hd, hzero, Nat.add_sub_cancel_left]
      by_cases hk' : k < count
      · rw [if_pos ⟨by omega, by omega⟩, if_pos hk']
      · rw [if_neg (by omega), if_neg hk']
  · rename_i hne
    obtain ⟨hp, hh⟩ := hl.frames v' bytes hv'
    have hleaf : leafEntry P.hhdm m₂.mem table v' = leafEntry P.hhdm m.mem table v' := by
      rw [hother v' (pml3Index_lt v') (Ne.symm hne), hunt₁.leafEntry (pml3Index_lt v')]
    rw [hleaf]
    have hapart : frame P m.mem table v' ≠ page := fun he => hh.taken (he ▸ hfree)
    have hpage := hh.aligned
    have hside : ∀ x, x < PAGE → frame P m.mem table v' + x < page ∨
        page + PAGE ≤ frame P m.mem table v' + x := by
      intro x hx
      simp only [PAGE] at *; omega
    have hh₁ : Held P table m₁ (frame P m.mem table v') bytes :=
      hh.keep hg.kept (fun p hp hw => .inl (hunt₁.walk hp ▸ hw)) fun x hx => hout₁ _ (hside x hx)
    have hh₂ : Held P table m₂ (frame P m.mem table v') bytes :=
      hh₁.keep hgrow.free (fun p hp => hgrow.new p _ hp) fun x hx =>
        hgrow.word hpage hh₁.taken hh₁.apart hx
    exact ⟨hp, hh₂.keep (fun _ hf => hf) (fun p hp hw => .inl (hunt₃.walk hp ▸ hw)) fun x hx =>
      hout₃ _ (hside x hx)⟩

end GaOS.L5.Elf
