import GaOS.L5Process.ElfLoad

/-!
# The half that an address space shares with the kernel

A new address space gets the upper half of the bootstrap table entry by entry, so
its layers there are the bootstrap table's own. `Shares` says that these are all
that the two tables have in common. A page that is placed elsewhere leaves the
bootstrap table alone (`Shares.step`).
-/
namespace GaOS.L5.Elf

open GaOS.L1 GaOS.L1.PageAllocator GaOS.L2.TableManager
open GaOS.L5.Fork (copyHigherHalf copyHigherHalf_spec untouched_fill)

variable {σ : Type} {P : PageSource σ} {boot table : Nat} {m m₁ m' : Machine σ}

/-- A layer of both tables is at one place of the upper half. -/
structure Shares (P : PageSource σ) (boot table : Nat) (m : Machine σ) : Prop where
  kernel : Tree P 512 m boot
  tree : Tree P 512 m table
  apart : ∀ p q a, Valid 512 p → Valid 512 q → walk P.hhdm m.mem table p = some a →
    walk P.hhdm m.mem boot q = some a → p = q ∧ ∃ i t, p = i :: t ∧ 0x100 ≤ i

/-! ## A new address space -/

section
variable (hb : Tree P 512 m boot) (hnew : archTableManagerNew P m = some (table, m₁))
include hb hnew

/-- What the copy of the upper half does. -/
theorem new_copy : boot ≠ table ∧ Layer P m₁.src table ∧
    (copyHigherHalf table boot 0x100 m₁).src = m₁.src ∧
    (∀ i, i < 0x100 → (copyHigherHalf table boot 0x100 m₁).mem (entryAddress table (0x100 + i)) =
      m₁.mem (entryAddress boot (0x100 + i))) ∧
    ∀ x, (∀ i, i < 0x100 → x ≠ entryAddress table (0x100 + i)) →
      (copyHigherHalf table boot 0x100 m₁).mem x = m₁.mem x := by
  obtain ⟨hg, -⟩ := Machine.pageAllocate_spec hnew
  have hlayer := layer_of_grant hg
  have hroot := hb.layer [] boot .nil rfl
  have hne : boot ≠ table := fun he => hroot.taken (he ▸ free_of_grant hg)
  exact ⟨hne, hlayer, copyHigherHalf_spec hlayer.toAligned hroot.toAligned hne 0x100 (Nat.le_refl _)⟩

/-- The new table is a page of its own. -/
theorem new_untouched_other {root : Nat} (hr : Tree P 512 m root) :
    Untouched P 512 root m (copyHigherHalf table boot 0x100 m₁) := by
  obtain ⟨hg, hmem⟩ := Machine.pageAllocate_spec hnew
  obtain ⟨-, hlayer, hsrc, -, hout⟩ := new_copy hb hnew
  refine untouched_fill hr hg.aligned (free_of_grant hg) (fun x hx => hg.kept x (hsrc ▸ hx))
    fun x hx => ?_
  rw [hout, hmem, Mem.zero_out _ hx]
  intro i hi he
  have hin := entryAddress_mem hlayer.toAligned (i := 0x100 + i) (by omega)
  omega

theorem new_untouched : Untouched P 512 boot m (copyHigherHalf table boot 0x100 m₁) :=
  new_untouched_other hb hnew hb

/-- Its lower half is empty and its upper half is the bootstrap table's. -/
theorem new_entries {i : Nat} (hi : i < 512) :
    (copyHigherHalf table boot 0x100 m₁).mem (entryAddress table i) =
      if i < 0x100 then 0
      else (copyHigherHalf table boot 0x100 m₁).mem (entryAddress boot i) := by
  obtain ⟨hne, hlayer, -, hcopy, hout⟩ := new_copy hb hnew
  have hroot := hb.layer [] boot .nil rfl
  split
  · rename_i hlow
    rw [hout, (archTableManagerNew_walk hnew hi).1]
    intro j hj he
    obtain ⟨-, he⟩ := entryAddress_inj hlayer.toAligned hlayer.toAligned hi (by omega) he
    omega
  · obtain ⟨j, rfl⟩ : ∃ j, i = 0x100 + j := ⟨i - 0x100, by omega⟩
    rw [hcopy j (by omega), hout]
    intro k hk he
    obtain ⟨he, -⟩ := entryAddress_inj hroot.toAligned hlayer.toAligned hi (by omega) he
    exact hne he

theorem new_walk {i : Nat} {p : List Nat} (hv : Valid 512 (i :: p)) :
    walk P.hhdm (copyHigherHalf table boot 0x100 m₁).mem table (i :: p) =
      if i < 0x100 then none
      else walk P.hhdm (copyHigherHalf table boot 0x100 m₁).mem boot (i :: p) := by
  have hent := new_entries hb hnew (hv.index i (by simp))
  split at hent
  · rename_i hi
    rw [if_pos hi, walk, nextLayer_zero hent, Option.bind_none]
  · rename_i hi
    rw [if_neg hi, walk, walk, nextLayer, nextLayer, hent]

theorem new_shares : Shares P boot table (copyHigherHalf table boot 0x100 m₁) := by
  obtain ⟨hg, -⟩ := Machine.pageAllocate_spec hnew
  have hunt := new_untouched hb hnew
  have hb' := hunt.tree hb
  have hroot := hb.layer [] boot .nil rfl
  have hlayer : Layer P (copyHigherHalf table boot 0x100 m₁).src table := by
    have hne : boot ≠ table := fun he => hroot.taken (he ▸ free_of_grant hg)
    rw [(copyHigherHalf_spec (m := m₁) (layer_of_grant hg).toAligned hroot.toAligned hne 0x100
      (Nat.le_refl _)).1]
    exact layer_of_grant hg
  -- every other layer of the table is one of the bootstrap table, at the same place
  have hcases : ∀ p a, Valid 512 p →
      walk P.hhdm (copyHigherHalf table boot 0x100 m₁).mem table p = some a →
      (p = [] ∧ a = table) ∨ ((∃ i t, p = i :: t ∧ 0x100 ≤ i) ∧
        walk P.hhdm (copyHigherHalf table boot 0x100 m₁).mem boot p = some a) := by
    intro p a hp hw
    cases p with
    | nil => cases hw; exact .inl ⟨rfl, rfl⟩
    | cons i t =>
      rw [new_walk hb hnew hp] at hw
      split at hw
      · cases hw
      · exact .inr ⟨⟨i, t, rfl, by omega⟩, hw⟩
  have hfresh : ∀ q, Valid 512 q →
      walk P.hhdm (copyHigherHalf table boot 0x100 m₁).mem boot q ≠ some table := by
    intro q hq hw
    rw [hunt.walk hq] at hw
    exact (hb.layer q table hq hw).taken (free_of_grant hg)
  refine ⟨hb', ⟨fun p a hp hw => ?_, fun p q a hp hq hw hw' => ?_, fun p a i hp hw hn => ?_⟩,
    fun p q a hp hq hw hw' => ?_⟩
  · rcases hcases p a hp hw with ⟨-, rfl⟩ | ⟨-, hw⟩
    · exact hlayer
    · exact hb'.layer p a hp hw
  · rcases hcases p a hp hw with ⟨rfl, rfl⟩ | ⟨-, hw⟩
    · rcases hcases q _ hq hw' with ⟨rfl, -⟩ | ⟨-, hw'⟩
      · rfl
      · exact absurd hw' (hfresh q hq)
    · rcases hcases q a hq hw' with ⟨-, rfl⟩ | ⟨-, hw'⟩
      · exact absurd hw (hfresh p hp)
      · exact hb'.inj p q a hp hq hw hw'
  · rcases hcases p a hp.init hw with ⟨rfl, rfl⟩ | ⟨-, hw⟩
    · have hent := new_entries hb hnew hp.last
      split at hent
      · exact hent
      · rw [hent] at hn ⊢
        exact hb'.clear [] boot i hp rfl hn
    · exact hb'.clear p a i hp hw hn
  · rcases hcases p a hp hw with ⟨-, rfl⟩ | ⟨hhigh, hw⟩
    · exact absurd hw' (hfresh q hq)
    · exact ⟨hb'.inj p q a hp hq hw hw', hhigh⟩

end

/-- **Placing pages.** At any time the table maps what was placed, with the latest
of its contents. -/
theorem loaded_run {ls : List Placed} (hi : (loadLTS P boot table).init m)
    (hr : (loadLTS P boot table).Run m ls m') : Loaded P table ls m' := by
  refine hr.history ?_ fun _ _ _ _ hl hs => hl.step hs
  obtain ⟨m₀, m₁, hb, hnew, rfl⟩ := hi
  refine ⟨(new_shares hb hnew).tree, fun v bytes h => ?_⟩
  cases h

/-! ## The stages of placing a page -/

/-- A page that was free is filled, mapped, and written to again. -/
structure Stage (P : PageSource σ) (table : Nat) (m m₁ m₂ m' : Machine σ) (l : Placed)
    (page f : Nat) : Prop where
  aligned : page % PAGE = 0
  fresh : P.Free m.src page
  taken : ¬P.Free m₁.src page
  kept : ∀ x, P.Free m₁.src x → P.Free m.src x
  filled : ∀ x, x < page ∨ page + PAGE ≤ x → m₁.mem x = m.mem x
  mapped : map P m₁ table l.address (sub64 page P.hhdm) f = some m₂
  user : f.testBit 2 = true
  src : m'.src = m₂.src
  written : ∀ x, x < page ∨ page + PAGE ≤ x → m'.mem x = m₂.mem x

theorem Places.stages {l : Placed} (hs : Places P table m l m') :
    ∃ m₁ m₂ page f, Stage P table m m₁ m₂ m' l page f := by
  obtain ⟨page, m₁, m₂, f, count, data, ha, hm, hf, hn, -, -, rfl⟩ := hs
  obtain ⟨hg, hmem⟩ := Machine.pageAllocate_spec ha
  refine ⟨m₁, m₂, page, f, hg.aligned, free_of_grant hg, (layer_of_grant hg).taken, hg.kept,
    fun x hx => by rw [hmem, Mem.zero_out _ hx], hm, hf, rfl, fun x hx => ?_⟩
  exact Mem.writeBytes_out _ _ (by omega)

section
variable {m₂ : Machine σ} {l : Placed} {page f root : Nat} (h : Stage P table m m₁ m₂ m' l page f)
include h

theorem Stage.first (ht : Tree P 512 m root) : Untouched P 512 root m m₁ :=
  untouched_fill ht h.aligned h.fresh h.kept h.filled

/-- The page is no layer of a table that was there before. -/
theorem Stage.no_layer (ht : Tree P 512 m root) {p : List Nat} (hp : Valid 512 p) :
    walk P.hhdm m₁.mem root p ≠ some page := by
  intro hw
  rw [(h.first ht).walk hp] at hw
  exact (ht.layer p page hp hw).taken h.fresh

theorem Stage.last (ht : Tree P 512 m₂ root)
    (hnot : ∀ p, Valid 512 p → walk P.hhdm m₂.mem root p ≠ some page) :
    Untouched P 512 root m₂ m' :=
  untouched_write ht h.aligned hnot h.src h.written

/-- What happens to the table itself. -/
theorem Stage.own (ht : Tree P 512 m table) :
    Tree P 512 m₁ table ∧ Grows P 512 table m₁ m₂ ∧ Untouched P 512 table m₂ m' := by
  have ht₁ := (h.first ht).tree ht
  have hg := (map_spec ht₁ (pml3Index_lt _) h.mapped).1
  refine ⟨ht₁, hg, h.last hg.tree fun p hp hw => ?_⟩
  rcases hg.new p page hp hw with hw | hf
  · exact h.no_layer ht hp hw
  · exact h.taken hf

end

/-! ## Safe pages -/

/-- The page at `v` is not under an entry that the kernel uses in its upper half. -/
def SafePage (boot : Nat) (mem : Mem) (v : Nat) : Prop :=
  0x100 ≤ pml3Index v → ¬Present (mem (entryAddress boot (pml3Index v)))

theorem Shares.untouched (h : Shares P boot table m) (hb : Untouched P 512 boot m m')
    (ht : Untouched P 512 table m m') : Shares P boot table m' := by
  refine ⟨hb.tree h.kernel, ht.tree h.tree, fun p q a hp hq hw hw' => ?_⟩
  rw [ht.walk hp] at hw
  rw [hb.walk hq] at hw'
  exact h.apart p q a hp hq hw hw'

/-- Mapping a safe page does not touch the bootstrap table. -/
theorem Shares.mapping {v p f : Nat} (h : Shares P boot table m)
    (hm : map P m table v p f = some m') (hsafe : SafePage boot m.mem v) :
    Untouched P 512 boot m m' ∧ Shares P boot table m' := by
  have hg := (map_spec h.tree (pml3Index_lt v) hm).1
  have hunt : Untouched P 512 boot m m' := by
    intro q b hq hw
    have hlb := h.kernel.layer q b hq hw
    refine ⟨fun i hi _ => ?_, fun hf => hlb.taken (hg.free b hf)⟩
    by_contra hne
    obtain ⟨t, a, ht, hwa, h1, h2⟩ := map_path h.tree (pml3Index_lt v) hm hne
    have hvt := (valid_leafPath (pml3Index_lt v)).of_isPrefix ht
    have hla := hg.tree.layer t a hvt hwa
    have hin := entryAddress_mem hlb.toAligned hi
    obtain rfl : a = b := by
      have := hla.page; have := hlb.page
      simp only [PAGE] at *; omega
    rcases hg.new t a hvt hwa with hold | hfree
    · -- a layer on the way that both tables have
      obtain ⟨rfl, j, t', rfl, hj⟩ := h.apart t q a hvt hq hold hw
      obtain rfl : j = pml3Index v := by
        obtain ⟨rest, hrest⟩ := ht
        exact (List.cons.inj hrest).1
      rw [walk, Option.bind_eq_some_iff] at hw
      obtain ⟨n, hn, -⟩ := hw
      exact hsafe hj (present_of_nextLayer hn).1
    · exact hlb.taken hfree
  refine ⟨hunt, hunt.tree h.kernel, hg.tree, fun q t a hq ht hw hw' => ?_⟩
  rw [hunt.walk ht] at hw'
  rcases hg.new q a hq hw with hw | hf
  · exact h.apart q t a hq ht hw hw'
  · exact absurd hf (h.kernel.layer t a ht hw').taken

/-- **Placing a safe page.** The bootstrap table stays as it was. -/
theorem Shares.step {l : Placed} (h : Shares P boot table m) (hs : Places P table m l m')
    (hsafe : SafePage boot m.mem l.address) :
    Untouched P 512 boot m m' ∧ Shares P boot table m' := by
  obtain ⟨m₁, m₂, page, f, st⟩ := hs.stages
  have hb₁ := st.first h.kernel
  have h₁ := h.untouched hb₁ (st.first h.tree)
  have hsafe₁ : SafePage boot m₁.mem l.address := by
    intro hi
    rw [(hb₁ [] boot .nil rfl).1 _ (pml3Index_lt _) fun _ => pml3Index_lt _]
    exact hsafe hi
  obtain ⟨hb₂, h₂⟩ := h₁.mapping st.mapped hsafe₁
  have hb₃ : Untouched P 512 boot m₂ m' := by
    refine st.last h₂.kernel fun p hp hw => ?_
    rw [hb₂.walk hp] at hw
    exact st.no_layer h.kernel hp hw
  exact ⟨(hb₁.trans hb₂).trans hb₃, h₂.untouched hb₃ (st.own h.tree).2.2⟩

theorem safe_run {ls : List Placed} (h : Shares P boot table m)
    (hr : (loadLTS P boot table).Run m ls m') (hsafe : ∀ l ∈ ls, SafePage boot m.mem l.address) :
    Untouched P 512 boot m m' := by
  induction hr with
  | nil m =>
    intro p a hp hw
    exact ⟨fun _ _ _ => rfl, (h.kernel.layer p a hp hw).taken⟩
  | @cons m m₁ m' l ls hs _ ih =>
    obtain ⟨hl, hls⟩ := List.forall_mem_cons.mp hsafe
    obtain ⟨hb, h₁⟩ := h.step hs hl
    refine hb.trans (ih h₁ fun l' hl' hi => ?_)
    rw [(hb [] boot .nil rfl).1 _ (pml3Index_lt _) fun _ => pml3Index_lt _]
    exact hls l' hl' hi

/-! ## Other pages -/

/-- Placing a page puts the user flag into the second layer, and takes no bits from
interior entries. -/
theorem Places.user {l : Placed} (ht : Tree P 512 m table) (hs : Places P table m l m') :
    Tree P 512 m' table ∧
      (∀ q c, Valid 512 q → walk P.hhdm m.mem table q = some c →
        walk P.hhdm m'.mem table q = some c) ∧
      (∀ q c j, Valid 512 (q ++ [j]) → walk P.hhdm m.mem table q = some c →
        (m.mem (entryAddress c j)).testBit 2 = true →
        (m'.mem (entryAddress c j)).testBit 2 = true) ∧
      ∀ c, walk P.hhdm m'.mem table [pml3Index l.address] = some c →
        (m'.mem (entryAddress c (pml2Index l.address))).testBit 2 = true := by
  obtain ⟨m₁, m₂, page, f, st⟩ := hs.stages
  have hu₁ := st.first ht
  obtain ⟨ht₁, hg, hu₃⟩ := st.own ht
  have hpath := valid_prefixes (pml3Index_lt l.address)
  have hkept₁ : ∀ q c, Valid 512 q → walk P.hhdm m.mem table q = some c →
      walk P.hhdm m₁.mem table q = some c := fun q c hq hw => (hu₁.walk hq).trans hw
  have hkept₂ : ∀ q c, Valid 512 q → walk P.hhdm m.mem table q = some c →
      walk P.hhdm m₂.mem table q = some c := fun q c hq hw => hg.kept q c hq (hkept₁ q c hq hw)
  refine ⟨hu₃.tree hg.tree, fun q c hq hw => ?_, fun q c j hq hw hbit => ?_, fun c hc => ?_⟩
  · rw [hu₃.walk hq]
    exact hkept₂ q c hq hw
  · have h₁ : (m₁.mem (entryAddress c j)).testBit 2 = true := by
      rw [(hu₁ q c hq.init hw).1 j hq.last hq.root_index]; exact hbit
    have h₂ := map_gains ht₁ (pml3Index_lt _) st.mapped hq (hkept₁ q c hq.init hw) h₁
    rw [(hu₃ q c hq.init (hkept₂ q c hq.init hw)).1 j hq.last hq.root_index]
    exact h₂
  · have hv : Valid 512 [pml3Index l.address] := hpath.1
    rw [hu₃.walk hv] at hc
    rw [(hu₃ _ c hv hc).1 _ (pml2Index_lt _) nofun]
    exact map_second ht₁ (pml3Index_lt _) st.mapped (by decide) st.user hc

theorem user_run {ls : List Placed} {l : Placed} {c : Nat} (ht : Tree P 512 m table)
    (hc : walk P.hhdm m.mem table [pml3Index l.address] = some c)
    (hr : (loadLTS P boot table).Run m ls m') (hl : l ∈ ls) :
    (m'.mem (entryAddress c (pml2Index l.address))).testBit 2 = true := by
  obtain ⟨hv1, hv2, -⟩ := valid_prefixes (pml3Index_lt l.address)
  have hrun : Tree P 512 m' table ∧ walk P.hhdm m'.mem table [pml3Index l.address] = some c ∧
      (l ∈ ls → (m'.mem (entryAddress c (pml2Index l.address))).testBit 2 = true) := by
    refine hr.history (I := fun ls m => Tree P 512 m table ∧
      walk P.hhdm m.mem table [pml3Index l.address] = some c ∧
      (l ∈ ls → (m.mem (entryAddress c (pml2Index l.address))).testBit 2 = true))
      ⟨ht, hc, nofun⟩ fun ls s l' t hI hs => ?_
    obtain ⟨h1, h2, h3⟩ := hI
    obtain ⟨ht', hkept, hgains, hsecond⟩ := hs.user h1
    have hc' := hkept _ c hv1 h2
    refine ⟨ht', hc', fun hmem => ?_⟩
    rcases List.mem_append.mp hmem with hmem | hmem
    · exact hgains _ c _ hv2 h2 (h3 hmem)
    · rw [List.mem_singleton.mp hmem] at hc' ⊢
      exact hsecond c hc'
  exact hrun.2.2 hl

/-! ## The kernel's table -/

/-- The bootstrap table: the kernel maps its pages without the user flag (bit 2), and
the rest of the kernel leaves the table alone. -/
def kernelLTS (P : PageSource σ) : LTS (Table σ) TableOp where
  init s := ∃ m, archTableManagerNew P m = some (s.root, s.machine)
  step s l t := t.root = s.root ∧ match l with
    | .map v p f => f.testBit 2 = false ∧ map P s.machine s.root v p f = some t.machine
    | .other => Untouched P 512 s.root s.machine t.machine

theorem tableLTS_of_kernel {t : Table σ} (h : (kernelLTS P).Reachable t) :
    (tableLTS P).Reachable t := by
  refine h.mono (N := tableLTS P) (fun _ hi => hi) fun s l t hst => ?_
  obtain ⟨hr, hst⟩ := hst
  cases l with
  | map v p f => exact ⟨hr, hst.2⟩
  | other => exact ⟨hr, hst⟩

theorem kernel_inductive (P : PageSource σ) :
    (kernelLTS P).Inductive fun s =>
      Tree P 512 s.machine s.root ∧ Clear P 512 s.root 2 s.machine where
  init s h := by
    obtain ⟨m, hm⟩ := h
    refine ⟨archTableManagerNew_tree hm, fun q i a hq hw => ?_⟩
    cases q with
    | nil =>
      cases hw
      rw [(archTableManagerNew_walk hm hq.last).1, Nat.zero_testBit]
    | cons j q =>
      rw [(archTableManagerNew_walk hm (hq.index j (by simp))).2] at hw
      cases hw
  step s l t hs h := by
    obtain ⟨ht, hc⟩ := hs
    obtain ⟨hr, h⟩ := h
    rw [hr]
    cases l with
    | map v p f =>
      exact ⟨(map_spec ht (pml3Index_lt v) h.2).1.tree,
        map_clears ht (pml3Index_lt v) h.2 (by decide) (by decide) h.1 hc⟩
    | other =>
      refine ⟨h.tree ht, fun q i a hq hw => ?_⟩
      rw [h.walk hq.init] at hw
      rw [(h q a hq.init hw).1 i hq.last hq.root_index]
      exact hc q i a hq hw

end GaOS.L5.Elf
