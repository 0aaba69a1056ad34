import GaOS.L2Paging.MapRange

/-!
# Mapping a range looks behind its end

`arch_table_manager_map_range` (kernel/src/arch/x86_64/page_table_manager/table_manager.c:37-106)
goes on to the next 2 MiB after every chunk, the last one too, before it knows whether
pages are left. The comment says that it would "allocate new layers only when needed".

* The entry above the 2 MiB behind the range is read and gets the flags, and a layer if it
  had none. At the end of the address space the index of that entry is 512: the word behind
  the table is taken for an entry.
* A range of no pages still fetches the three layers for its address.

So there is no range for which only entries on the walks of its own pages are accessed:
`never_stays_inside`, over the accesses that `mapRangeLogged` lists. That one is the code
with a log (`mapRangeLogged_eq`).

Counterexample: one page at 0x400000 in an empty table. The entry of 0x600000 is given a
layer.

Fix: `if (count == 0) return;` at the beginning, and `if (count == 0) break;` behind
`count -= to_map`.
-/
namespace GaOS.Bugs.RangeAccess

open GaOS.L1 GaOS.L1.PageAllocator GaOS.L2.TableManager

/-! ## The code with a log -/

/-- `&layer->entries[index]`, read and written. -/
structure Access where
  layer : Nat
  index : Nat
  deriving DecidableEq, Repr

section
variable {σ : Type} (P : PageSource σ)

/-- mirrors kernel/src/arch/x86_64/page_table_manager/table_manager.c:75-104 -/
def advanceLogged (m : Machine σ) (table flags : Nat) (c : Cursor) :
    Option (List Access × Cursor × Machine σ) := do
  let c := { c with pIndex := 0, pml1Index := c.pml1Index + 1 }
  if 512 ≤ c.pml1Index then
    let c := { c with pml1Index := 0, pml2Index := c.pml2Index + 1 }
    if 512 ≤ c.pml2Index then
      let c := { c with pml2Index := 0, pml3Index := c.pml3Index + 1 }
      let (pml3, m) ← allocateNextLayer P m table c.pml3Index flags
      let (pml2, m) ← allocateNextLayer P m pml3 c.pml2Index flags
      let (pml1, m) ← allocateNextLayer P m pml2 c.pml1Index flags
      return ([⟨table, c.pml3Index⟩, ⟨pml3, c.pml2Index⟩, ⟨pml2, c.pml1Index⟩],
        { c with pml3 := pml3, pml2 := pml2, pml1 := pml1 }, m)
    else
      let (pml2, m) ← allocateNextLayer P m c.pml3 c.pml2Index flags
      let (pml1, m) ← allocateNextLayer P m pml2 c.pml1Index flags
      return ([⟨c.pml3, c.pml2Index⟩, ⟨pml2, c.pml1Index⟩], { c with pml2 := pml2, pml1 := pml1 }, m)
  else
    let (pml1, m) ← allocateNextLayer P m c.pml2 c.pml1Index flags
    return ([⟨c.pml2, c.pml1Index⟩], { c with pml1 := pml1 }, m)

/-- mirrors kernel/src/arch/x86_64/page_table_manager/table_manager.c:56-105 -/
def mapRangeLoopLogged (table flags : Nat) :
    Nat → Cursor → Machine σ → Option (List Access × Machine σ)
  | fuel, c, m =>
    if c.count = 0 then some ([], m)
    else
      match fuel with
      | 0 => none
      | fuel + 1 => do
        let toMap := if c.count < 512 - c.pIndex then c.count else 512 - c.pIndex
        let leaves := (List.range toMap).map fun i => (⟨c.pml1, c.pIndex + i⟩ : Access)
        let m := mapEntries c.pml1 c.pIndex c.physicalAddress flags toMap 0 m
        let c := { c with
          physicalAddress := add64 c.physicalAddress (mul64 toMap PAGE)
          count := c.count - toMap }
        let (layers, c, m) ← advanceLogged P m table flags c
        let (rest, m) ← mapRangeLoopLogged table flags fuel c m
        return (leaves ++ layers ++ rest, m)

/-- mirrors kernel/src/arch/x86_64/page_table_manager/table_manager.c:37-106 -/
def mapRangeLogged (m : Machine σ) (table virtualAddress physicalAddress flags count : Nat) :
    Option (List Access × Machine σ) := do
  let (pml3, m) ← allocateNextLayer P m table (pml3Index virtualAddress) flags
  let (pml2, m) ← allocateNextLayer P m pml3 (pml2Index virtualAddress) flags
  let (pml1, m) ← allocateNextLayer P m pml2 (pml1Index virtualAddress) flags
  let (rest, m) ← mapRangeLoopLogged P table flags count
    ⟨pml3Index virtualAddress, pml2Index virtualAddress, pml1Index virtualAddress,
      pIndex virtualAddress, pml3, pml2, pml1, physicalAddress, count⟩ m
  return (⟨table, pml3Index virtualAddress⟩ :: ⟨pml3, pml2Index virtualAddress⟩ ::
    ⟨pml2, pml1Index virtualAddress⟩ :: rest, m)

theorem advanceLogged_eq (m : Machine σ) (table flags : Nat) (c : Cursor) :
    (advanceLogged P m table flags c).map Prod.snd = advance P m table flags c := by
  simp only [advanceLogged, advance]
  split
  · split
    · simp [Option.map_bind]
    · simp [Option.map_bind]
  · simp [Option.map_bind]

theorem mapRangeLoopLogged_eq (table flags : Nat) : ∀ (fuel : Nat) (c : Cursor) (m : Machine σ),
    (mapRangeLoopLogged P table flags fuel c m).map Prod.snd =
      mapRangeLoop P table flags fuel c m := by
  intro fuel
  induction fuel with
  | zero =>
    intro c m
    rw [mapRangeLoopLogged, mapRangeLoop]
    split <;> simp
  | succ fuel ih =>
    intro c m
    rw [mapRangeLoopLogged, mapRangeLoop]
    split
    · simp
    · simp only [Option.bind_eq_bind, ← advanceLogged_eq, ← ih, Option.map_eq_bind,
        Option.bind_assoc, Function.comp_def, Option.pure_def, Option.bind_some]

/-- Without its log it is the code. -/
theorem mapRangeLogged_eq (m : Machine σ) (table v p flags count : Nat) :
    (mapRangeLogged P m table v p flags count).map Prod.snd =
      mapRange P m table v p flags count := by
  simp only [mapRangeLogged, mapRange, Option.bind_eq_bind, ← mapRangeLoopLogged_eq,
    Option.map_eq_bind, Option.bind_assoc, Function.comp_def, Option.pure_def, Option.bind_some]

end

/-! ## What should hold -/

/-- The entry is on the walk for `v`. -/
def OnWalk (hhdm : Nat) (mem : Mem) (root v : Nat) (x : Access) : Prop :=
  ∃ q, q ++ [x.index] <+: leafPath v ++ [pIndex v] ∧ walk hhdm mem root q = some x.layer

/-- Every entry in the log is on the walk for one of the `count` pages from `v` on. Layers
stay where they are, so that the walks are those at the end. -/
def StaysInside {σ : Type} (P : PageSource σ) (root v count : Nat) (log : List Access)
    (m' : Machine σ) : Prop :=
  ∀ x ∈ log, ∃ k, k < count ∧ OnWalk P.hhdm m'.mem root (pageAfter v k) x

/-! ## The access behind the end -/

variable {σ : Type} {P : PageSource σ} {root f : Nat} {m m' : Machine σ}

/-- The first entry that the code asks for after the chunk of `v`. -/
def nextAccess (root v : Nat) (l : Layers) : Access :=
  if pml1Index v + 1 < 512 then ⟨l.pml2, pml1Index v + 1⟩
  else if pml2Index v + 1 < 512 then ⟨l.pml3, pml2Index v + 1⟩
  else ⟨root, pml3Index v + 1⟩

theorem nextAccess_mem {v p count : Nat} {l : Layers} {log : List Access} {c : Cursor}
    (h : advanceLogged P m root f (cursorAt v l p count) = some (log, c, m')) :
    nextAccess root v l ∈ log := by
  by_cases h1 : 512 ≤ pml1Index v + 1
  · by_cases h2 : 512 ≤ pml2Index v + 1
    · simp only [advanceLogged, cursorAt, h1, h2, if_true, Option.bind_eq_bind,
        Option.bind_eq_some_iff, Option.pure_def, Option.some.injEq, Prod.mk.injEq] at h
      obtain ⟨_, -, _, -, _, -, rfl, -⟩ := h
      simp [nextAccess, Nat.not_lt.mpr h1, Nat.not_lt.mpr h2]
    · simp only [advanceLogged, cursorAt, h1, h2, if_true, if_false, Option.bind_eq_bind,
        Option.bind_eq_some_iff, Option.pure_def, Option.some.injEq, Prod.mk.injEq] at h
      obtain ⟨_, -, _, -, rfl, -⟩ := h
      simp [nextAccess, Nat.not_lt.mpr h1, Nat.not_le.mp h2]
  · simp only [advanceLogged, cursorAt, h1, if_false, Option.bind_eq_bind,
      Option.bind_eq_some_iff, Option.pure_def, Option.some.injEq, Prod.mk.injEq] at h
    obtain ⟨_, -, rfl, -⟩ := h
    simp [nextAccess, Nat.not_le.mp h1]

theorem advance_count {c c' : Cursor} (h : advance P m root f c = some (c', m')) :
    c'.count = c.count := by
  by_cases h1 : 512 ≤ c.pml1Index + 1
  · by_cases h2 : 512 ≤ c.pml2Index + 1
    · simp only [advance, h1, h2, if_true, Option.bind_eq_bind, Option.bind_eq_some_iff,
        Option.pure_def, Option.some.injEq, Prod.mk.injEq] at h
      obtain ⟨_, -, _, -, _, -, rfl, -⟩ := h
      rfl
    · simp only [advance, h1, h2, if_true, if_false, Option.bind_eq_bind, Option.bind_eq_some_iff,
        Option.pure_def, Option.some.injEq, Prod.mk.injEq] at h
      obtain ⟨_, -, _, -, rfl, -⟩ := h
      rfl
  · simp only [advance, h1, if_false, Option.bind_eq_bind, Option.bind_eq_some_iff,
      Option.pure_def, Option.some.injEq, Prod.mk.injEq] at h
    obtain ⟨_, -, rfl, -⟩ := h
    rfl

theorem loop_done {fuel : Nat} {c : Cursor} {rest : List Access} (hc : c.count = 0)
    (h : mapRangeLoopLogged P root f fuel c m = some (rest, m')) : m = m' := by
  cases fuel <;> simp only [mapRangeLoopLogged, hc, if_true, Option.some.injEq, Prod.mk.injEq] at h
  · exact h.2
  · exact h.2

/-- The last round of a loop: the chunk of its last page, with its layers at hand, and the
advance that ends it. -/
def LastRound (P : PageSource σ) (root f v count : Nat) (log : List Access) (m' : Machine σ) :
    Prop :=
  ∃ (w p : Nat) (l : Layers) (m₁ : Machine σ), vpn w / 512 = (vpn v + count - 1) / 512 ∧
    Tree P 512 m₁ root ∧ Warm P f m₁.mem root w l ∧ nextAccess root w l ∈ log ∧
    (advance P m₁ root f (cursorAt w l p 0)).map Prod.snd = some m'

theorem lastRound_of_loop (fuel : Nat) : ∀ (v p count : Nat) (l : Layers) (m : Machine σ)
    (log : List Access), Tree P 512 m root → Warm P f m.mem root v l → count ≠ 0 →
    vpn v + count ≤ 2 ^ 36 →
    mapRangeLoopLogged P root f fuel (cursorAt v l p count) m = some (log, m') →
    LastRound P root f v count log m' := by
  induction fuel with
  | zero =>
    intro v p count l m log _ _ hc _ h
    simp [mapRangeLoopLogged, cursorAt, hc] at h
  | succ fuel ih =>
    intro v p count l m log ht hw hc hfit h
    have hpi : pIndex v = vpn v % 512 := pIndex_eq v
    obtain ⟨t, ht0⟩ : ∃ t, t = if count < 512 - pIndex v then count else 512 - pIndex v := ⟨_, rfl⟩
    have ht1 : 0 < t ∧ t ≤ count ∧ pIndex v + t ≤ 512 := by
      have := pIndex_lt v
      split at ht0 <;> omega
    obtain ⟨htree, hwarm, -⟩ := mapEach_of_warm (p := p) t 0 m ht hw (by omega)
    obtain ⟨layers, c, m₁, rest, hadv, hloop, hlog⟩ : ∃ layers c m₁ rest,
        advanceLogged P (mapEntries l.pml1 (pIndex v) p f t 0 m) root f
          (cursorAt v l (pageAfter p t) (count - t)) = some (layers, c, m₁) ∧
        mapRangeLoopLogged P root f fuel c m₁ = some (rest, m') ∧
        ∀ x, x ∈ layers ∨ x ∈ rest → x ∈ log := by
      rw [ht0]
      simp only [mapRangeLoopLogged, cursorAt, hc, if_false, Option.bind_eq_bind,
        Option.bind_eq_some_iff, Option.pure_def, Option.some.injEq, Prod.mk.injEq,
        Prod.exists] at h
      obtain ⟨layers, c, m₁, hadv, rest, m₂, hloop, rfl, rfl⟩ := h
      refine ⟨layers, c, m₁, rest, hadv, hloop, fun x hx => ?_⟩
      rcases hx with hx | hx <;> simp [hx]
    have hadv' : advance P (mapEntries l.pml1 (pIndex v) p f t 0 m) root f
        (cursorAt v l (pageAfter p t) (count - t)) = some (c, m₁) := by
      rw [← advanceLogged_eq, hadv, Option.map_some]
    generalize mapEntries l.pml1 (pIndex v) p f t 0 m = m₀ at htree hwarm hadv hadv'
    by_cases hlast : count - t = 0
    · -- nothing is left, but the code has gone on
      rw [hlast] at hadv hadv'
      have hdone : m₁ = m' := loop_done (advance_count hadv') hloop
      refine ⟨v, pageAfter p t, l, m₀, by omega, htree, hwarm, hlog _ (.inl (nextAccess_mem hadv)),
        ?_⟩
      rw [hadv', Option.map_some, hdone]
    · have hroom : vpn v / 512 + 1 < 2 ^ 27 := by
        split at ht0 <;> omega
      have hchunk : vpn (chunkAfter v) = (vpn v / 512 + 1) * 512 := by rw [vpn_chunkAfter]; omega
      rw [advance_eq hwarm hroom, Option.map_eq_some_iff] at hadv'
      obtain ⟨⟨l', m₂⟩, hd, he⟩ := hadv'
      cases he
      obtain ⟨w, p', l₂, m₂, hvpn, ht₂, hw₂, hmem, hm'⟩ := ih _ _ _ _ _ _
        (descendLayers_tree htree hd) (warm_of_descendLayers htree (pml3Index_lt _) hd) hlast
        (by split at ht0 <;> omega) hloop
      refine ⟨w, p', l₂, m₂, ?_, ht₂, hw₂, hlog _ (.inr hmem), hm'⟩
      split at ht0 <;> omega

/-! ## No walk of the range leads there -/

theorem index_lt_of_path {v i : Nat} (h : i ∈ leafPath v ++ [pIndex v]) : i < 512 := by
  simp only [leafPath, List.cons_append, List.nil_append, List.mem_cons, List.not_mem_nil,
    or_false] at h
  rcases h with rfl | rfl | rfl | rfl
  · exact pml3Index_lt v
  · exact pml2Index_lt v
  · exact pml1Index_lt v
  · exact pIndex_lt v

/-- In a tree the path to an entry is the only one. -/
theorem OnWalk.path {v : Nat} {q : List Nat} {x : Access} (h : OnWalk P.hhdm m.mem root v x)
    (ht : Tree P 512 m root) (hq : Valid 512 q)
    (hw : walk P.hhdm m.mem root q = some x.layer) : q ++ [x.index] <+: leafPath v ++ [pIndex v] := by
  obtain ⟨q', hp, hw'⟩ := h
  have hlen : q'.length ≤ 3 := by
    have := hp.length_le
    simp [leafPath] at this
    omega
  have hidx : ∀ i ∈ q', i < 512 := fun i hi =>
    index_lt_of_path (hp.subset (List.mem_append_left _ hi))
  have hv : Valid 512 q' := ⟨hlen, hidx, fun i hi => hidx i (List.mem_of_mem_head? hi)⟩
  rw [ht.inj q q' x.layer hq hv hw hw']
  exact hp

/-- The entry behind the chunk of `w` is on the walk of no page up to it. -/
theorem nextAccess_outside {w p : Nat} {l : Layers} {m₁ : Machine σ} (ht : Tree P 512 m₁ root)
    (hw : Warm P f m₁.mem root w l)
    (hm : (advance P m₁ root f (cursorAt w l p 0)).map Prod.snd = some m') {v : Nat}
    (hv : vpn v / 512 ≤ vpn w / 512) :
    ¬OnWalk P.hhdm m'.mem root v (nextAccess root w l) := by
  intro hon
  have hlt := vpn_lt w
  by_cases htop : vpn w / 512 + 1 < 2 ^ 27
  · rw [advance_eq hw htop, Option.map_map, Option.map_eq_some_iff] at hm
    obtain ⟨⟨l', m₂⟩, hd, rfl⟩ := hm
    have hd' : descend P m₁ root (chunkAfter w) f = some (l'.pml1, m₂) := by rw [descend_eq, hd]; rfl
    obtain ⟨hg, -, -⟩ := descend_spec ht (pml3Index_lt _) hd'
    obtain ⟨w1, w2, -⟩ := hw.walks
    obtain ⟨hv1, hv2, -⟩ := valid_prefixes (pml3Index_lt w)
    simp only [nextAccess] at hon
    split at hon
    · have hp := hon.path hg.tree hv2 (hg.kept _ _ hv2 w2)
      simp only [leafPath, List.cons_append, List.nil_append, List.cons_prefix_cons,
        List.nil_prefix, and_true, pml3Index_eq, pml2Index_eq, pml1Index_eq] at hp
      omega
    · rename_i h1
      split at hon
      · have hp := hon.path hg.tree hv1 (hg.kept _ _ hv1 w1)
        simp only [leafPath, List.cons_append, List.nil_append, List.cons_prefix_cons,
          List.nil_prefix, and_true, pml3Index_eq, pml2Index_eq] at hp
        omega
      · have hp := hon.path hg.tree .nil rfl
        simp only [leafPath, List.cons_append, List.nil_append, List.cons_prefix_cons,
          List.nil_prefix, and_true, pml3Index_eq] at hp
        omega
  · -- the last chunk of the address space
    have hidx : (nextAccess root w l).index = 512 := by
      rw [nextAccess, if_neg (by rw [pml1Index_eq]; omega), if_neg (by rw [pml2Index_eq]; omega)]
      simp only [pml3Index_eq]
      omega
    obtain ⟨q, hp, -⟩ := hon
    have := index_lt_of_path (hp.subset (List.mem_append_right _ (List.mem_singleton_self _)))
    omega

/-- **No range stays inside.** For every table, flags, physical address, address and count
with the range in the 48-bit address space: a call that returns has accessed an entry that
is on the walk of no page of the range. -/
theorem never_stays_inside (ht : Tree P 512 m root) {v p count : Nat}
    (hfit : v % 2 ^ 48 + count * PAGE ≤ 2 ^ 48) {log : List Access}
    (h : mapRangeLogged P m root v p f count = some (log, m')) :
    ¬StaysInside P root v count log m' := by
  intro hin
  simp only [mapRangeLogged, Option.bind_eq_bind, Option.bind_eq_some_iff, Option.pure_def,
    Option.some.injEq, Prod.mk.injEq, Prod.exists] at h
  obtain ⟨pml3, m₁, h1, pml2, m₂, h2, pml1, m₃, h3, rest, m₄, hloop, rfl, rfl⟩ := h
  by_cases hc : count = 0
  · obtain ⟨k, hk, -⟩ := hin _ (List.mem_cons_self ..)
    omega
  · have hd : descendLayers P m root v f = some (⟨pml3, pml2, pml1⟩, m₃) := by
      simp only [descendLayers, h1, h2, h3, Option.bind_eq_bind, Option.bind_some, Option.pure_def]
    have hpages : vpn v + count ≤ 2 ^ 36 := by
      simp only [PAGE] at hfit
      unfold vpn
      omega
    obtain ⟨w, p', l, m₁, hw, ht₁, hwarm, hmem, hm⟩ := lastRound_of_loop count v p count _ m₃ rest
      (descendLayers_tree ht hd) (warm_of_descendLayers ht (pml3Index_lt v) hd) hc hpages hloop
    obtain ⟨k, hk, hon⟩ := hin _ (List.mem_cons_of_mem _ (List.mem_cons_of_mem _
      (List.mem_cons_of_mem _ hmem)))
    refine nextAccess_outside ht₁ hwarm hm ?_ hon
    rw [hw, vpn_pageAfter]
    omega

/-! ## Inputs -/

/-- One page at 0x400000: besides the walk of the page, the entry of 0x600000. -/
theorem small_goes_outside : ∃ log m',
    mapRangeLogged smallSource smallTable.machine smallTable.root 0x400000 0x5000 6 1 =
      some (log, m') ∧ ¬StaysInside smallSource smallTable.root 0x400000 1 log m' := by
  obtain ⟨⟨log, m'⟩, h⟩ := Option.isSome_iff_exists.mp (show (mapRangeLogged smallSource
    smallTable.machine smallTable.root 0x400000 0x5000 6 1).isSome by decide +kernel)
  exact ⟨log, m', h, never_stays_inside
    ((table_inductive smallSource).reachable smallTable_reachable) (by decide) h⟩

/-- **Counterexample**: before the call for one page at 0x400000 the table is empty. After it
the entry above 0x600000 leads to a layer. -/
theorem layer_behind_range : ∃ m',
    mapRange smallSource smallTable.machine smallTable.root 0x400000 0x5000 6 1 = some m' ∧
    walk smallSource.hhdm smallTable.machine.mem smallTable.root (leafPath 0x600000) = none ∧
    (walk smallSource.hhdm m'.mem smallTable.root (leafPath 0x600000)).isSome = true ∧
    ∃ log, mapRangeLogged smallSource smallTable.machine smallTable.root 0x400000 0x5000 6 1 =
        some (log, m') ∧
      ∃ x ∈ log, ¬∃ k, k < 1 ∧
        OnWalk smallSource.hhdm m'.mem smallTable.root (pageAfter 0x400000 k) x := by
  have hrun : (mapRangeLogged smallSource smallTable.machine smallTable.root 0x400000 0x5000 6 1).map
      (fun (log, m') => (log.getLast?.map Access.index,
        (walk smallSource.hhdm m'.mem smallTable.root (leafPath 0x600000)).isSome)) =
      some (some 3, true) := by decide +kernel
  rw [Option.map_eq_some_iff] at hrun
  obtain ⟨⟨log, m'⟩, h, he⟩ := hrun
  simp only [Prod.mk.injEq, Option.map_eq_some_iff] at he
  obtain ⟨⟨x, hx, hidx⟩, hlayer⟩ := he
  refine ⟨m', ?_, by decide +kernel, hlayer, log, h, x, List.mem_of_getLast? hx, ?_⟩
  · rw [← mapRangeLogged_eq, h, Option.map_some]
  · intro ⟨k, hk, hon⟩
    obtain ⟨q, hp, -⟩ := hon
    -- the walk of the page has the indices 0, 0, 2 and 0
    have hk0 : k = 0 := by omega
    have hmem := hp.subset (List.mem_append_right _ (List.mem_singleton_self x.index))
    rw [hk0, hidx] at hmem
    revert hmem
    decide

end GaOS.Bugs.RangeAccess
