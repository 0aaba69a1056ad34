import GaOS.L2Paging.MapRange

/-!
# What a page keeps of its earlier mappings

`arch_table_manager_map` and `arch_table_manager_map_range` put flags into an entry by
`|=`, and `arch_table_manager_set_address` clears the address alone
(kernel/src/arch/x86_64/page_table_manager/table_manager.c:10-15, 122-124). Nothing in the
kernel takes a flag away from an entry. So the flags of a page are all those that it was
ever mapped with: `flags_accumulate` states this over every run of `rangeLTS`, and that a
map leaves exactly its own flags iff it gives at least those that the page had.
-/
namespace GaOS.L2.TableManager

open GaOS.L1 GaOS.L1.PageAllocator

variable {σ : Type} {P : PageSource σ} {root f : Nat} {m m' : Machine σ}

/-! ## Bits that a call puts in -/

/-- The bits that a call puts into the entry of the page of `v`. -/
def givenBy (v : Nat) : RangeOp → Nat
  | .one (.map v' p f) => if vpn v = vpn v' then (f ||| TABLE_ENTRY_PRESENT) ||| p else 0
  | .one .other => 0
  | .mapRange v' p f count =>
    if vpn v' ≤ vpn v ∧ vpn v < vpn v' + count then
      (f ||| TABLE_ENTRY_PRESENT) ||| pageAfter p (vpn v - vpn v')
    else 0

/-- The bits that a run has put into it. -/
def given (v : Nat) (ops : List RangeOp) : Nat := ops.foldr (fun op bits => givenBy v op ||| bits) 0

theorem given_snoc (v : Nat) (ops : List RangeOp) (op : RangeOp) :
    given v (ops ++ [op]) = given v ops ||| givenBy v op := by
  induction ops with
  | nil => simp [given]
  | cons o ops ih =>
    simp only [given, List.cons_append, List.foldr_cons] at ih ⊢
    rw [ih, Nat.or_assoc]

theorem setAddress_flags (e a : Nat) :
    setAddress e a &&& FLAGS_MASK = (e ||| a) &&& FLAGS_MASK := by
  rw [setAddress, Nat.and_or_distrib_right, Nat.and_assoc, Nat.and_self, ← Nat.and_or_distrib_right]

/-- One step adds the bits of its call to the flags of every page. -/
theorem step_flags {s t : Table σ} {op : RangeOp} (ht : Tree P 512 s.machine s.root)
    (h : (rangeLTS P).step s op t) (v : Nat) :
    leafEntry P.hhdm t.machine.mem t.root v &&& FLAGS_MASK =
      (leafEntry P.hhdm s.machine.mem s.root v ||| givenBy v op) &&& FLAGS_MASK := by
  cases op with
  | one op =>
    obtain ⟨hroot, h⟩ := h
    rw [hroot]
    cases op with
    | map v' p f =>
      obtain ⟨-, hself, hother⟩ := map_spec ht (pml3Index_lt v') h
      by_cases he : vpn v = vpn v'
      · rw [givenBy, if_pos he, leafEntry_congr _ _ he, hself, setAddress_flags,
          leafEntry_congr P.hhdm s.machine.mem he, Nat.or_assoc]
      · rw [givenBy, if_neg he, hother v (pml3Index_lt v) he, Nat.or_zero]
    | other => rw [givenBy, Nat.or_zero, h.leafEntry (pml3Index_lt v)]
  | mapRange v' p f count =>
    obtain ⟨hr, hroot, h⟩ := h
    rw [hroot, mapRange_leaf ht hr h v, givenBy]
    split
    · rw [setAddress_flags, Nat.or_assoc]
    · rw [Nat.or_zero]

/-- The flags of a page are the bits that the run has put into its entry. -/
theorem run_flags {s₀ s : Table σ} {ops : List RangeOp} (h₀ : (rangeLTS P).init s₀)
    (hrun : (rangeLTS P).Run s₀ ops s) (v : Nat) :
    leafEntry P.hhdm s.machine.mem s.root v &&& FLAGS_MASK = given v ops &&& FLAGS_MASK := by
  have hind := range_inductive P
  suffices Tree P 512 s.machine s.root ∧ leafEntry P.hhdm s.machine.mem s.root v &&& FLAGS_MASK =
    given v ops &&& FLAGS_MASK from this.2
  refine LTS.Run.history (I := fun ops s => Tree P 512 s.machine s.root ∧
    leafEntry P.hhdm s.machine.mem s.root v &&& FLAGS_MASK = given v ops &&& FLAGS_MASK)
    hrun ⟨hind.init s₀ h₀, ?_⟩ ?_
  · obtain ⟨m, hm⟩ := h₀
    rw [archTableManagerNew_leaf hm]
    rfl
  · intro ops s op t ⟨ht, hs⟩ hst
    refine ⟨hind.step s op t ht hst, ?_⟩
    rw [step_flags ht hst, Nat.and_or_distrib_right, hs, ← Nat.and_or_distrib_right, given_snoc]

/-- **Flags accumulate.** After any run, and a map of `v` to the page `p` with `f`, the entry
of `v` is the address, these flags and every flag that the page was mapped with before. It
is exactly `p | f | TABLE_ENTRY_PRESENT` iff the page had no other flags. -/
theorem flags_accumulate {s₀ s : Table σ} {ops : List RangeOp} (h₀ : (rangeLTS P).init s₀)
    (hrun : (rangeLTS P).Run s₀ ops s) {v p : Nat} (hp : p % PAGE = 0) (hlt : p < 2 ^ 52)
    (hf : f &&& FLAGS_MASK = f) (h : map P s.machine s.root v p f = some m') :
    leafEntry P.hhdm m'.mem s.root v =
      (given v ops &&& FLAGS_MASK) ||| (p ||| f ||| TABLE_ENTRY_PRESENT) ∧
    (leafEntry P.hhdm m'.mem s.root v = p ||| f ||| TABLE_ENTRY_PRESENT ↔
      (given v ops &&& FLAGS_MASK) ||| (f ||| TABLE_ENTRY_PRESENT) = f ||| TABLE_ENTRY_PRESENT) := by
  have ht := (range_inductive P).reachable ⟨s₀, ops, h₀, hrun⟩
  obtain ⟨-, hself, -⟩ := map_spec ht (pml3Index_lt v) h
  have hpm : p &&& FLAGS_MASK = 0 := and_flags_of_page hp hlt
  have hfm : (f ||| TABLE_ENTRY_PRESENT) &&& FLAGS_MASK = f ||| TABLE_ENTRY_PRESENT := by
    rw [Nat.and_or_distrib_right, hf, show TABLE_ENTRY_PRESENT &&& FLAGS_MASK = TABLE_ENTRY_PRESENT
      by decide]
  have hleaf : leafEntry P.hhdm m'.mem s.root v =
      (given v ops &&& FLAGS_MASK) ||| (p ||| f ||| TABLE_ENTRY_PRESENT) := by
    rw [hself, setAddress, Nat.and_or_distrib_right, run_flags h₀ hrun, hfm, Nat.or_assoc,
      Nat.or_comm _ p, Nat.or_assoc p]
  refine ⟨hleaf, ?_⟩
  rw [hleaf]
  constructor
  · intro he
    -- the flag bits of both sides
    have := congrArg (· &&& FLAGS_MASK) he
    simpa only [Nat.or_assoc p, Nat.and_or_distrib_right _ _ FLAGS_MASK, Nat.and_assoc,
      Nat.and_self, hpm, Nat.zero_or, hf,
      show TABLE_ENTRY_PRESENT &&& FLAGS_MASK = TABLE_ENTRY_PRESENT by decide] using this
  · intro he
    rw [Nat.or_assoc p, Nat.or_comm p, ← Nat.or_assoc, he]

/-- A page that was mapped writable (6) to another frame before. -/
theorem flags_accumulate_small : ∃ t m',
    (rangeLTS smallSource).Run smallTable [.one (.map 0x400000 0x5000 6)] t ∧
      map smallSource t.machine t.root 0x400000 0x6000 4 = some m' ∧
      leafEntry smallSource.hhdm m'.mem t.root 0x400000 =
        (6 ||| TABLE_ENTRY_PRESENT) ||| (0x6000 ||| 4 ||| TABLE_ENTRY_PRESENT) := by
  obtain ⟨m₁, h1⟩ := Option.isSome_iff_exists.mp
    (show (map smallSource smallTable.machine smallTable.root 0x400000 0x5000 6).isSome by rfl)
  have hsecond : ((map smallSource smallTable.machine smallTable.root 0x400000 0x5000 6).bind
      fun m₁ => map smallSource m₁ smallTable.root 0x400000 0x6000 4).isSome = true := by
    decide +kernel
  rw [h1, Option.bind_some] at hsecond
  obtain ⟨m', h2⟩ := Option.isSome_iff_exists.mp hsecond
  have hstep : (rangeLTS smallSource).step smallTable (.one (.map 0x400000 0x5000 6))
      ⟨smallTable.root, m₁⟩ := ⟨rfl, h1⟩
  have hrun : (rangeLTS smallSource).Run smallTable [.one (.map 0x400000 0x5000 6)]
      ⟨smallTable.root, m₁⟩ := .cons hstep (.nil _)
  refine ⟨⟨smallTable.root, m₁⟩, m', hrun, h2, ?_⟩
  have hleaf := (flags_accumulate ⟨⟨fun _ => 0xAA, 0⟩, rfl⟩ hrun (by decide) (by decide)
    (by decide) h2).1
  rw [hleaf]
  decide

/-- **Counterexample**: a user page that is mapped writable (6) and then again read-only (4)
to the same frame stays writable. -/
theorem write_flag_stays : ∃ s t : Table Nat,
    (rangeLTS smallSource).Reachable s ∧
      (rangeLTS smallSource).step s (.one (.map 0x400000 0x5000 6)) t ∧
      ∃ m', map smallSource t.machine t.root 0x400000 0x5000 4 = some m' ∧
        leafEntry smallSource.hhdm m'.mem t.root 0x400000 = 0x5007 ∧
        0x5007 ≠ 0x5000 ||| 4 ||| TABLE_ENTRY_PRESENT := by
  obtain ⟨m₁, h1⟩ := Option.isSome_iff_exists.mp
    (show (map smallSource smallTable.machine smallTable.root 0x400000 0x5000 6).isSome by rfl)
  have hleaf : ((map smallSource smallTable.machine smallTable.root 0x400000 0x5000 6).bind
      fun m₁ => (map smallSource m₁ smallTable.root 0x400000 0x5000 4).map fun m' =>
        leafEntry smallSource.hhdm m'.mem smallTable.root 0x400000) = some 0x5007 := by
    decide +kernel
  rw [h1, Option.bind_some, Option.map_eq_some_iff] at hleaf
  obtain ⟨m', h2, hleaf⟩ := hleaf
  exact ⟨smallTable, ⟨smallTable.root, m₁⟩, smallTable_rangeLTS, ⟨rfl, h1⟩, m', h2, hleaf,
    by decide⟩

end GaOS.L2.TableManager
