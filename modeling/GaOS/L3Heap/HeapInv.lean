import GaOS.Core.LTS
import GaOS.Core.Tiling
import GaOS.L3Heap.Headers

/-!
# The heap invariant

`HeapInv h L tiles`: the lists `L` of the heap are well-formed, and the blocks
on them, in the order of their addresses, tile the heap. One lemma for each
operation says that it keeps the invariant, with the lists and the tiling that
it leaves: `moveTo_inv` (a block changes lists), `createFreeBlock_inv` (a block
at the end), `splitBlock_inv` (a block cut in two) and `HeapInv.congr` (payload
written). `blockAllocate_inv` and `blockDeallocate_inv` are put together from
them, and `heap_inductive` is the run. Next to the invariant each lemma says of
which blocks size and payload are `Kept`.
-/
namespace GaOS.L3.BlockAllocator

open GaOS.L1 GaOS.L1.PageAllocator GaOS.L2.TableManager

variable {σ : Type} {P : PageSource σ} {h h' : Heap σ} {L : BlockList → List Nat}
  {tiles : List Nat} {b : Nat}

structure BlockOk (mem : Mem) (b : Nat) : Prop where
  signature_eq : signature mem b = BLOCK_SIGNATURE
  address : b % 16 = 0
  size_mod : size mem b % 16 = 0
  size_min : 16 ≤ size mem b

/-- Bytes that a block takes. -/
def extent (mem : Mem) (b : Nat) : Nat := HEADER + size mem b

structure HeapInv (h : Heap σ) (L : BlockList → List Nat) (tiles : List Nat) : Prop where
  lists : Lists h L
  perm : (L .free ++ L .busy).Perm tiles
  tiling : Tiles (extent h.mem) h.virtualBase h.currentVirtualAddress tiles
  block : ∀ b ∈ tiles, BlockOk h.mem b
  base_pos : 0 < h.virtualBase
  base_aligned : h.virtualBase % PAGE = 0
  current_aligned : h.currentVirtualAddress % PAGE = 0
  current_lt : h.currentVirtualAddress < 2 ^ 64

theorem HeapInv.headers (hi : HeapInv h L tiles) : Headers tiles := by
  refine ⟨fun a ha b hb => ?_, fun b hb => ?_⟩
  · have := hi.tiling.apart ha hb
    simp only [extent] at this; omega
  · have := (hi.tiling.bounds hb).1
    have := hi.base_pos
    omega

theorem HeapInv.mem_tiles (hi : HeapInv h L tiles) (k : BlockList) : ∀ x ∈ L k, x ∈ tiles := by
  intro x hx
  apply hi.perm.mem_iff.mp
  cases k with
  | free => exact List.mem_append_left _ hx
  | busy => exact List.mem_append_right _ hx

theorem HeapInv.mem_list (hi : HeapInv h L tiles) {x : Nat} (hx : x ∈ tiles) : ∃ k, x ∈ L k := by
  cases List.mem_append.mp (hi.perm.mem_iff.mpr hx) with
  | inl hx => exact ⟨.free, hx⟩
  | inr hx => exact ⟨.busy, hx⟩

/-- Only the headers matter. -/
theorem HeapInv.congr (hi : HeapInv h L tiles) {mem' : Mem} {machine' : Machine σ}
    (hm : ∀ x ∈ tiles, ∀ y, x ≤ y → y < x + HEADER → mem' y = h.mem y) :
    HeapInv { h with mem := mem', machine := machine' } L tiles := by
  have hf : ∀ x ∈ tiles, signature mem' x = signature h.mem x ∧ size mem' x = size h.mem x ∧
      next mem' x = next h.mem x ∧ previous mem' x = previous h.mem x := by
    intro x hx
    have hw : ∀ o, o < HEADER → mem' (x + o) = h.mem (x + o) :=
      fun o ho => hm x hx _ (Nat.le_add_right _ _) (Nat.add_lt_add_left ho _)
    exact ⟨hw 0 (by decide), hw 8 (by decide), hw 16 (by decide), hw 32 (by decide)⟩
  refine { hi with lists := ⟨fun k => ?_, hi.lists.disjoint⟩, tiling := ?_, block := ?_ }
  · refine DList.congr ?_ fun x hx => ⟨(hf x (hi.mem_tiles k x hx)).2.2.1,
      (hf x (hi.mem_tiles k x hx)).2.2.2⟩
    cases k with
    | free => exact hi.lists.dlist .free
    | busy => exact hi.lists.dlist .busy
  · refine hi.tiling.congr fun x hx => ?_
    simp only [extent, (hf x hx).2.1]
  · intro x hx
    obtain ⟨h1, h2, -⟩ := hf x hx
    have := hi.block x hx
    exact ⟨h1.trans this.signature_eq, this.address, by rw [h2]; exact this.size_mod,
      by rw [h2]; exact this.size_min⟩

theorem HeapInv.block_end (hi : HeapInv h L tiles) {c : Nat} (hc : c ∈ tiles) :
    c + HEADER + size h.mem c ≤ h.currentVirtualAddress := by
  have := (hi.tiling.bounds hc).2
  simp only [extent] at this; omega

/-! ## Payloads -/

/-- Block `x` has its size and its payload as before. -/
structure Kept (mem mem' : Mem) (x : Nat) : Prop where
  size_eq : size mem' x = size mem x
  payload : ∀ y, x + HEADER ≤ y → y < x + HEADER + size mem x → mem' y = mem y

theorem Kept.refl (mem : Mem) (x : Nat) : Kept mem mem x := ⟨rfl, fun _ _ _ => rfl⟩

theorem Kept.trans {m₁ m₂ m₃ : Mem} {x : Nat} (h₁ : Kept m₁ m₂ x) (h₂ : Kept m₂ m₃ x) :
    Kept m₁ m₃ x := by
  refine ⟨h₂.size_eq.trans h₁.size_eq, fun y h3 h4 => ?_⟩
  rw [h₂.payload y h3 (by rw [h₁.size_eq]; exact h4), h₁.payload y h3 h4]

/-- No header lies in a payload. -/
theorem HeapInv.payload_outside (hi : HeapInv h L tiles) {x y : Nat} (hx : x ∈ tiles)
    (h1 : x + HEADER ≤ y) (h2 : y < x + HEADER + size h.mem x) : Outside tiles y := by
  intro z hz
  have := hi.tiling.apart hx hz
  simp only [extent] at this
  rcases this with rfl | h3 | h3
  · exact .inr h1
  · exact .inl (by omega)
  · exact .inr (by omega)

/-- Writes to links keep every payload. -/
theorem Fields.kept {mem' : Mem} {n p g : Nat → Nat} (hi : HeapInv h L tiles)
    (hf : Fields tiles h.mem mem' n p (size h.mem) g) {x : Nat} (hx : x ∈ tiles) :
    Kept h.mem mem' x :=
  ⟨hf.size_eq x hx, fun y h1 h2 => hf.frame y (hi.payload_outside hx h1 h2)⟩

/-! ## A block changes lists -/

theorem perm_remove {k : BlockList} {xs ys : List Nat} (hk : L k = xs ++ b :: ys) :
    (L .free ++ L .busy).Perm
      (b :: (Function.update L k (xs ++ ys) .free ++ Function.update L k (xs ++ ys) .busy)) := by
  cases k with
  | free => simp [hk, Function.update]
  | busy =>
    simp only [hk, Function.update, reduceCtorEq, dite_false, dite_true]
    rw [← List.append_assoc, ← List.append_assoc]
    exact List.perm_middle

theorem perm_push (k : BlockList) :
    (Function.update L k (b :: L k) .free ++ Function.update L k (b :: L k) .busy).Perm
      (b :: (L .free ++ L .busy)) := by
  cases k with
  | free => simp [Function.update]
  | busy => simp [Function.update]

theorem pushBlock_region (k : BlockList) (b : Nat) (h : Heap σ) :
    (pushBlock k b h).virtualBase = h.virtualBase ∧
      (pushBlock k b h).currentVirtualAddress = h.currentVirtualAddress := by
  cases k <;> exact ⟨rfl, rfl⟩

/-- `moveTo` relinks the block and leaves sizes, signatures and payload alone. -/
theorem moveTo_inv (hi : HeapInv h L tiles) (hb : b ∈ tiles) (k : BlockList) :
    ∃ L' n p, HeapInv (moveTo k b h) L' tiles ∧ b ∈ L' k ∧
      (∀ i x, x ≠ b → x ∈ L i → x ∈ L' i) ∧
      Fields tiles h.mem (moveTo k b h).mem n p (size h.mem) (signature h.mem) := by
  have hB := hi.headers
  obtain ⟨j, hj⟩ := hi.mem_list hb
  obtain ⟨xs, ys, hsplit⟩ := List.append_of_mem hj
  obtain ⟨hL₁, n₁, p₁, hf₁⟩ := removeBlock_lists hB hi.lists hi.mem_tiles hsplit
  have hperm₁ := perm_remove hsplit
  have hnd : (b :: (Function.update L j (xs ++ ys) .free ++
      Function.update L j (xs ++ ys) .busy)).Nodup :=
    (hperm₁.symm.trans hi.perm).nodup_iff.mpr
      (hi.tiling.nodup fun x _ => Nat.add_pos_left (by decide) _)
  have hsub₁ : ∀ i, ∀ x ∈ Function.update L j (xs ++ ys) i, x ∈ tiles := by
    intro i x hx
    refine (hperm₁.symm.trans hi.perm).mem_iff.mp (List.mem_cons_of_mem _ ?_)
    cases i with
    | free => exact List.mem_append_left _ hx
    | busy => exact List.mem_append_right _ hx
  have hnew : ∀ i, b ∉ Function.update L j (xs ++ ys) i := by
    intro i hc
    apply (List.nodup_cons.mp hnd).1
    cases i with
    | free => exact List.mem_append_left _ hc
    | busy => exact List.mem_append_right _ hc
  have hL₂ := pushBlock_lists hB hL₁ hsub₁ hb hnew k
  obtain ⟨p₂, hf₂, -⟩ := pushBlock_fields hB hb (hL₁.start_mem hsub₁ k)
  have hf : Fields tiles h.mem (moveTo k b h).mem
      (Function.update (next (removeBlockFromList b h).mem) b
        ((removeBlockFromList b h).start k)) p₂ (size h.mem) (signature h.mem) :=
    ⟨hf₂.next_eq, hf₂.previous_eq, fun x hx => (hf₂.size_eq x hx).trans (hf₁.size_eq x hx),
      fun x hx => (hf₂.signature_eq x hx).trans (hf₁.signature_eq x hx),
      fun y hy => (hf₂.frame y hy).trans (hf₁.frame y hy)⟩
  obtain ⟨hr1, hr2⟩ := pushBlock_region k b (removeBlockFromList b h)
  refine ⟨_, _, _, ⟨hL₂, ?_, ?_, fun x hx => ?_, ?_, ?_, ?_, ?_⟩, ?_, fun i x hne hx => ?_, hf⟩
  · exact (perm_push k).trans (hperm₁.symm.trans hi.perm)
  · rw [moveTo, hr1, hr2]
    refine hi.tiling.congr fun x hx => ?_
    simp only [extent]
    exact congrArg (HEADER + ·) (hf.size_eq x hx)
  · have := hi.block x hx
    exact ⟨(hf.signature_eq x hx).trans this.signature_eq, this.address,
      by rw [hf.size_eq x hx]; exact this.size_mod, by rw [hf.size_eq x hx]; exact this.size_min⟩
  · rw [moveTo, hr1]; exact hi.base_pos
  · rw [moveTo, hr1]; exact hi.base_aligned
  · rw [moveTo, hr2]; exact hi.current_aligned
  · rw [moveTo, hr2]; exact hi.current_lt
  · rw [Function.update_self]; exact List.mem_cons_self
  · -- the other blocks stay where they are
    have h1 : x ∈ Function.update L j (xs ++ ys) i := by
      by_cases hij : i = j
      · subst hij
        rw [Function.update_self]
        rw [hsplit] at hx
        simpa [hne] using hx
      · rw [Function.update_of_ne hij]; exact hx
    by_cases hik : i = k
    · subst hik
      rw [Function.update_self]; exact List.mem_cons_of_mem _ h1
    · rw [Function.update_of_ne hik]; exact h1

/-- When blocks stay on their lists, so do those that were on the others. -/
theorem HeapInv.stay_iff (hi : HeapInv h L tiles) {L' : BlockList → List Nat}
    (hi' : HeapInv h' L' tiles) (hstay : ∀ i x, x ≠ b → x ∈ L i → x ∈ L' i) {i : BlockList} {x : Nat}
    (hne : x ≠ b) : x ∈ L' i ↔ x ∈ L i := by
  refine ⟨fun hx => ?_, hstay i x hne⟩
  obtain ⟨j, hj⟩ := hi.mem_list (hi'.mem_tiles i x hx)
  have hij := hi'.lists.disjoint x i j hx (hstay j x hne hj)
  exact hij ▸ hj

/-! ## A block at the end -/

theorem alignPage_eq (x : Nat) :
    alignPage x = add64 x (PAGE - 1) / PAGE * PAGE := by
  have hmask : not64 (PAGE - 1) = (2 ^ 52 - 1) <<< 12 := by decide
  have hlt : add64 x (PAGE - 1) < 2 ^ 64 := add64_lt _ _
  rw [alignPage, hmask]
  generalize add64 x (PAGE - 1) = y at hlt
  have hy : y / PAGE = y / 2 ^ 12 % 2 ^ 52 := by simp only [PAGE]; omega
  rw [hy, ← Nat.and_two_pow_sub_one_eq_mod, show PAGE = 2 ^ 12 by rfl, ← Nat.shiftRight_eq_div_pow,
    ← Nat.shiftLeft_eq]
  refine Nat.eq_of_testBit_eq fun i => ?_
  simp only [Nat.testBit_and, Nat.testBit_shiftLeft, Nat.testBit_shiftRight]
  by_cases hi : 12 ≤ i
  · simp only [ge_iff_le, hi, decide_true, Bool.true_and, show 12 + (i - 12) = i by omega]
  · simp [hi]

theorem alignPage_of_aligned {x : Nat} (h : x % PAGE = 0) (hlt : x < 2 ^ 64) :
    alignPage x = x := by
  rw [alignPage_eq, add64_of_lt (by simp only [PAGE] at *; omega)]
  simp only [PAGE] at *; omega

theorem RangeOk.end_lt {v count : Nat} (h : RangeOk v count) (hv : v < 2 ^ 64) :
    v + count * PAGE < 2 ^ 64 := by
  unfold RangeOk at h
  generalize count * PAGE = w at *
  omega

theorem Fields.initHeader {B : List Nat} {mem mem' : Mem} {n p z g : Nat → Nat} (hB : Headers B)
    (hf : Fields B mem mem' n p z g) (hb : b ∈ B) (pages : Nat) :
    Fields B mem (initHeader mem' b pages) (Function.update n b 0) (Function.update p b 0)
      (Function.update z b (sub64 (mul64 pages PAGE) HEADER))
      (Function.update g b BLOCK_SIGNATURE) :=
  (((hf.setSignature hB hb _).setPrevious hB hb 0).setNext hB hb 0).setSize hB hb _

/-- What `allocate_block` does. -/
theorem allocateBlock_cases {boot pages : Nat} (hs : allocateBlock P boot pages h = some (b, h')) :
    b = alignPage h.currentVirtualAddress ∧ pages ≠ 0 ∧ ∃ page m₁ machine,
      h.machine.pageAllocate P pages = some (page, m₁) ∧
      mapRange P m₁ boot b (sub64 page P.hhdm) TABLE_ENTRY_READ_WRITE pages = some machine ∧
      h' = { h with
        mem := initHeader (h.mem.zero b (pages * PAGE)) b pages
        machine := machine
        currentVirtualAddress := add64 b (mul64 pages PAGE) } := by
  simp only [allocateBlock, Option.bind_eq_bind, Option.bind_eq_some_iff, Prod.exists] at hs
  obtain ⟨page, m₁, hpage, hs⟩ := hs
  split at hs
  · cases hs
  · rename_i hne
    rw [Option.bind_eq_some_iff] at hs
    obtain ⟨m₂, hmap, hs⟩ := hs
    cases hs
    exact ⟨rfl, hne, page, m₁, m₂, hpage, hmap, rfl⟩

/-- On an empty list the shortcut of the code does what pushing does. -/
theorem pushBlock_empty {pages : Nat} {mem : Mem} (hm : h.mem = initHeader mem b pages)
    (h0 : h.freeListStart = 0) : pushBlock .free b h = { h with freeListStart := b } := by
  have hn : setNext h.mem b 0 = h.mem := by
    have he : h.mem (b + 16) = 0 := by
      simp [hm, initHeader, setSize, setNext, Mem.store]
    rw [setNext, ← he, Mem.store_same]
  have hp : setPrevious h.mem b 0 = h.mem := by
    have he : h.mem (b + 32) = 0 := by
      simp [hm, initHeader, setSize, setNext, setPrevious, Mem.store]
    rw [setPrevious, ← he, Mem.store_same]
  simp only [pushBlock, Heap.start, h0, hn, hp, ne_eq, not_true_eq_false, if_false, Heap.setStart]

theorem createFreeBlock_some {boot pages : Nat}
    (hs : createFreeBlock P boot pages h = some (b, h')) :
    ∃ h₁, allocateBlock P boot pages h = some (b, h₁) ∧
      h' = pushBlock .free b { h₁ with mem := initHeader h₁.mem b pages } := by
  simp only [createFreeBlock, Option.bind_eq_bind, Option.bind_eq_some_iff, Prod.exists] at hs
  obtain ⟨c, h₁, ha, hs⟩ := hs
  split at hs
  · rename_i h0
    cases hs
    exact ⟨h₁, ha,
      (pushBlock_empty (h := { h₁ with mem := initHeader h₁.mem b pages }) rfl h0).symm⟩
  · cases hs
    exact ⟨h₁, ha, rfl⟩

/-- The memory of a heap that has grown by `pages` pages at `b`: the old headers
are as before, and there is a new one. -/
theorem grown_fields {pages : Nat} (hi : HeapInv h L tiles) (hb : b = h.currentVirtualAddress)
    (hfit : pages * PAGE < 2 ^ 64) (hpos : HEADER ≤ pages * PAGE) :
    Headers (tiles ++ [b]) ∧ ∃ n p z g,
      Fields (tiles ++ [b]) (h.mem.zero b (pages * PAGE))
        (initHeader (initHeader (h.mem.zero b (pages * PAGE)) b pages) b pages) n p z g ∧
      (∀ x ∈ tiles, n x = next h.mem x ∧ p x = previous h.mem x ∧ z x = size h.mem x ∧
        g x = signature h.mem x) ∧
      z b = pages * PAGE - HEADER ∧ g b = BLOCK_SIGNATURE := by
  have hbelow : ∀ x ∈ tiles, x + HEADER ≤ b := by
    intro x hx
    have := (hi.tiling.bounds hx).2
    simp only [extent] at this; omega
  have hB : Headers (tiles ++ [b]) := by
    refine hi.headers.insert (fun x hx => by simpa [or_comm] using hx)
      (fun x hx => .inl (hbelow x hx)) ?_
    have := hi.tiling.le
    have := hi.base_pos
    omega
  have hm : b ∈ tiles ++ [b] := by simp
  have hf := ((Fields.refl (tiles ++ [b]) (h.mem.zero b (pages * PAGE))).initHeader hB hm
    pages).initHeader hB hm pages
  simp only [Function.update_idem] at hf
  refine ⟨hB, _, _, _, _, hf, fun x hx => ?_, ?_, Function.update_self ..⟩
  · have hlt := hbelow x hx
    have hne : x ≠ b := by simp only [HEADER] at hlt; omega
    have hz : ∀ o, o < HEADER → h.mem.zero b (pages * PAGE) (x + o) = h.mem (x + o) :=
      fun o ho => Mem.zero_out _ (.inl (by omega))
    simp only [Function.update_of_ne hne]
    exact ⟨hz 16 (by decide), hz 32 (by decide), hz 8 (by decide), hz 0 (by decide)⟩
  · rw [Function.update_self, mul64_of_lt hfit, sub64_of_le hpos hfit]

/-- The heap `h'` is `h` with a new free block of `pages` pages at its end. -/
structure Extended (h h' : Heap σ) (L : BlockList → List Nat) (tiles : List Nat) (b pages : Nat) :
    Prop where
  start : b = h.currentVirtualAddress
  pages_ne : pages ≠ 0
  end_lt : b + pages * PAGE < 2 ^ 64
  base : h'.virtualBase = h.virtualBase
  current : h'.currentVirtualAddress = b + pages * PAGE
  lists : Lists h' (Function.update L .free (b :: L .free))
  old : ∀ x ∈ tiles, size h'.mem x = size h.mem x ∧ signature h'.mem x = signature h.mem x
  new : size h'.mem b = pages * PAGE - HEADER ∧ signature h'.mem b = BLOCK_SIGNATURE
  zero : ∀ y, b + HEADER ≤ y → y < b + pages * PAGE → h'.mem y = 0
  frame : ∀ y, Outside tiles y → y < b → h'.mem y = h.mem y

theorem createFreeBlock_extended {boot pages : Nat} (hi : HeapInv h L tiles) (hr : Room h pages)
    (hs : createFreeBlock P boot pages h = some (b, h')) : Extended h h' L tiles b pages := by
  obtain ⟨h₁, ha, rfl⟩ := createFreeBlock_some hs
  obtain ⟨hb, hpages, -, -, machine, -, -, rfl⟩ := allocateBlock_cases ha
  rw [alignPage_of_aligned hi.current_aligned hi.current_lt] at hb
  rw [Room, alignPage_of_aligned hi.current_aligned hi.current_lt, ← hb] at hr
  have hend := RangeOk.end_lt hr (hb ▸ hi.current_lt)
  have hfit : pages * PAGE < 2 ^ 64 := by omega
  have hhdr : HEADER ≤ pages * PAGE :=
    Nat.le_trans (by decide) (Nat.le_mul_of_pos_left PAGE (Nat.pos_of_ne_zero hpages))
  obtain ⟨hB, n, p, z, g, hf, hold, hzb, hgb⟩ := grown_fields hi hb hfit hhdr
  have hm : b ∈ tiles ++ [b] := by simp
  have hmt : ∀ x ∈ tiles, x ∈ tiles ++ [b] := fun x hx => by simp [hx]
  have hbelow : ∀ x ∈ tiles, x + HEADER ≤ b := by
    intro x hx
    have := hi.block_end hx
    omega
  have hbt : b ∉ tiles := by
    intro hc
    have := hbelow b hc
    simp only [HEADER] at this; omega
  rw [mul64_of_lt hfit, add64_of_lt hend]
  -- the heap before the push
  generalize hmem₂ : initHeader (initHeader (h.mem.zero b (pages * PAGE)) b pages) b pages = mem₂
    at hf
  obtain ⟨h₂, hh₂⟩ : ∃ h₂ : Heap σ, h₂ =
      { h with mem := mem₂, machine := machine, currentVirtualAddress := b + pages * PAGE } :=
    ⟨_, rfl⟩
  rw [← hh₂]
  have hmem : h₂.mem = mem₂ := by rw [hh₂]
  have hL : Lists h₂ L := by
    refine ⟨fun k => ?_, hi.lists.disjoint⟩
    have hstart : h₂.start k = h.start k := by rw [hh₂]; cases k <;> rfl
    rw [hmem, hstart]
    refine (hi.lists.dlist k).congr fun x hx => ?_
    have hxt := hi.mem_tiles k x hx
    obtain ⟨h1, h2, -⟩ := hold x hxt
    exact ⟨(hf.next_eq x (hmt x hxt)).trans h1, (hf.previous_eq x (hmt x hxt)).trans h2⟩
  have hsub : ∀ k, ∀ x ∈ L k, x ∈ tiles ++ [b] := fun k x hx => hmt x (hi.mem_tiles k x hx)
  obtain ⟨p', hf', -⟩ := pushBlock_fields hB hm (hL.start_mem hsub .free)
  have hsize : ∀ x ∈ tiles ++ [b], size (pushBlock .free b h₂).mem x = z x := by
    intro x hx
    rw [hf'.size_eq x hx, hmem, hf.size_eq x hx]
  have hsig : ∀ x ∈ tiles ++ [b], signature (pushBlock .free b h₂).mem x = g x := by
    intro x hx
    rw [hf'.signature_eq x hx, hmem, hf.signature_eq x hx]
  have hout : ∀ y, Outside (tiles ++ [b]) y →
      (pushBlock .free b h₂).mem y = h.mem.zero b (pages * PAGE) y := by
    intro y hy
    rw [hf'.frame y hy, hmem, hf.frame y hy]
  refine ⟨hb, hpages, hend, by rw [hh₂]; rfl, by rw [hh₂]; rfl,
    pushBlock_lists hB hL hsub hm (fun k hc => hbt (hi.mem_tiles k b hc)) .free, fun x hx => ?_,
    ⟨(hsize b hm).trans hzb, (hsig b hm).trans hgb⟩, fun y h1 h2 => ?_, fun y h1 h2 => ?_⟩
  · exact ⟨(hsize x (hmt x hx)).trans (hold x hx).2.2.1, (hsig x (hmt x hx)).trans (hold x hx).2.2.2⟩
  · rw [hout, Mem.zero_in _ (by omega) h2]
    intro x hx
    rw [List.mem_append, List.mem_singleton] at hx
    rcases hx with hx | rfl
    · have := hbelow x hx
      exact .inr (by omega)
    · exact .inr h1
  · rw [hout, Mem.zero_out _ (.inl h2)]
    intro x hx
    rw [List.mem_append, List.mem_singleton] at hx
    rcases hx with hx | rfl
    · exact h1 x hx
    · exact .inl h2

theorem Extended.inv {pages : Nat} (hx : Extended h h' L tiles b pages) (hi : HeapInv h L tiles) :
    HeapInv h' (Function.update L .free (b :: L .free)) (tiles ++ [b]) := by
  have hcal := hi.current_aligned
  have hpos : PAGE ≤ pages * PAGE := Nat.le_mul_of_pos_left _ (Nat.pos_of_ne_zero hx.pages_ne)
  have hstart := hx.start
  obtain ⟨hsize, hsig⟩ := hx.new
  refine ⟨hx.lists, ?_, ?_, fun x hm => ?_, ?_, ?_, ?_, ?_⟩
  · exact (perm_push .free).trans ((List.Perm.cons b hi.perm).trans
      (List.perm_append_singleton b tiles).symm)
  · have ht : Tiles (extent h'.mem) h.virtualBase b tiles := by
      rw [hstart]
      refine hi.tiling.congr fun x hm => ?_
      simp only [extent, (hx.old x hm).1]
    have hlen : b + extent h'.mem b = b + pages * PAGE := by
      simp only [extent, hsize, HEADER, PAGE] at hpos ⊢; omega
    rw [hx.base, hx.current, ← hlen]
    exact ht.snoc
  · rw [List.mem_append, List.mem_singleton] at hm
    rcases hm with hm | rfl
    · have hbo := hi.block x hm
      obtain ⟨h1, h2⟩ := hx.old x hm
      exact ⟨h2.trans hbo.signature_eq, hbo.address, by rw [h1]; exact hbo.size_mod,
        by rw [h1]; exact hbo.size_min⟩
    · refine ⟨hsig, ?_, ?_, ?_⟩
      · simp only [PAGE] at hcal; omega
      · rw [hsize]
        simp only [PAGE, HEADER] at hpos ⊢; omega
      · rw [hsize]
        simp only [PAGE, HEADER] at hpos ⊢; omega
  · rw [hx.base]; exact hi.base_pos
  · rw [hx.base]; exact hi.base_aligned
  · rw [hx.current]
    simp only [PAGE] at *; omega
  · rw [hx.current]; exact hx.end_lt

theorem createFreeBlock_inv {boot pages : Nat} (hi : HeapInv h L tiles) (hr : Room h pages)
    (hs : createFreeBlock P boot pages h = some (b, h')) :
    HeapInv h' (Function.update L .free (b :: L .free)) (tiles ++ [b]) ∧ pages ≠ 0 ∧
      size h'.mem b = pages * PAGE - HEADER ∧
      (∀ y, b + HEADER ≤ y → y < b + pages * PAGE → h'.mem y = 0) ∧
      ∀ x ∈ tiles, Kept h.mem h'.mem x := by
  have he := createFreeBlock_extended hi hr hs
  refine ⟨he.inv hi, he.pages_ne, he.new.1, he.zero, fun x hx => ⟨(he.old x hx).1, fun y h1 h2 => ?_⟩⟩
  -- the new block starts after every old payload
  have hend := hi.block_end hx
  have hstart := he.start
  exact he.frame y (hi.payload_outside hx h1 h2) (by omega)

/-! ## The search -/

/-- On a list of at most `fuel` blocks the search ends: at a block that is large
enough, or at the null pointer. -/
theorem findFit_spec {mem : Mem} {sz : Nat} {l : List Nat} {q s fuel : Nat}
    (hl : Seg 0 (next mem) (previous mem) q s l) (hf : l.length ≤ fuel) :
    ∃ c, findFit mem sz fuel s = some c ∧ (c = 0 ∨ c ∈ l ∧ sz ≤ size mem c) := by
  induction l generalizing q s fuel with
  | nil =>
    refine ⟨0, ?_, .inl rfl⟩
    unfold findFit
    rw [if_pos (.inl hl), hl]
  | cons d l ih =>
    obtain ⟨rfl, hd0, -, hrest⟩ := hl
    by_cases hfit : sz ≤ size mem s
    · refine ⟨s, ?_, .inr ⟨by simp, hfit⟩⟩
      unfold findFit
      rw [if_pos (.inr hfit)]
    · cases fuel with
      | zero => simp at hf
      | succ fuel =>
        obtain ⟨c, hc, hcase⟩ := ih hrest (by simpa using hf)
        refine ⟨c, ?_, ?_⟩
        · unfold findFit
          rw [if_neg (by simp [hd0, hfit])]
          exact hc
        · rcases hcase with h0 | ⟨hm, hsz⟩
          · exact .inl h0
          · exact .inr ⟨by simp [hm], hsz⟩

/-! ## A block cut in two -/

/-- The headers of a heap in which block `c` is about to be cut at `b`. -/
theorem cut_headers {c sz : Nat} (hi : HeapInv h L tiles) (hc : c ∈ tiles)
    (hroom : sz + HEADER ≤ size h.mem c) (hb : b = c + HEADER + sz) :
    Headers (b :: tiles) ∧ b ∉ tiles := by
  have hB := hi.headers
  have hfar : ∀ x ∈ tiles, x + HEADER ≤ b ∨ b + HEADER ≤ x := by
    intro x hx
    have h1 := hi.tiling.apart hc hx
    have h2 := hB.apart c hc x hx
    simp only [extent, HEADER] at *
    omega
  refine ⟨hB.insert (fun x hx => List.mem_cons.mp hx) hfar ?_, fun hc => ?_⟩
  · have := hB.ne_zero c hc
    omega
  · have := hfar b hc
    simp only [HEADER] at this; omega

/-- What cutting `c` at `b` does to the headers. -/
structure Cut (mem mem' : Mem) (tiles : List Nat) (c b sz : Nat) : Prop where
  next_eq : ∀ x ∈ b :: tiles,
    next mem' x = if x = c then b else if x = b then next mem c else next mem x
  previous_eq : ∀ x ∈ b :: tiles,
    previous mem' x = if x = b then c else if x = next mem c then b else previous mem x
  size_cut : size mem' c = sz
  size_new : size mem' b = size mem c - sz - HEADER
  size_eq : ∀ x ∈ tiles, x ≠ c → size mem' x = size mem x
  signature_new : signature mem' b = BLOCK_SIGNATURE
  signature_eq : ∀ x ∈ tiles, signature mem' x = signature mem x

/-- The end of the free list, or another block. -/
theorem HeapInv.next_mem (hi : HeapInv h L tiles) {c : Nat} (hc : c ∈ L .free) :
    next h.mem c = 0 ∨ next h.mem c ∈ L .free := by
  obtain ⟨xs, ys, hsplit⟩ := List.append_of_mem hc
  have hd := hi.lists.dlist .free
  rw [hsplit] at hd ⊢
  cases hd.seg.neighbours.2.start with
  | inl h0 => exact .inl h0
  | inr hm => exact .inr (by simp [hm])

/-- The headers after block `c` was cut at `b`. -/
theorem splitBlock_fields {c sz : Nat} (hi : HeapInv h L tiles) (hc : c ∈ L .free)
    (hbig : sz + HEADER + BLOCK_MINIMUM_ALLOCATION < size h.mem c) (hb : b = c + HEADER + sz) :
    ∃ n p, Fields (b :: tiles) h.mem (splitBlock c sz h.mem) n p
        (Function.update (Function.update (size h.mem) c sz) b (size h.mem c - sz - HEADER))
        (Function.update (signature h.mem) b BLOCK_SIGNATURE) ∧
      (∀ x ∈ b :: tiles, n x = if x = c then b else if x = b then next h.mem c else next h.mem x) ∧
      ∀ x ∈ b :: tiles,
        p x = if x = b then c else if x = next h.mem c then b else previous h.mem x := by
  have hct := hi.mem_tiles .free c hc
  obtain ⟨hB, hbt⟩ := cut_headers hi hct (by omega) hb
  have hbm : b ∈ b :: tiles := by simp
  have hcm : c ∈ b :: tiles := by simp [hct]
  have hlt : c + HEADER + size h.mem c < 2 ^ 64 :=
    Nat.lt_of_le_of_lt (hi.block_end hct) hi.current_lt
  have hcond : size h.mem c > add64 (add64 sz HEADER) BLOCK_MINIMUM_ALLOCATION := by
    have e : add64 sz HEADER = sz + HEADER := add64_of_lt (by omega)
    rw [e, add64_of_lt (by omega)]; exact hbig
  have hnew : add64 (add64 c HEADER) sz = b := by
    have e : add64 c HEADER = c + HEADER := add64_of_lt (by omega)
    rw [e, add64_of_lt (by omega), hb]
  have hns : sub64 (sub64 (size h.mem c) sz) HEADER = size h.mem c - sz - HEADER := by
    have e : sub64 (size h.mem c) sz = size h.mem c - sz := sub64_of_le (by omega) (by omega)
    rw [e, sub64_of_le (by omega) (by omega)]
  -- the stores, one after the other
  have f1 := (Fields.refl (b :: tiles) h.mem).setSize hB hcm sz
  have e1 : size (setSize h.mem c sz) c = sz := by rw [f1.size_eq c hcm, Function.update_self]
  have f2 := f1.setSize hB hbm (size h.mem c - sz - HEADER)
  have e2 := f2.next_eq c hcm
  have f3 := ((f2.setNext hB hbm (next h.mem c)).setPrevious hB hbm c).setSignature hB hbm
    BLOCK_SIGNATURE
  have e3 := f3.next_eq b hbm
  rw [Function.update_self] at e3
  have hnc : next h.mem c = 0 ∨ next h.mem c ∈ tiles :=
    (hi.next_mem hc).imp_right (hi.mem_tiles .free _)
  have hncb : next h.mem c ≠ b := by
    intro he
    rcases hnc with h0 | hm
    · exact hB.ne_zero b hbm (he ▸ h0)
    · exact hbt (he ▸ hm)
  simp only [splitBlock, hcond, if_true, e1, hnew, hns, e2, e3]
  by_cases h0 : next h.mem c = 0
  · simp only [h0, ne_eq, not_true_eq_false, if_false]
    rw [h0] at f3
    refine ⟨_, _, f3.setNext hB hcm b, fun x hx => ?_, fun x hx => ?_⟩
    · rw [Function.update_apply, Function.update_apply]
    · rw [Function.update_apply, if_neg (hB.ne_zero x hx)]
  · simp only [h0, ne_eq, not_false_eq_true, if_true]
    have hncm : next h.mem c ∈ b :: tiles := by simp [hnc.resolve_left h0]
    refine ⟨_, _, (f3.setPrevious hB hncm b).setNext hB hcm b, fun x hx => ?_, fun x hx => ?_⟩
    · rw [Function.update_apply, Function.update_apply]
    · rw [Function.update_apply, Function.update_apply]
      by_cases hxb : x = b
      · rw [if_neg (fun he => hncb (he.symm.trans hxb)), if_pos hxb, if_pos hxb]
      · rw [if_neg hxb, if_neg hxb]

theorem splitBlock_cut {c sz : Nat} (hi : HeapInv h L tiles) (hc : c ∈ L .free)
    (hbig : sz + HEADER + BLOCK_MINIMUM_ALLOCATION < size h.mem c) (hb : b = c + HEADER + sz) :
    Cut h.mem (splitBlock c sz h.mem) tiles c b sz := by
  have hct := hi.mem_tiles .free c hc
  obtain ⟨-, hbt⟩ := cut_headers hi hct (by omega) hb
  obtain ⟨n, p, hf, hn, hp⟩ := splitBlock_fields hi hc hbig hb
  have hcb : c ≠ b := fun he => hbt (he ▸ hct)
  have hbm : b ∈ b :: tiles := by simp
  have hcm : c ∈ b :: tiles := by simp [hct]
  have hne : ∀ x ∈ tiles, x ≠ b := fun x hx he => hbt (he ▸ hx)
  refine ⟨fun x hx => (hf.next_eq x hx).trans (hn x hx),
    fun x hx => (hf.previous_eq x hx).trans (hp x hx), ?_, ?_, fun x hx hxc => ?_, ?_,
    fun x hx => ?_⟩
  · rw [hf.size_eq c hcm, Function.update_of_ne hcb, Function.update_self]
  · rw [hf.size_eq b hbm, Function.update_self]
  · rw [hf.size_eq x (by simp [hx]), Function.update_of_ne (hne x hx), Function.update_of_ne hxc]
  · rw [hf.signature_eq b hbm, Function.update_self]
  · rw [hf.signature_eq x (by simp [hx]), Function.update_of_ne (hne x hx)]

/-- The new header lies in the payload of the block that is cut. -/
theorem splitBlock_kept {c sz x : Nat} (hi : HeapInv h L tiles) (hc : c ∈ L .free)
    (hbig : sz + HEADER + BLOCK_MINIMUM_ALLOCATION < size h.mem c) (hx : x ∈ tiles) (hxc : x ≠ c) :
    Kept h.mem (splitBlock c sz h.mem) x := by
  obtain ⟨n, p, hf, -, -⟩ := splitBlock_fields hi hc hbig rfl
  refine ⟨(splitBlock_cut hi hc hbig rfl).size_eq x hx hxc, fun y h1 h2 => hf.frame y fun z hz => ?_⟩
  rcases List.mem_cons.mp hz with rfl | hz
  · have := hi.tiling.apart hx (hi.mem_tiles .free c hc)
    simp only [extent] at this
    omega
  · exact hi.payload_outside hx h1 h2 z hz

/-- The new block follows `c` on the free list. -/
theorem Cut.lists {mem' : Mem} {c sz : Nat} {xs ys : List Nat} (hcut : Cut h.mem mem' tiles c b sz)
    (hi : HeapInv h L tiles) (hb0 : b ≠ 0) (hbt : b ∉ tiles) (hfree : L .free = xs ++ c :: ys) :
    Lists { h with mem := mem' } (Function.update L .free (xs ++ c :: b :: ys)) := by
  have hc : c ∈ L .free := by simp [hfree]
  have hd := hi.lists.dlist .free
  rw [hfree] at hd
  have hsplit : ∀ x, x ∈ xs ++ c :: b :: ys ↔ x ∈ L .free ∨ x = b := by
    intro x
    rw [hfree]
    simp only [List.mem_append, List.mem_cons]
    tauto
  have hsub : ∀ x ∈ xs ++ c :: b :: ys, x ∈ b :: tiles := by
    intro x hx
    rcases (hsplit x).mp hx with hx | rfl
    · simp [hi.mem_tiles .free x hx]
    · simp
  have hfree' : DList 0 (next mem') (previous mem') h.freeListStart (xs ++ c :: b :: ys) := by
    refine hd.insertAfter hb0 ?_ (fun x hx => hcut.next_eq x (hsub x hx)) fun x hx =>
      hcut.previous_eq x (hsub x hx)
    rw [← hfree]
    exact fun hb => hbt (hi.mem_tiles .free b hb)
  have hbusy' : DList 0 (next mem') (previous mem') h.busyListStart (L .busy) := by
    refine (hi.lists.dlist .busy).congr fun x hx => ?_
    have hxt := hi.mem_tiles .busy x hx
    have hnotfree : x ∉ L .free := fun hxf => by
      have := hi.lists.disjoint x .busy .free hx hxf
      cases this
    have hxc : x ≠ c := fun he => hnotfree (he ▸ hc)
    have hxb : x ≠ b := fun he => hbt (he ▸ hxt)
    have hxn : x ≠ next h.mem c := by
      intro he
      rcases hi.next_mem hc with h0 | hm
      · exact hi.headers.ne_zero x hxt (he.trans h0)
      · exact hnotfree (he ▸ hm)
    rw [hcut.next_eq x (by simp [hxt]), if_neg hxc, if_neg hxb,
      hcut.previous_eq x (by simp [hxt]), if_neg hxb, if_neg hxn]
    exact ⟨rfl, rfl⟩
  have hcases : ∀ x k, x ∈ Function.update L .free (xs ++ c :: b :: ys) k →
      x ∈ L k ∨ x = b ∧ k = .free := by
    intro x k hk
    cases k with
    | busy => exact .inl hk
    | free => exact ((hsplit x).mp hk).imp_right fun he => ⟨he, rfl⟩
  refine ⟨fun k => ?_, fun x i j hx hx' => ?_⟩
  · cases k with
    | free => exact hfree'
    | busy => exact hbusy'
  · -- the new block is on the free list only
    rcases hcases x i hx with h1 | ⟨h1, h2⟩ <;> rcases hcases x j hx' with h3 | ⟨h3, h4⟩
    · exact hi.lists.disjoint x i j h1 h3
    · exact absurd (hi.mem_tiles i b (h3 ▸ h1)) hbt
    · exact absurd (hi.mem_tiles j b (h1 ▸ h3)) hbt
    · rw [h2, h4]

theorem Cut.tiling {mem' : Mem} {c sz : Nat} {as bs : List Nat}
    (hcut : Cut h.mem mem' tiles c b sz) (hi : HeapInv h L tiles) (hb : b = c + HEADER + sz)
    (hroom : sz + HEADER ≤ size h.mem c) (htiles : tiles = as ++ c :: bs) :
    Tiles (extent mem') h.virtualBase h.currentVirtualAddress (as ++ c :: b :: bs) := by
  have ht := hi.tiling
  have hnd : tiles.Nodup := ht.nodup fun x _ => Nat.add_pos_left (by decide) _
  rw [htiles] at ht hnd
  refine ht.cut ?_ ?_ fun x hx => ?_
  · simp only [extent, hcut.size_cut, hb]; omega
  · simp only [extent, hcut.size_cut, hcut.size_new]; omega
  · have hxt : x ∈ tiles := by
      rw [htiles]
      simp only [List.mem_append, List.mem_cons] at hx ⊢
      tauto
    have hxc : x ≠ c := by
      intro he
      rw [List.perm_middle.nodup_iff, List.nodup_cons] at hnd
      exact hnd.1 (he ▸ hx)
    simp only [extent, hcut.size_eq x hxt hxc]

/-- Both parts and all other blocks are good blocks. -/
theorem Cut.block {mem' : Mem} {c sz x : Nat} (hcut : Cut h.mem mem' tiles c b sz)
    (hi : HeapInv h L tiles) (hct : c ∈ tiles) (hb : b = c + HEADER + sz) (hmod : sz % 16 = 0)
    (hmin : 16 ≤ sz) (hbig : sz + HEADER + BLOCK_MINIMUM_ALLOCATION < size h.mem c)
    (hx : x = b ∨ x ∈ tiles) : BlockOk mem' x := by
  have hblock := hi.block c hct
  rcases hx with rfl | hx
  · refine ⟨hcut.signature_new, ?_, ?_, ?_⟩
    · have := hblock.address
      simp only [HEADER] at hb; omega
    · rw [hcut.size_new]
      have := hblock.size_mod
      simp only [HEADER, BLOCK_MINIMUM_ALLOCATION] at *; omega
    · rw [hcut.size_new]
      simp only [HEADER, BLOCK_MINIMUM_ALLOCATION] at *; omega
  · have hbo := hi.block x hx
    refine ⟨(hcut.signature_eq x hx).trans hbo.signature_eq, hbo.address, ?_, ?_⟩ <;>
      by_cases hxc : x = c
    · rw [hxc, hcut.size_cut]; exact hmod
    · rw [hcut.size_eq x hx hxc]; exact hbo.size_mod
    · rw [hxc, hcut.size_cut]; exact hmin
    · rw [hcut.size_eq x hx hxc]; exact hbo.size_min

/-- Splitting keeps the invariant; the block keeps at least the bytes asked
for. -/
theorem splitBlock_inv {c sz : Nat} (hi : HeapInv h L tiles) (hc : c ∈ L .free)
    (hmod : sz % 16 = 0) (hmin : 16 ≤ sz) (hfit : sz ≤ size h.mem c) :
    ∃ L' tiles', HeapInv { h with mem := splitBlock c sz h.mem } L' tiles' ∧
      (∀ x ∈ tiles, x ∈ tiles') ∧ sz ≤ size (splitBlock c sz h.mem) c ∧
      L' .busy = L .busy ∧ ∀ x ∈ tiles, x ≠ c → Kept h.mem (splitBlock c sz h.mem) x := by
  have hct := hi.mem_tiles .free c hc
  have hend := hi.block_end hct
  have hlt := hi.current_lt
  by_cases hbig : sz + HEADER + BLOCK_MINIMUM_ALLOCATION < size h.mem c
  · obtain ⟨b, hb⟩ : ∃ b, b = c + HEADER + sz := ⟨_, rfl⟩
    have hcut := splitBlock_cut hi hc hbig hb
    obtain ⟨hB, hbt⟩ := cut_headers hi hct (by omega) hb
    obtain ⟨xs, ys, hfree⟩ := List.append_of_mem hc
    obtain ⟨as, bs, htiles⟩ := List.append_of_mem hct
    have hmem : ∀ x, x ∈ as ++ c :: b :: bs ↔ x = b ∨ x ∈ tiles := by
      intro x
      rw [htiles]
      simp only [List.mem_append, List.mem_cons]
      tauto
    refine ⟨Function.update L .free (xs ++ c :: b :: ys), as ++ c :: b :: bs,
      ⟨hcut.lists hi (hB.ne_zero b (by simp)) hbt hfree, ?_,
        hcut.tiling hi hb (by omega) htiles, fun x hx => ?_, hi.base_pos,
        hi.base_aligned, hi.current_aligned, hi.current_lt⟩, fun x hx => ?_, ?_, rfl,
      fun x hx => splitBlock_kept hi hc hbig hx⟩
    · have hlists := (perm_insertAfter xs ys c b).append_right (L .busy)
      rw [List.cons_append, ← hfree] at hlists
      exact hlists.trans ((hi.perm.cons b).trans (htiles ▸ (perm_insertAfter as bs c b).symm))
    · exact hcut.block hi hct hb hmod hmin hbig ((hmem x).mp hx)
    · exact (hmem x).mpr (.inr hx)
    · exact Nat.le_of_eq hcut.size_cut.symm
  · have hcond : ¬size h.mem c > add64 (add64 sz HEADER) BLOCK_MINIMUM_ALLOCATION := by
      have h1 := hi.headers.ne_zero c hct
      have h2 := (hi.block c hct).address
      have e : add64 sz HEADER = sz + HEADER := add64_of_lt (by omega)
      rw [e, add64_of_lt (by simp only [BLOCK_MINIMUM_ALLOCATION]; omega)]
      exact hbig
    have hsame : splitBlock c sz h.mem = h.mem := by rw [splitBlock, if_neg hcond]
    rw [hsame]
    exact ⟨L, tiles, hi, fun x hx => hx, hfit, rfl, fun x _ _ => Kept.refl h.mem x⟩

/-! ## The calls -/

/-- Rounding the size up to 16 and adding the header stay below 2^64. -/
def NoWrap (sz : Nat) : Prop := (max sz 16 + 15) / 16 * 16 + HEADER < 2 ^ 64

instance (sz : Nat) : Decidable (NoWrap sz) := inferInstanceAs (Decidable (_ < _))

theorem roundSize_eq {sz : Nat} (hw : (max sz 16 + 15) / 16 * 16 < 2 ^ 64) :
    roundSize sz = (max sz 16 + 15) / 16 * 16 := by
  by_cases h1 : sz < BLOCK_MINIMUM_ALLOCATION
  · have hr : roundSize sz = 16 := by simp only [roundSize, h1, if_true]; rfl
    rw [hr]
    simp only [BLOCK_MINIMUM_ALLOCATION] at h1; omega
  · by_cases h2 : sz % 16 = 0
    · have hr : roundSize sz = sz := by simp [roundSize, h1, h2]
      rw [hr]
      simp only [BLOCK_MINIMUM_ALLOCATION] at h1; omega
    · have hr : roundSize sz = add64 sz (16 - sz % 16) := by simp [roundSize, h1, h2]
      rw [hr, add64_of_lt (by omega)]
      simp only [BLOCK_MINIMUM_ALLOCATION] at h1; omega

theorem roundSize_spec {sz : Nat} (hw : NoWrap sz) :
    roundSize sz % 16 = 0 ∧ 16 ≤ roundSize sz ∧ sz ≤ roundSize sz ∧
      roundSize sz + HEADER < 2 ^ 64 := by
  simp only [NoWrap, HEADER] at *
  rw [roundSize_eq (by omega)]
  omega

/-- The pages that are asked for hold the block, unless the sum has wrapped and
there are none. -/
theorem pages_hold {need pages : Nat} (hn : need < 2 ^ 64) (hp : 0 < need)
    (he : pages = add64 need (PAGE - 1) / PAGE) (h0 : pages ≠ 0) : need ≤ pages * PAGE := by
  simp only [add64, PAGE] at *; omega

theorem HeapInv.free_length (hi : HeapInv h L tiles) :
    (L .free).length ≤ h.currentVirtualAddress := by
  have h1 := hi.tiling.length (k := 1) fun b _ => by simp only [extent, HEADER]; omega
  have h2 := hi.perm.length_eq
  rw [List.length_append] at h2
  omega

/-- The search of the free list ends. -/
theorem HeapInv.findFit_ends (hi : HeapInv h L tiles) (sz : Nat) : ∃ found,
    findFit h.mem sz h.currentVirtualAddress h.freeListStart = some found ∧
      (found = 0 ∨ found ∈ L .free ∧ sz ≤ size h.mem found) :=
  findFit_spec (hi.lists.dlist .free).seg hi.free_length

/-- The block that `block_allocate` settles on: on the free list and large
enough. -/
theorem chooseBlock_inv {boot sz c : Nat} {h₁ : Heap σ} (hi : HeapInv h L tiles)
    (hr : RoomToGrow h sz) (hsz : sz + HEADER < 2 ^ 64) (hmin : 16 ≤ sz)
    (hs : chooseBlock P boot sz h = some (c, h₁)) :
    ∃ L₁ tiles₁, HeapInv h₁ L₁ tiles₁ ∧ (∀ x ∈ tiles, x ∈ tiles₁) ∧ c ∈ L₁ .free ∧
      sz ≤ size h₁.mem c ∧ L₁ .busy = L .busy ∧ ∀ x ∈ tiles, Kept h.mem h₁.mem x := by
  obtain ⟨found, hfind, hcase⟩ := hi.findFit_ends sz
  simp only [chooseBlock, hfind, Option.bind_eq_bind, Option.bind_some, Option.pure_def] at hs
  split at hs
  · rename_i h0
    obtain ⟨hi₁, hpages, hsize, -, hkept⟩ := createFreeBlock_inv hi (hr (h0 ▸ hfind)) hs
    refine ⟨_, _, hi₁, fun x hx => by simp [hx], ?_, ?_, rfl, hkept⟩
    · rw [Function.update_self]; exact List.mem_cons_self
    · have hneed : add64 sz HEADER = sz + HEADER := add64_of_lt hsz
      have := pages_hold (add64_lt sz HEADER) (by rw [hneed]; omega) rfl hpages
      rw [hneed] at this
      rw [hsize, hneed]
      omega
  · rename_i hne
    cases hs
    obtain ⟨hm, hfit⟩ := hcase.resolve_left hne
    exact ⟨L, tiles, hi, fun x hx => hx, hm, hfit, rfl, fun x _ => Kept.refl h.mem x⟩

/-- The search of the free list ends, so a request fails only if the heap cannot
grow. -/
theorem HeapInv.blockAllocate_none (hi : HeapInv h L tiles) {boot sz : Nat}
    (hs : blockAllocate P boot sz h = none) :
    createFreeBlock P boot (add64 (add64 (roundSize sz) HEADER) (PAGE - 1) / PAGE) h = none := by
  obtain ⟨found, hfind, -⟩ := hi.findFit_ends (roundSize sz)
  simp only [blockAllocate, chooseBlock, hfind, Option.bind_eq_bind, Option.bind_some,
    Option.pure_def, Option.bind_eq_none_iff] at hs
  by_contra hne
  obtain ⟨r, hr⟩ := Option.ne_none_iff_exists'.mp hne
  by_cases h0 : found = 0
  · exact absurd (hs r (by rw [if_pos h0, hr])) (by simp)
  · exact absurd (hs (found, h) (by rw [if_neg h0])) (by simp)

/-- Clearing bytes of one payload touches no header and no other block. -/
theorem HeapInv.zero_outside {c n x y : Nat} (hi : HeapInv h L tiles) (hc : c ∈ tiles)
    (hn : n ≤ size h.mem c) (hx : x ∈ tiles) (h1 : x ≤ y)
    (h2 : y < x + HEADER ∨ x ≠ c ∧ y < x + HEADER + size h.mem x) :
    h.mem.zero (c + HEADER) n y = h.mem y := by
  apply Mem.zero_out
  have hap := hi.tiling.apart hx hc
  simp only [extent] at hap
  rcases hap with rfl | hap | hap
  · rcases h2 with h2 | ⟨h2, -⟩
    · exact .inl h2
    · exact absurd rfl h2
  · omega
  · omega

/-- What `block_allocate` leaves: block `c` was not in use and is now, it has the
bytes asked for and they are zero, and the blocks in use keep their payloads. -/
theorem blockAllocate_inv {boot sz q : Nat} (hi : HeapInv h L tiles) (hw : NoWrap sz)
    (hr : RoomToGrow h (roundSize sz))
    (hs : blockAllocate P boot sz h = some (q, h')) :
    ∃ L' tiles' c, HeapInv h' L' tiles' ∧ (∀ x ∈ tiles, x ∈ tiles') ∧ c ∈ L' .busy ∧
      q = c + HEADER ∧ c ∉ L .busy ∧ roundSize sz ≤ size h'.mem c ∧
      (∀ y, q ≤ y → y < q + roundSize sz → h'.mem y = 0) ∧
      (∀ x ∈ L .busy, x ∈ L' .busy ∧ Kept h.mem h'.mem x) ∧
      ∀ x ∈ L' .busy, x = c ∨ x ∈ L .busy := by
  obtain ⟨hmod, hmin, -, hfits⟩ := roundSize_spec hw
  simp only [blockAllocate, Option.bind_eq_bind, Option.bind_eq_some_iff, Prod.exists,
    Option.pure_def, Option.some.injEq, Prod.mk.injEq] at hs
  obtain ⟨c, h₁, hchoose, rfl, rfl⟩ := hs
  obtain ⟨L₁, tiles₁, hi₁, hsub₁, hc₁, hfit₁, hbusy₁, hk₁⟩ :=
    chooseBlock_inv hi hr hfits hmin hchoose
  obtain ⟨L₂, tiles₂, hi₂, hsub₂, hfit₂, hbusy₂, hk₂⟩ := splitBlock_inv hi₁ hc₁ hmod hmin hfit₁
  have hc₂ := hsub₂ c (hi₁.mem_tiles .free c hc₁)
  obtain ⟨L₃, n, p, hi₃, hc₃, hstay, hf⟩ := moveTo_inv hi₂ hc₂ .busy
  have hk₃ : ∀ x ∈ tiles₂, Kept (splitBlock c (roundSize sz) h₁.mem) _ x :=
    fun x hx => Fields.kept hi₂ hf hx
  have hend := hi₂.block_end hc₂
  have hlt : c + HEADER + size (splitBlock c (roundSize sz) h₁.mem) c < 2 ^ 64 :=
    Nat.lt_of_le_of_lt hend hi₂.current_lt
  have hq : add64 c HEADER = c + HEADER := add64_of_lt (by omega)
  have hcb : c ∉ L .busy := by
    intro hc
    have := hi₁.lists.disjoint c .free .busy hc₁ (hbusy₁ ▸ hc)
    cases this
  rw [hq]
  have hsize : roundSize sz ≤ size (moveToBusyList c
      { h₁ with mem := splitBlock c (roundSize sz) h₁.mem }).mem c := by
    rw [moveToBusyList, (hk₃ c hc₂).size_eq]; exact hfit₂
  refine ⟨L₃, tiles₂, c, ?_, fun x hx => hsub₂ x (hsub₁ x hx), hc₃, rfl, hcb, ?_, ?_,
    fun x hx => ?_, fun x hx => ?_⟩
  · exact hi₃.congr fun x hx y h1 h2 => hi₃.zero_outside hc₂ hsize hx h1 (.inl h2)
  · have hword : ∀ (m : Mem), size (m.zero (c + HEADER) (roundSize sz)) c = size m c :=
      fun m => Mem.zero_out m (.inl (by simp only [HEADER]; omega))
    rw [hword]; exact hsize
  · intro y h1 h2
    exact Mem.zero_in _ h1 h2
  · have hne : x ≠ c := fun he => hcb (he ▸ hx)
    have hxt := hi.mem_tiles .busy x hx
    have hxt₁ := hsub₁ x hxt
    have hxt₂ := hsub₂ x hxt₁
    refine ⟨hstay .busy x hne (by rw [hbusy₂, hbusy₁]; exact hx),
      (hk₁ x hxt).trans ((hk₂ x hxt₁ hne).trans ((hk₃ x hxt₂).trans ⟨?_, fun y h1 h2 => ?_⟩))⟩
    · exact hi₃.zero_outside hc₂ hsize hxt₂ (by omega) (.inl (by simp only [HEADER]; omega))
    · exact hi₃.zero_outside hc₂ hsize hxt₂ (by omega) (.inr ⟨hne, h2⟩)
  · by_cases hne : x = c
    · exact .inl hne
    · rw [hi₂.stay_iff hi₃ hstay hne, hbusy₂, hbusy₁] at hx
      exact .inr hx

/-- Freeing a block that was handed out, also when it is free already. -/
theorem blockDeallocate_inv {q : Nat} (hi : HeapInv h L tiles) (hb : b ∈ tiles)
    (hq : q = b + HEADER) : ∃ L', HeapInv (blockDeallocate q h) L' tiles ∧
      b ∈ L' .free ∧ (∀ i x, x ≠ b → x ∈ L i → x ∈ L' i) ∧
      ∀ x ∈ tiles, Kept h.mem (blockDeallocate q h).mem x := by
  have hend := hi.block_end hb
  have hlt := hi.current_lt
  have hbo := hi.block b hb
  have hbase := (hi.tiling.bounds hb).1
  have h0 : q ≠ 0 := by simp only [HEADER] at hq; omega
  have hsub : sub64 q HEADER = b := by
    rw [sub64_of_le (by omega) (by omega), hq, Nat.add_sub_cancel]
  have hrange : h.virtualBase < q ∧ q < h.currentVirtualAddress := by
    have := hbo.size_min
    simp only [HEADER] at *; omega
  have hmove : blockDeallocate q h = moveTo .free b h := by
    simp only [blockDeallocate, h0, if_false, hsub, hbo.signature_eq, ne_eq, not_true_eq_false,
      hrange, and_self, if_true, moveToFreeList]
  obtain ⟨L', n, p, hi', hfree, hstay, hf⟩ := moveTo_inv hi hb .free
  rw [hmove]
  exact ⟨L', hi', hfree, hstay, fun x hx => Fields.kept hi hf hx⟩

theorem blockAllocatorInit_inv {boot : Nat} {highest : MemmapEntry} {mem : Mem}
    {machine : Machine σ} (hpos : 0 < highest.base + highest.length + P.hhdm)
    (htop : highest.base + highest.length + P.hhdm + PAGE ≤ 2 ^ 64)
    (hr : RangeOk (alignPage (highest.base + highest.length + P.hhdm)) 1)
    (hs : blockAllocatorInit P boot highest mem machine = some h) :
    ∃ L tiles, HeapInv h L tiles := by
  simp only [blockAllocatorInit, Option.bind_eq_bind, Option.bind_eq_some_iff, Prod.exists,
    Option.pure_def, Option.some.injEq] at hs
  obtain ⟨b, h₁, hs, rfl⟩ := hs
  have hx : add64 (add64 highest.base highest.length) P.hhdm =
      highest.base + highest.length + P.hhdm := by
    have e : add64 highest.base highest.length = highest.base + highest.length :=
      add64_of_lt (by simp only [PAGE] at htop; omega)
    rw [e, add64_of_lt (by simp only [PAGE] at htop; omega)]
  rw [hx] at hs
  have hbase := alignPage_eq (highest.base + highest.length + P.hhdm)
  rw [add64_of_lt (by simp only [PAGE] at *; omega)] at hbase
  generalize alignPage (highest.base + highest.length + P.hhdm) = base at hs hbase hr
  have hal : base % PAGE = 0 := by rw [hbase]; exact Nat.mul_mod_left _ _
  have hinv : HeapInv (⟨mem, machine, 0, 0, base, base⟩ : Heap σ) (fun _ => []) [] := by
    refine ⟨⟨fun k => ?_, fun x j k hj => ?_⟩, List.Perm.refl _, rfl, fun b hb => ?_, ?_, hal,
      hal, ?_⟩
    · cases k <;> exact .nil
    · cases hj
    · cases hb
    · simp only [PAGE] at *; omega
    · simp only [PAGE] at *; omega
  have hroom : Room (⟨mem, machine, 0, 0, base, base⟩ : Heap σ) 1 := by
    rw [Room, alignPage_of_aligned hal hinv.current_lt]
    exact hr
  exact ⟨_, _, (createFreeBlock_inv hinv hroom hs).1⟩

/-! ## Runs -/

/-- The heap, and the pointers that it has handed out so far. -/
structure HeapRun (σ : Type) where
  heap : Heap σ
  returned : List Nat

inductive HeapOp where
  | allocate (size : Nat)
  | deallocate (block : Nat)
  /-- the rest of the kernel, which may write anything but headers -/
  | other

/-- `b` is on one of the heap's lists. -/
def OnList (h : Heap σ) (b : Nat) : Prop :=
  ∃ k l, DList 0 (next h.mem) (previous h.mem) (h.start k) l ∧ b ∈ l

/-- The heap in use: `block_allocator_init`, with the end of the memory map at a
proper address of the direct map, then allocations whose rounding does not wrap and
for which `map_range` can map what is missing, and deallocations of pointers that were
handed out. -/
def heapLTS (P : PageSource σ) (boot : Nat) : LTS (HeapRun σ) HeapOp where
  init s := s.returned = [] ∧ ∃ highest mem machine,
    0 < highest.base + highest.length + P.hhdm ∧
    highest.base + highest.length + P.hhdm + PAGE ≤ 2 ^ 64 ∧
    RangeOk (alignPage (highest.base + highest.length + P.hhdm)) 1 ∧
    blockAllocatorInit P boot highest mem machine = some s.heap
  step s l t := match l with
    | .allocate sz => NoWrap sz ∧ RoomToGrow s.heap (roundSize sz) ∧
        ∃ q, blockAllocate P boot sz s.heap = some (q, t.heap) ∧ t.returned = q :: s.returned
    | .deallocate q => q ∈ s.returned ∧ t.heap = blockDeallocate q s.heap ∧
        t.returned = s.returned
    | .other => t.returned = s.returned ∧ ∃ mem machine,
        t.heap = { s.heap with mem := mem, machine := machine } ∧
        ∀ b, OnList s.heap b → ∀ y, b ≤ y → y < b + HEADER → mem y = s.heap.mem y

/-- The heap is well-formed, and every pointer handed out still is a block of
it. -/
def RunInv (s : HeapRun σ) : Prop :=
  ∃ L tiles, HeapInv s.heap L tiles ∧ ∀ q ∈ s.returned, ∃ b ∈ tiles, q = b + HEADER

theorem heap_inductive (P : PageSource σ) (boot : Nat) : (heapLTS P boot).Inductive RunInv where
  init s hs := by
    obtain ⟨hr, highest, mem, machine, hpos, htop, hroom, hinit⟩ := hs
    obtain ⟨L, tiles, hi⟩ := blockAllocatorInit_inv hpos htop hroom hinit
    refine ⟨L, tiles, hi, fun q hq => ?_⟩
    rw [hr] at hq
    cases hq
  step s l t hs h := by
    obtain ⟨L, tiles, hi, hret⟩ := hs
    cases l with
    | allocate sz =>
      obtain ⟨hw, hroom, q, ha, hr⟩ := h
      obtain ⟨L', tiles', c, hi', hsub, hc, hq, -⟩ := blockAllocate_inv hi hw hroom ha
      refine ⟨L', tiles', hi', fun r hm => ?_⟩
      rw [hr] at hm
      cases hm with
      | head => exact ⟨c, hi'.mem_tiles .busy c hc, hq⟩
      | tail _ hm =>
        obtain ⟨b, hb, he⟩ := hret r hm
        exact ⟨b, hsub b hb, he⟩
    | deallocate q =>
      obtain ⟨hm, ht, hr⟩ := h
      obtain ⟨b, hb, hq⟩ := hret q hm
      obtain ⟨L', hi', -⟩ := blockDeallocate_inv hi hb hq
      exact ⟨L', tiles, ht ▸ hi', hr ▸ hret⟩
    | other =>
      obtain ⟨hr, mem, machine, ht, hkeep⟩ := h
      refine ⟨L, tiles, ?_, hr ▸ hret⟩
      rw [ht]
      refine hi.congr fun x hx => ?_
      obtain ⟨k, hk⟩ := hi.mem_list hx
      exact hkeep x ⟨k, L k, hi.lists.dlist k, hk⟩

/-- **Heap invariant.** In every run, the free and the busy list are well-formed
doubly linked lists without a common block, and the blocks on them tile the heap
from its base to its current end; every block carries the signature, and its
address and size are multiples of 16. -/
theorem heap_well_formed {boot : Nat} {s : HeapRun σ} (hs : (heapLTS P boot).Reachable s) :
    ∃ free busy tiles,
      DList 0 (next s.heap.mem) (previous s.heap.mem) s.heap.freeListStart free ∧
      DList 0 (next s.heap.mem) (previous s.heap.mem) s.heap.busyListStart busy ∧
      (∀ b ∈ free, b ∉ busy) ∧ tiles.Perm (free ++ busy) ∧
      Tiles (fun b => HEADER + size s.heap.mem b) s.heap.virtualBase s.heap.currentVirtualAddress
        tiles ∧
      ∀ b ∈ tiles, signature s.heap.mem b = BLOCK_SIGNATURE ∧ b % 16 = 0 ∧
        size s.heap.mem b % 16 = 0 := by
  obtain ⟨L, tiles, hi, -⟩ := (heap_inductive P boot).reachable hs
  refine ⟨L .free, L .busy, tiles, hi.lists.dlist .free, hi.lists.dlist .busy, fun b hf hb => ?_,
    hi.perm.symm, hi.tiling, fun b hb => ?_⟩
  · have := hi.lists.disjoint b .free .busy hf hb
    cases this
  · have := hi.block b hb
    exact ⟨this.signature_eq, this.address, this.size_mod⟩

/-- One allocation, freed twice. -/
theorem reachable_double_free {boot sz q : Nat} (h0 : (heapLTS P boot).Reachable ⟨h, []⟩)
    (hw : NoWrap sz) (hr : RoomToGrow h (roundSize sz))
    (hs : blockAllocate P boot sz h = some (q, h')) :
    (heapLTS P boot).Reachable ⟨blockDeallocate q (blockDeallocate q h'), [q]⟩ := by
  have h1 : (heapLTS P boot).Reachable ⟨h', [q]⟩ :=
    h0.step (l := .allocate sz) ⟨hw, hr, q, hs, rfl⟩
  have h2 : (heapLTS P boot).Reachable ⟨blockDeallocate q h', [q]⟩ :=
    h1.step (l := .deallocate q) ⟨List.mem_singleton_self q, rfl, rfl⟩
  exact h2.step (l := .deallocate q) ⟨List.mem_singleton_self q, rfl, rfl⟩

/-! ## A small heap -/

/-- The heap after a memory map that ends at 256 KiB. -/
def smallHeap : Option (Heap Nat) :=
  blockAllocatorInit smallSource smallTable.root ⟨0x3F000, 0x1000, .usable⟩ (fun _ => 0xAA)
    smallTable.machine

theorem smallHeap_reachable {h : Heap Nat} (hinit : smallHeap = some h) :
    (heapLTS smallSource smallTable.root).Reachable ⟨h, []⟩ :=
  .init ⟨rfl, _, _, _, by decide, by decide, by decide, hinit⟩

/-- An allocation of 100 bytes, freed twice. -/
theorem heap_well_formed_small : ∃ (s : HeapRun Nat) (free : List Nat), s.returned ≠ [] ∧
    DList 0 (next s.heap.mem) (previous s.heap.mem) s.heap.freeListStart free := by
  have hrun : (smallHeap.bind fun h =>
      (blockAllocate smallSource smallTable.root 100 h).map fun _ =>
        decide (RoomToGrow h (roundSize 100))) = some true := by decide +kernel
  obtain ⟨h, hinit, hrun⟩ := Option.bind_eq_some_iff.mp hrun
  obtain ⟨⟨q, h'⟩, hs, hroom⟩ := Option.map_eq_some_iff.mp hrun
  have hreach := reachable_double_free (smallHeap_reachable hinit) (by decide)
    (of_decide_eq_true hroom) hs
  obtain ⟨free, -, -, hfree, -⟩ := heap_well_formed hreach
  exact ⟨_, free, List.cons_ne_nil _ _, hfree⟩

end GaOS.L3.BlockAllocator
