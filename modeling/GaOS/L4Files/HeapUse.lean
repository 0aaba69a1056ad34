import GaOS.L3Heap.LiveHeap
import GaOS.L4Files.Nodes

/-!
# What the file systems take from the heap

`Took K h X h'`: from `h` to `h'` the blocks `X` were taken, and nothing else changed on
the busy list. It composes along a function that allocates and gives back, so what a call
leaves behind can be read off its code.

`kernelHeap` is the block allocator of `L3Heap` as a `BlockHeap`: a state is a heap with
its invariant. A size that wraps when it is rounded is no size of a string in memory, and
counts as a panic, as does a heap without room to grow. `kernelNames` is the same as a
`NameHeap`: what is right behind a name is in the owner's block, or is the signature of the
next one.
-/
namespace GaOS.L4.Files

/-! ## Taking and giving back -/

section
variable {η : Type} {K : BlockHeap η} {h h₁ h₂ h' : η} {X Y : List Nat} {a : Nat}

structure Took (K : BlockHeap η) (h : η) (X : List Nat) (h' : η) : Prop where
  nodup : X.Nodup
  fresh : ∀ x ∈ X, x ≠ 0 ∧ ¬K.Busy h x
  busy : ∀ x, K.Busy h' x ↔ x ∈ X ∨ K.Busy h x

theorem Took.refl (h : η) : Took K h [] h := ⟨List.nodup_nil, nofun, fun _ => by simp⟩

theorem Took.allocate {n : Nat} (ha : K.allocate n h = some (a, h')) : Took K h [a] h' := by
  obtain ⟨h0, hnew, hbusy⟩ := K.grant _ _ _ _ ha
  refine ⟨List.nodup_singleton a, fun x hx => ?_, fun x => ?_⟩
  · rw [List.mem_singleton.mp hx]
    exact ⟨h0, hnew⟩
  · rw [List.mem_singleton]
    exact hbusy x

theorem Took.trans (hx : Took K h X h₁) (hy : Took K h₁ Y h₂) : Took K h (Y ++ X) h₂ := by
  have hnot : ∀ x ∈ Y, x ∉ X ∧ ¬K.Busy h x := fun x hm => by
    have := (hy.fresh x hm).2
    rwa [hx.busy, not_or] at this
  refine ⟨?_, fun x hm => ?_, fun x => ?_⟩
  · exact hy.nodup.append hx.nodup fun x hxy hxx => (hnot x hxy).1 hxx
  · rcases List.mem_append.mp hm with hm | hm
    · exact ⟨(hy.fresh x hm).1, (hnot x hm).2⟩
    · exact hx.fresh x hm
  · rw [hy.busy, hx.busy, List.mem_append, or_assoc]

theorem Took.deallocate (ht : Took K h (X ++ a :: Y) h') : Took K h (X ++ Y) (K.deallocate a h') := by
  have hback := K.returned h' a ((ht.busy a).mpr (.inl (by simp)))
  have hfresh : ¬K.Busy h a := (ht.fresh a (by simp)).2
  have hsub : (X ++ Y).Sublist (X ++ a :: Y) :=
    List.Sublist.append_left (List.sublist_cons_self a Y) X
  have hout : a ∉ X ++ Y := (List.nodup_middle.mp ht.nodup).notMem
  refine ⟨ht.nodup.sublist hsub, fun x hx => ht.fresh x (hsub.subset hx), fun x => ?_⟩
  rw [hback, ht.busy, List.mem_append, List.mem_append, List.mem_cons]
  constructor
  · rintro ⟨hne, (hx | rfl | hy) | hb⟩
    · exact .inl (.inl hx)
    · exact absurd rfl hne
    · exact .inl (.inr hy)
    · exact .inr hb
  · rintro (hx | hb)
    · exact ⟨fun he => hout (he ▸ List.mem_append.mpr hx), .inl (hx.imp_right .inr)⟩
    · exact ⟨fun he => hfresh (he ▸ hb), .inr hb⟩

end

/-! ## The block allocator -/

section
open GaOS.L1 GaOS.L1.PageAllocator GaOS.L2.TableManager GaOS.L3.BlockAllocator

variable {σ : Type} (P : PageSource σ) (boot : Nat)

/-- A heap with its invariant. -/
structure GoodHeap (σ : Type) where
  heap : Heap σ
  inv : ∃ L tiles, HeapInv heap L tiles

/-- The payload at `a` belongs to a block of the busy list. -/
def BusyPayload (h : Heap σ) (a : Nat) : Prop :=
  ∃ l b, DList 0 (next h.mem) (previous h.mem) h.busyListStart l ∧ b ∈ l ∧ a = b + HEADER

variable {P boot}

theorem busyPayload_iff {h : Heap σ} {L : BlockList → List Nat} {tiles : List Nat}
    (hi : HeapInv h L tiles) (a : Nat) : BusyPayload h a ↔ ∃ b ∈ L .busy, a = b + HEADER := by
  constructor
  · rintro ⟨l, b, hl, hb, rfl⟩
    exact ⟨b, (hl.unique (hi.lists.dlist .busy)) ▸ hb, rfl⟩
  · rintro ⟨b, hb, rfl⟩
    exact ⟨_, b, hi.lists.dlist .busy, hb, rfl⟩

/-- `block_allocate` puts one block on the busy list. -/
theorem blockAllocate_busy {h h' : Heap σ} {L : BlockList → List Nat} {tiles : List Nat} {n a : Nat}
    (hi : HeapInv h L tiles) (hw : NoWrap n) (hr : RoomToGrow h (roundSize n))
    (hs : blockAllocate P boot n h = some (a, h')) :
    (∃ L tiles, HeapInv h' L tiles) ∧ a ≠ 0 ∧ ¬BusyPayload h a ∧
      ∀ x, BusyPayload h' x ↔ x = a ∨ BusyPayload h x := by
  obtain ⟨L', tiles', c, hi', -, hc, rfl, hcb, -, -, hkeep, hback⟩ :=
    blockAllocate_inv hi hw hr hs
  refine ⟨⟨L', tiles', hi'⟩, by simp, ?_, fun x => ?_⟩
  · rw [busyPayload_iff hi]
    rintro ⟨b, hb, he⟩
    exact hcb (Nat.add_right_cancel he ▸ hb)
  · rw [busyPayload_iff hi, busyPayload_iff hi']
    constructor
    · rintro ⟨b, hb, rfl⟩
      rcases hback b hb with rfl | hb
      · exact .inl rfl
      · exact .inr ⟨b, hb, rfl⟩
    · rintro (rfl | ⟨b, hb, rfl⟩)
      · exact ⟨c, hc, rfl⟩
      · exact ⟨b, (hkeep b hb).1, rfl⟩

/-- `block_deallocate` takes a block from the busy list. -/
theorem blockDeallocate_busy {h : Heap σ} {L : BlockList → List Nat} {tiles : List Nat} {a : Nat}
    (hi : HeapInv h L tiles) (ha : BusyPayload h a) :
    (∃ L tiles, HeapInv (blockDeallocate a h) L tiles) ∧
      ∀ x, BusyPayload (blockDeallocate a h) x ↔ x ≠ a ∧ BusyPayload h x := by
  obtain ⟨b, hb, rfl⟩ := (busyPayload_iff hi a).mp ha
  obtain ⟨L', hi', hfree, hstay, -⟩ := blockDeallocate_inv hi (hi.mem_tiles .busy b hb) rfl
  refine ⟨⟨L', tiles, hi'⟩, fun x => ?_⟩
  rw [busyPayload_iff hi, busyPayload_iff hi']
  constructor
  · rintro ⟨y, hy, rfl⟩
    have hne : y ≠ b := by
      rintro rfl
      cases hi'.lists.disjoint y .free .busy hfree hy
    exact ⟨fun he => hne (Nat.add_right_cancel he), y, (hi.stay_iff hi' hstay hne).mp hy, rfl⟩
  · rintro ⟨hne, y, hy, rfl⟩
    exact ⟨y, hstay .busy y (fun he => hne (he ▸ rfl)) hy, rfl⟩

open Classical in
/-- What is no block in use is not given back: the file systems do not try. -/
noncomputable def kernelHeap (P : PageSource σ) (boot : Nat) : BlockHeap (GoodHeap σ) where
  allocate n h :=
    if hw : NoWrap n ∧ RoomToGrow h.heap (roundSize n) then
      match hs : blockAllocate P boot n h.heap with
      | none => none
      | some (a, h') => some (a, ⟨h', by
          obtain ⟨L, tiles, hi⟩ := h.inv
          exact (blockAllocate_busy hi hw.1 hw.2 hs).1⟩)
    else none
  deallocate a h :=
    if ha : BusyPayload h.heap a then ⟨blockDeallocate a h.heap, by
      obtain ⟨L, tiles, hi⟩ := h.inv
      exact (blockDeallocate_busy hi ha).1⟩
    else h
  Busy h a := BusyPayload h.heap a
  grant n h a h' hs := by
    obtain ⟨L, tiles, hi⟩ := h.inv
    split at hs
    · rename_i hw
      split at hs
      · cases hs
      · rename_i a₁ h₁ hs₁
        cases hs
        exact (blockAllocate_busy hi hw.1 hw.2 hs₁).2
    · cases hs
  returned h a ha x := by
    obtain ⟨L, tiles, hi⟩ := h.inv
    simp only [dif_pos ha]
    exact (blockDeallocate_busy hi ha).2 x

theorem kernelHeap_allocate {h : GoodHeap σ} {n a : Nat} {h' : Heap σ} (hw : NoWrap n)
    (hr : RoomToGrow h.heap (roundSize n))
    (hs : blockAllocate P boot n h.heap = some (a, h')) :
    ∃ g, g.heap = h' ∧ (kernelHeap P boot).allocate n h = some (a, g) := by
  obtain ⟨L, tiles, hi⟩ := h.inv
  refine ⟨⟨h', (blockAllocate_busy hi hw hr hs).1⟩, rfl, ?_⟩
  simp only [kernelHeap, dif_pos (And.intro hw hr)]
  split
  · rename_i hs'
    rw [hs] at hs'
    cases hs'
  · rename_i hs'
    rw [hs] at hs'
    cases hs'
    rfl

/-- Allocations one after the other. -/
def serve {η : Type} (K : BlockHeap η) : List Nat → η → Option η
  | [], h => some h
  | n :: ns, h => (K.allocate n h).bind fun r => serve K ns r.2

/-- A heap of one page serves a few small requests. -/
theorem smallHeap_serves : ∃ h : GoodHeap Nat,
    (serve (kernelHeap smallSource smallTable.root) [64, 3] h).isSome ∧
      (serve (kernelHeap smallSource smallTable.root) [1, 80, 1] h).isSome := by
  have hrun : (smallHeap.bind fun h =>
        (blockAllocate smallSource smallTable.root 64 h).bind fun r₁ =>
        (blockAllocate smallSource smallTable.root 3 r₁.2).bind fun _ =>
        (blockAllocate smallSource smallTable.root 1 h).bind fun r₃ =>
        (blockAllocate smallSource smallTable.root 80 r₃.2).bind fun r₄ =>
        (blockAllocate smallSource smallTable.root 1 r₄.2).map fun _ =>
          decide (RoomToGrow h (roundSize 64) ∧ RoomToGrow r₁.2 (roundSize 3) ∧
            RoomToGrow h (roundSize 1) ∧ RoomToGrow r₃.2 (roundSize 80) ∧
            RoomToGrow r₄.2 (roundSize 1))) = some true := by decide +kernel
  simp only [Option.bind_eq_some_iff, Option.map_eq_some_iff, Prod.exists] at hrun
  obtain ⟨h, hinit, a₁, h₁, hs₁, a₂, h₂, hs₂, a₃, h₃, hs₃, a₄, h₄, hs₄, a₅, h₅, hs₅, hroom⟩ := hrun
  obtain ⟨hr₁, hr₂, hr₃, hr₄, hr₅⟩ := of_decide_eq_true hroom
  let g : GoodHeap Nat := ⟨h, blockAllocatorInit_inv (by decide) (by decide) (by decide) hinit⟩
  obtain ⟨g₁, rfl, he₁⟩ := kernelHeap_allocate (h := g) (n := 64) (by decide) hr₁ hs₁
  obtain ⟨g₂, rfl, he₂⟩ := kernelHeap_allocate (h := g₁) (n := 3) (by decide) hr₂ hs₂
  obtain ⟨g₃, rfl, he₃⟩ := kernelHeap_allocate (h := g) (n := 1) (by decide) hr₃ hs₃
  obtain ⟨g₄, rfl, he₄⟩ := kernelHeap_allocate (h := g₃) (n := 80) (by decide) hr₄ hs₄
  obtain ⟨g₅, rfl, he₅⟩ := kernelHeap_allocate (h := g₄) (n := 1) (by decide) hr₅ hs₅
  exact ⟨g, by simp [serve, he₁, he₂], by simp [serve, he₃, he₄, he₅]⟩

/-! ## Names

`kernelNames` is the same heap with the sizes that were asked for. -/

/-- The string at `a`. Behind the last block nothing is mapped: `left` is what is there up
to its end. -/
def stringAt (mem : Mem) : Nat → Nat → Option (List Nat)
  | 0, _ => none
  | left + 1, a =>
    if byteAt mem a = 0 then some [] else (stringAt mem left (a + 1)).map (byteAt mem a :: ·)

theorem stringAt_eq_nil {mem : Mem} {left a : Nat} :
    stringAt mem left a = some [] ↔ 0 < left ∧ byteAt mem a = 0 := by
  cases left with
  | zero => simp [stringAt]
  | succ left =>
    rw [stringAt]
    split
    · rename_i h
      simp [h]
    · rename_i h
      simp [h]

/-- Right behind a block is a signature, or nothing. -/
theorem byteAt_end {h : Heap σ} {L : BlockList → List Nat} {tiles : List Nat} {b : Nat}
    (hi : HeapInv h L tiles) (hb : b ∈ tiles)
    (hlt : b + HEADER + size h.mem b < h.currentVirtualAddress) :
    byteAt h.mem (b + HEADER + size h.mem b) ≠ 0 := by
  have hend : b + extent h.mem b = b + HEADER + size h.mem b := by rw [extent, Nat.add_assoc]
  rcases hi.tiling.end_mem hb with he | hnext
  · omega
  · rw [hend] at hnext
    obtain ⟨hsig, haddr, -⟩ := hi.block _ hnext
    generalize b + HEADER + size h.mem b = c at hsig haddr
    have hword : c / 8 * 8 = c := by omega
    rw [signature] at hsig
    rw [byteAt, hword, hsig, show c % 8 = 0 by omega]
    decide

/-- The byte behind a name is the owner's, or is not null. -/
theorem stringAt_behind {h : Heap σ} {L : BlockList → List Nat} {tiles : List Nat} {b n : Nat}
    (hi : HeapInv h L tiles) (hb : b ∈ tiles) (hn : n ≤ size h.mem b) :
    stringAt h.mem (h.currentVirtualAddress - (b + HEADER + n)) (b + HEADER + n) = some [] ↔
      n < size h.mem b ∧ byteAt h.mem (b + HEADER + n) = 0 := by
  have hend := hi.block_end hb
  rw [stringAt_eq_nil]
  rcases Nat.lt_or_eq_of_le hn with hlt | rfl
  · exact and_congr_left fun _ => iff_of_true (by omega) hlt
  · constructor
    · rintro ⟨hpos, hnull⟩
      exact absurd hnull (byteAt_end hi hb (by omega))
    · rintro ⟨hlt, -⟩
      omega

/-- It stays so while the block is in use. -/
theorem stringAt_behind_kept {h h' : Heap σ} {L L' : BlockList → List Nat} {tiles tiles' : List Nat}
    {b n : Nat} (hk : Kept h.mem h'.mem b) (hi : HeapInv h L tiles) (hb : b ∈ tiles)
    (hi' : HeapInv h' L' tiles') (hb' : b ∈ tiles') (hn : n ≤ size h.mem b) :
    stringAt h'.mem (h'.currentVirtualAddress - (b + HEADER + n)) (b + HEADER + n) = some [] ↔
      stringAt h.mem (h.currentVirtualAddress - (b + HEADER + n)) (b + HEADER + n) = some [] := by
  rw [stringAt_behind hi hb hn, stringAt_behind hi' hb' (hk.size_eq ▸ hn), hk.size_eq]
  refine and_congr_right fun hlt => ?_
  rw [(hk.bytes hi hb (payload_iff.mpr ⟨by omega, by omega⟩)).2]

structure NamedHeap (σ : Type) extends GoodHeap σ where
  /-- ghost: what the blocks in use were asked for -/
  asked : Nat → Nat
  fits : ∀ a, BusyPayload heap a → asked a ≤ size heap.mem (a - HEADER)

theorem kernelHeap_some {h g : GoodHeap σ} {n a : Nat}
    (hs : (kernelHeap P boot).allocate n h = some (a, g)) :
    NoWrap n ∧ RoomToGrow h.heap (roundSize n) ∧
      blockAllocate P boot n h.heap = some (a, g.heap) := by
  simp only [kernelHeap] at hs
  split at hs
  · rename_i hw
    split at hs
    · cases hs
    · rename_i hs'
      cases hs
      exact ⟨hw.1, hw.2, hs'⟩
  · cases hs

/-- A block in use keeps its size and what is behind its name. -/
theorem kernelHeap_allocate_kept {h g : GoodHeap σ} {n m a x : Nat}
    (hs : (kernelHeap P boot).allocate n h = some (a, g)) (hx : BusyPayload h.heap x)
    (hm : m ≤ size h.heap.mem (x - HEADER)) :
    x ≠ a ∧ size g.heap.mem (x - HEADER) = size h.heap.mem (x - HEADER) ∧
      (stringAt g.heap.mem (g.heap.currentVirtualAddress - (x + m)) (x + m) = some [] ↔
        stringAt h.heap.mem (h.heap.currentVirtualAddress - (x + m)) (x + m) = some []) := by
  obtain ⟨hw, hr, ha⟩ := kernelHeap_some hs
  obtain ⟨L, tiles, hi⟩ := h.inv
  obtain ⟨b, hb, rfl⟩ := (busyPayload_iff hi x).mp hx
  obtain ⟨L', tiles', c, hi', hsub, -, rfl, hcb, -, -, hkeep, -⟩ := blockAllocate_inv hi hw hr ha
  rw [Nat.add_sub_cancel] at hm ⊢
  have hk := (hkeep b hb).2
  have hbt := hi.mem_tiles .busy b hb
  refine ⟨fun he => hcb (Nat.add_right_cancel he ▸ hb), hk.size_eq, ?_⟩
  exact stringAt_behind_kept hk hi hbt hi' (hsub b hbt) hm

theorem kernelHeap_deallocate_kept (P : PageSource σ) (boot a : Nat) {h : GoodHeap σ} {m x : Nat}
    (hx : BusyPayload h.heap x) (hm : m ≤ size h.heap.mem (x - HEADER)) :
    size ((kernelHeap P boot).deallocate a h).heap.mem (x - HEADER) = size h.heap.mem (x - HEADER) ∧
      (stringAt ((kernelHeap P boot).deallocate a h).heap.mem
          (((kernelHeap P boot).deallocate a h).heap.currentVirtualAddress - (x + m)) (x + m) =
            some [] ↔
        stringAt h.heap.mem (h.heap.currentVirtualAddress - (x + m)) (x + m) = some []) := by
  by_cases ha : BusyPayload h.heap a
  · have hheap : ((kernelHeap P boot).deallocate a h).heap = blockDeallocate a h.heap := by
      simp only [kernelHeap, dif_pos ha]
    rw [hheap]
    obtain ⟨L, tiles, hi⟩ := h.inv
    obtain ⟨b, hb, rfl⟩ := (busyPayload_iff hi x).mp hx
    obtain ⟨c, hc, hac⟩ := (busyPayload_iff hi a).mp ha
    obtain ⟨L', hi', -, -, hkeep⟩ := blockDeallocate_inv hi (hi.mem_tiles .busy c hc) hac
    rw [Nat.add_sub_cancel] at hm ⊢
    have hbt := hi.mem_tiles .busy b hb
    have hk := hkeep b hbt
    exact ⟨hk.size_eq, stringAt_behind_kept hk hi hbt hi' hbt hm⟩
  · have hsame : (kernelHeap P boot).deallocate a h = h := by simp only [kernelHeap, dif_neg ha]
    rw [hsame]
    exact ⟨rfl, Iff.rfl⟩

/-- The block allocator as a heap of names. -/
noncomputable def kernelNames (P : PageSource σ) (boot : Nat) : NameHeap (NamedHeap σ) where
  allocate n h :=
    match hs : (kernelHeap P boot).allocate n h.toGoodHeap with
    | none => none
    | some (a, g) => some (a, ⟨g, Function.update h.asked a n, fun x hx => by
        obtain ⟨hw, hr, ha⟩ := kernelHeap_some hs
        rcases ((kernelHeap P boot).grant n _ a g hs).2.2 x |>.mp hx with rfl | hx
        · obtain ⟨L, tiles, hi⟩ := h.inv
          obtain ⟨_, _, c, _, _, _, rfl, _, hsize, _⟩ := blockAllocate_inv hi hw hr ha
          rw [Function.update_self, Nat.add_sub_cancel]
          exact Nat.le_trans (roundSize_spec hw).2.2.1 hsize
        · obtain ⟨hne, hsize, -⟩ := kernelHeap_allocate_kept hs hx (h.fits x hx)
          rw [Function.update_of_ne hne, hsize]
          exact h.fits x hx⟩)
  deallocate a h := ⟨(kernelHeap P boot).deallocate a h.toGoodHeap, h.asked, fun x hx => by
    have hold : BusyPayload h.heap x := by
      by_cases ha : BusyPayload h.heap a
      · exact (((kernelHeap P boot).returned _ a ha x).mp hx).2
      · simpa only [kernelHeap, dif_neg ha] using hx
    rw [(kernelHeap_deallocate_kept P boot a hold (h.fits x hold)).1]
    exact h.fits x hold⟩
  Busy h a := BusyPayload h.heap a
  grant n h a h' hs := by
    split at hs
    · cases hs
    · rename_i hs'
      cases hs
      exact (kernelHeap P boot).grant n _ _ _ hs'
  returned h a ha x := (kernelHeap P boot).returned _ a ha x
  behind h a := stringAt h.heap.mem (h.heap.currentVirtualAddress - (a + h.asked a)) (a + h.asked a)
  allocate_behind n h a h' x hs hx := by
    split at hs
    · cases hs
    · rename_i hs'
      cases hs
      obtain ⟨hne, -, hbehind⟩ := kernelHeap_allocate_kept hs' hx (h.fits x hx)
      simp only [Function.update_of_ne hne]
      exact hbehind
  deallocate_behind h a x _ hx :=
    (kernelHeap_deallocate_kept P boot a hx (h.fits x hx)).2

end

end GaOS.L4.Files
