import GaOS.Core.Bytes
import GaOS.L3Heap.HeapInv

/-!
# Live payloads are never disturbed

Runs of `block_allocate` and `block_deallocate` with a ghost list `live` of the
payloads handed out and not yet freed, and with clients that write what they
like inside the live payloads. A deallocation names a live payload or the
payload of a block that is free at the moment, so a double free of a block that
was not reused is among the runs.

The invariant is that every live payload belongs to a block on the busy list
(`LiveInv.busy`). The allocator only ever cuts, clears or grows blocks of the free
list, so the payloads of busy blocks are kept by `HeapInv`'s step lemmas, and a
free of a free block moves no busy one.

`Heap.mem` holds words; `byteAt` reads a byte of it, and `Payload` is a set of
byte addresses. Payloads start and end at word boundaries, which takes the word
lemmas to bytes (`Payload.word`).
-/
namespace GaOS.L3.BlockAllocator

open GaOS.L1 GaOS.L1.PageAllocator GaOS.L2.TableManager

variable {σ : Type} {P : PageSource σ} {h h' : Heap σ} {L : BlockList → List Nat}
  {tiles : List Nat} {b : Nat}

/-- Byte `a` is one of the payload at `q`. -/
def Payload (h : Heap σ) (q a : Nat) : Prop := q ≤ a ∧ a < q + size h.mem (q - HEADER)

/-- The payload at `q` belongs to a block of the free list. -/
def FreePayload (h : Heap σ) (q : Nat) : Prop :=
  ∃ l b, DList 0 (next h.mem) (previous h.mem) h.freeListStart l ∧ b ∈ l ∧ q = b + HEADER

structure LiveHeap (σ : Type) where
  heap : Heap σ
  /-- ghost: the payloads handed out and not yet freed -/
  live : List Nat

inductive LiveOp where
  | allocate (size : Nat)
  | deallocate (block : Nat)
  /-- a client writes into the payloads it owns; pages may come and go elsewhere -/
  | write
  deriving DecidableEq, Repr

def liveLTS (P : PageSource σ) (boot : Nat) : LTS (LiveHeap σ) LiveOp where
  init s := s.live = [] ∧ ∃ highest mem machine,
    0 < highest.base + highest.length + P.hhdm ∧
    highest.base + highest.length + P.hhdm + PAGE ≤ 2 ^ 64 ∧
    RangeOk (alignPage (highest.base + highest.length + P.hhdm)) 1 ∧
    blockAllocatorInit P boot highest mem machine = some s.heap
  step s l t := match l with
    | .allocate sz => NoWrap sz ∧ RoomToGrow s.heap (roundSize sz) ∧
        ∃ q, blockAllocate P boot sz s.heap = some (q, t.heap) ∧ t.live = q :: s.live
    | .deallocate q => (q ∈ s.live ∨ FreePayload s.heap q) ∧
        t.heap = blockDeallocate q s.heap ∧ t.live = s.live.erase q
    | .write => t.live = s.live ∧ ∃ mem machine,
        t.heap = { s.heap with mem := mem, machine := machine } ∧
        ∀ y, (∀ q ∈ s.live, ¬Payload s.heap q y) → mem y = s.heap.mem y

/-! ## The invariant -/

/-- The heap is well-formed, and the live payloads belong to busy blocks. -/
structure LiveInv (s : LiveHeap σ) (L : BlockList → List Nat) (tiles : List Nat) : Prop where
  heap : HeapInv s.heap L tiles
  busy : ∀ q ∈ s.live, ∃ b ∈ L .busy, q = b + HEADER
  nodup : s.live.Nodup

theorem payload_iff {a : Nat} :
    Payload h (b + HEADER) a ↔ b + HEADER ≤ a ∧ a < b + HEADER + size h.mem b := by
  unfold Payload
  rw [Nat.add_sub_cancel]

/-- The word that holds a byte of a payload is in the payload. -/
theorem Payload.word (hi : HeapInv h L tiles) (hb : b ∈ tiles) {a : Nat}
    (ha : Payload h (b + HEADER) a) : Payload h (b + HEADER) (a / 8 * 8) := by
  have h1 := (hi.block b hb).address
  have h2 := (hi.block b hb).size_mod
  rw [payload_iff] at ha ⊢
  simp only [HEADER] at *
  omega

/-- A block whose payload is kept has the same bytes. -/
theorem Kept.bytes (hi : HeapInv h L tiles) (hb : b ∈ tiles) (hk : Kept h.mem h'.mem b) {a : Nat}
    (ha : Payload h (b + HEADER) a) :
    Payload h' (b + HEADER) a ∧ byteAt h'.mem a = byteAt h.mem a := by
  have hw := payload_iff.mp (ha.word hi hb)
  refine ⟨?_, ?_⟩
  · rw [payload_iff, hk.size_eq]
    exact payload_iff.mp ha
  · unfold byteAt
    rw [hk.payload _ hw.1 hw.2]

theorem FreePayload.block (hi : HeapInv h L tiles) {q : Nat} (hq : FreePayload h q) :
    ∃ b ∈ L .free, q = b + HEADER := by
  obtain ⟨l, b, hl, hb, he⟩ := hq
  exact ⟨b, (hl.unique (hi.lists.dlist .free)) ▸ hb, he⟩

/-- A header has no byte of a payload. -/
theorem HeapInv.header_not_payload (hi : HeapInv h L tiles) {x y : Nat} (hb : b ∈ tiles)
    (hx : x ∈ tiles) (h1 : x ≤ y) (h2 : y < x + HEADER) : ¬Payload h (b + HEADER) y := by
  intro hp
  rw [payload_iff] at hp
  have := hi.payload_outside hb hp.1 hp.2 x hx
  omega

/-- Payloads of different blocks share no byte. -/
theorem HeapInv.payload_disjoint (hi : HeapInv h L tiles) {c a : Nat} (hb : b ∈ tiles)
    (hc : c ∈ tiles) (hne : b ≠ c) (ha : Payload h (b + HEADER) a) :
    ¬Payload h (c + HEADER) a := by
  intro ha'
  rw [payload_iff] at ha ha'
  have := hi.tiling.apart hb hc
  simp only [extent] at this
  omega

/-! ## Steps -/

/-- The bytes of the payloads that stay live are the same. -/
def Undisturbed (s t : LiveHeap σ) : Prop :=
  ∀ q ∈ s.live, q ∈ t.live → ∀ a, Payload s.heap q a →
    Payload t.heap q a ∧ byteAt t.heap.mem a = byteAt s.heap.mem a

variable {s t : LiveHeap σ} {boot : Nat}

theorem LiveInv.undisturbed (hi : LiveInv s L tiles)
    (hk : ∀ b ∈ L .busy, b + HEADER ∈ t.live → Kept s.heap.mem t.heap.mem b) :
    Undisturbed s t := by
  intro q hq hqt a ha
  obtain ⟨b, hb, rfl⟩ := hi.busy q hq
  exact (hk b hb hqt).bytes hi.heap (hi.heap.mem_tiles .busy b hb) ha

theorem LiveInv.allocate (hi : LiveInv s L tiles) {sz q : Nat} (hw : NoWrap sz)
    (hr : RoomToGrow s.heap (roundSize sz))
    (ha : blockAllocate P boot sz s.heap = some (q, t.heap)) (hl : t.live = q :: s.live) :
    (∃ L' tiles', LiveInv t L' tiles') ∧ Undisturbed s t := by
  obtain ⟨L', tiles', c, hi', -, hc, rfl, hcb, -, -, hkeep, -⟩ :=
    blockAllocate_inv hi.heap hw hr ha
  refine ⟨⟨L', tiles', hi', fun r hr => ?_, ?_⟩, hi.undisturbed fun b hb _ => (hkeep b hb).2⟩
  · rw [hl, List.mem_cons] at hr
    rcases hr with rfl | hr
    · exact ⟨c, hc, rfl⟩
    · obtain ⟨b, hb, rfl⟩ := hi.busy r hr
      exact ⟨b, (hkeep b hb).1, rfl⟩
  · rw [hl, List.nodup_cons]
    refine ⟨fun hr => ?_, hi.nodup⟩
    obtain ⟨b, hb, he⟩ := hi.busy _ hr
    obtain rfl : c = b := Nat.add_right_cancel he
    exact hcb hb

theorem LiveInv.deallocate (hi : LiveInv s L tiles) {q : Nat}
    (hq : q ∈ s.live ∨ FreePayload s.heap q) (ht : t.heap = blockDeallocate q s.heap)
    (hl : t.live = s.live.erase q) : (∃ L' tiles', LiveInv t L' tiles') ∧ Undisturbed s t := by
  obtain ⟨b, hb, rfl⟩ : ∃ b ∈ tiles, q = b + HEADER := by
    rcases hq with hq | hq
    · obtain ⟨b, hb, he⟩ := hi.busy q hq
      exact ⟨b, hi.heap.mem_tiles .busy b hb, he⟩
    · obtain ⟨b, hb, he⟩ := hq.block hi.heap
      exact ⟨b, hi.heap.mem_tiles .free b hb, he⟩
  obtain ⟨L', hi', -, hstay, hkept⟩ := blockDeallocate_inv hi.heap hb rfl
  refine ⟨⟨L', tiles, ht ▸ hi', fun r hr => ?_, ?_⟩, hi.undisturbed fun x hx _ => ?_⟩
  · rw [hl, hi.nodup.mem_erase_iff] at hr
    obtain ⟨x, hx, rfl⟩ := hi.busy r hr.2
    exact ⟨x, hstay .busy x (fun he => hr.1 (he ▸ rfl)) hx, rfl⟩
  · rw [hl]; exact hi.nodup.erase _
  · rw [ht]; exact hkept x (hi.heap.mem_tiles .busy x hx)

theorem LiveInv.write (hi : LiveInv s L tiles) {mem : Mem} {machine : Machine σ}
    (hl : t.live = s.live) (ht : t.heap = { s.heap with mem := mem, machine := machine })
    (hw : ∀ y, (∀ q ∈ s.live, ¬Payload s.heap q y) → mem y = s.heap.mem y) :
    LiveInv t L tiles := by
  refine ⟨?_, hl ▸ hi.busy, hl ▸ hi.nodup⟩
  rw [ht]
  refine hi.heap.congr fun x hx y h1 h2 => hw y fun q hq => ?_
  obtain ⟨b, hb, rfl⟩ := hi.busy q hq
  exact hi.heap.header_not_payload (hi.heap.mem_tiles .busy b hb) hx h1 h2

theorem live_inductive (P : PageSource σ) (boot : Nat) :
    (liveLTS P boot).Inductive fun s => ∃ L tiles, LiveInv s L tiles where
  init s hs := by
    obtain ⟨hr, highest, mem, machine, hpos, htop, hroom, hinit⟩ := hs
    obtain ⟨L, tiles, hi⟩ := blockAllocatorInit_inv hpos htop hroom hinit
    refine ⟨L, tiles, hi, fun q hq => ?_, ?_⟩
    · rw [hr] at hq; cases hq
    · rw [hr]; exact List.nodup_nil
  step s l t hs h := by
    obtain ⟨L, tiles, hi⟩ := hs
    cases l with
    | allocate sz =>
      obtain ⟨hw, hr, q, ha, hl⟩ := h
      exact (hi.allocate hw hr ha hl).1
    | deallocate q =>
      obtain ⟨hq, ht, hl⟩ := h
      exact (hi.deallocate hq ht hl).1
    | write =>
      obtain ⟨hl, mem, machine, ht, hw⟩ := h
      exact ⟨L, tiles, hi.write hl ht hw⟩

/-! ## What a client can rely on -/

/-- The payload that `block_allocate(sz)` hands out. -/
structure FreshPayload (live : List Nat) (h' : Heap σ) (sz q : Nat) : Prop where
  aligned : q % 16 = 0
  holds : sz ≤ size h'.mem (q - HEADER)
  zero : ∀ a, q ≤ a → a < q + sz → byteAt h'.mem a = 0
  disjoint : ∀ r ∈ live, ∀ a, Payload h' q a → ¬Payload h' r a

theorem LiveInv.fresh (hi : LiveInv s L tiles) {sz q : Nat} (hw : NoWrap sz)
    (hr : RoomToGrow s.heap (roundSize sz))
    (ha : blockAllocate P boot sz s.heap = some (q, h')) : FreshPayload s.live h' sz q := by
  obtain ⟨L', tiles', c, hi', -, hc, rfl, hcb, hsize, hzero, hkeep, -⟩ :=
    blockAllocate_inv hi.heap hw hr ha
  obtain ⟨-, -, hsz, -⟩ := roundSize_spec hw
  have hct := hi'.mem_tiles .busy c hc
  have hc16 := (hi'.block c hct).address
  refine ⟨by simp only [HEADER]; omega, ?_, fun a h1 h2 => ?_, fun r hr a h1 => ?_⟩
  · rw [Nat.add_sub_cancel]; omega
  · unfold byteAt
    rw [hzero (a / 8 * 8) (by simp only [HEADER] at *; omega) (by omega)]
    simp
  · obtain ⟨b, hb, rfl⟩ := hi.busy r hr
    refine hi'.payload_disjoint hct (hi'.mem_tiles .busy b (hkeep b hb).1) (fun he => ?_) h1
    exact hcb (he ▸ hb)

/-- **Live heap contents are never disturbed.** In every state of every run:
`block_allocate(sz)`, for every `sz` whose rounding does not wrap, returns unless
the heap cannot grow, and what it returns, if `map_range` can map what was missing, is
aligned to 16, has a block of at least `sz` bytes, starts with `sz` zero bytes and shares
no byte with a live payload; and no call of the allocator changes a byte of a payload
that is live before and after it. -/
theorem live_payloads_undisturbed (hs : (liveLTS P boot).Reachable s) :
    (∀ sz, NoWrap sz →
      (RoomToGrow s.heap (roundSize sz) → ∀ q h',
        blockAllocate P boot sz s.heap = some (q, h') → FreshPayload s.live h' sz q) ∧
      (blockAllocate P boot sz s.heap = none →
        createFreeBlock P boot (add64 (add64 (roundSize sz) HEADER) (PAGE - 1) / PAGE) s.heap =
          none)) ∧
    ∀ l t, (liveLTS P boot).step s l t → l ≠ .write → Undisturbed s t := by
  obtain ⟨L, tiles, hi⟩ := (live_inductive P boot).reachable hs
  refine ⟨fun sz hw => ⟨fun hr q h' ha => hi.fresh hw hr ha, hi.heap.blockAllocate_none⟩,
    fun l t hst hl => ?_⟩
  cases l with
  | allocate sz =>
    obtain ⟨hw, hr, q, ha, hlive⟩ := hst
    exact (hi.allocate hw hr ha hlive).2
  | deallocate q =>
    obtain ⟨hq, ht, hlive⟩ := hst
    exact (hi.deallocate hq ht hlive).2
  | write => exact absurd rfl hl

/-- 100 bytes, and then 50 more. -/
theorem live_payloads_undisturbed_small : ∃ (s : LiveHeap Nat) (q : Nat) (h' : Heap Nat),
    s.live ≠ [] ∧ blockAllocate smallSource smallTable.root 50 s.heap = some (q, h') ∧
      FreshPayload s.live h' 50 q ∧ Undisturbed s ⟨h', q :: s.live⟩ := by
  have hrun : (smallHeap.bind fun h₀ =>
      (blockAllocate smallSource smallTable.root 100 h₀).bind fun r =>
        (blockAllocate smallSource smallTable.root 50 r.2).map fun _ =>
          decide (RoomToGrow h₀ (roundSize 100) ∧ RoomToGrow r.2 (roundSize 50))) =
      some true := by decide +kernel
  obtain ⟨h₀, hinit, hrun⟩ := Option.bind_eq_some_iff.mp hrun
  obtain ⟨⟨q₁, h₁⟩, hs₁, hrun⟩ := Option.bind_eq_some_iff.mp hrun
  obtain ⟨⟨q, h'⟩, hs, hroom⟩ := Option.map_eq_some_iff.mp hrun
  obtain ⟨hr₁, hr⟩ := of_decide_eq_true hroom
  have h0 : (liveLTS smallSource smallTable.root).Reachable ⟨h₀, []⟩ :=
    .init ⟨rfl, _, _, _, by decide, by decide, by decide, hinit⟩
  have h1 : (liveLTS smallSource smallTable.root).Reachable ⟨h₁, [q₁]⟩ :=
    h0.step (l := .allocate 100) ⟨by decide, hr₁, q₁, hs₁, rfl⟩
  obtain ⟨hfresh, hkeep⟩ := live_payloads_undisturbed h1
  exact ⟨⟨h₁, [q₁]⟩, q, h', List.cons_ne_nil _ _, hs, (hfresh 50 (by decide)).1 hr q h' hs,
    hkeep (.allocate 50) ⟨h', [q, q₁]⟩ ⟨by decide, hr, q, hs, rfl⟩ (by decide)⟩

end GaOS.L3.BlockAllocator
