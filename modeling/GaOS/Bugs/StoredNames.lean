import GaOS.L3Heap.Names

/-!
# Names without an end

Names of devices, mount points and tasks and the paths of nodes are kept as
`block_allocate(strlen(name))` and a `memcpy` of that many bytes (`L3Heap.Names`). Nobody
writes the null. It is there when the allocator rounds the length up, because the bytes up
to the rounded length are cleared. For a length that is a positive multiple of 16 there is
nothing to round: the block usually ends with the name, and what follows is the signature
of the next header.

The readers use `strlen` and `strcpy` (`device_generate_path_of`, `device_create_at`,
`ustar_dup`, `devfs_dup`, `elf_load_from`), and `device_create_at` itself allocates
`strlen(path) + 1` for its copy (kernel/src/devices/manager.c:116).

`reads_back_iff_terminated` is the exact condition: the length is no positive multiple of
16, or the block that is taken is larger and too small to be cut, and its next byte happens
to be 0.

Counterexample: sixteen bytes in a heap that was just made.

Fix: allocate one byte more.
-/
namespace GaOS.Bugs.StoredNames

open GaOS.L1 GaOS.L1.PageAllocator GaOS.L2.TableManager GaOS.L3.BlockAllocator

variable {σ : Type} {P : PageSource σ} {boot : Nat} {h h' : Heap σ} {L : BlockList → List Nat}
  {tiles : List Nat} {name : List Nat} {q : Nat}

/-! ## What should hold -/

/-- The bytes of a C string. -/
def IsString (name : List Nat) : Prop := ∀ c ∈ name, 0 < c ∧ c < 256

/-- The pointer reads as the name: its bytes are there, and the next byte is in the
payload and is 0. -/
def ReadsBack (h : Heap σ) (q : Nat) (name : List Nat) : Prop :=
  (∀ i, (hi : i < name.length) → byteAt h.mem (q + i) = name[i]) ∧
    Payload h q (q + name.length) ∧ byteAt h.mem (q + name.length) = 0

/-! ## The condition -/

/-- The block that `block_allocate(sz)` takes is larger than `sz`, is not cut and has a
null behind its first `sz` bytes: the first one of the free list that is large enough, or a
new one, which is clear. -/
def SlackNull (sz : Nat) (h : Heap σ) : Prop :=
  match findFit h.mem sz h.currentVirtualAddress h.freeListStart with
  | none => False
  | some b =>
    if b = 0 then
      let room := add64 (add64 sz HEADER) (PAGE - 1) / PAGE * PAGE - HEADER
      sz < room ∧ room ≤ sz + 64
    else sz < size h.mem b ∧ size h.mem b ≤ sz + 64 ∧ byteAt h.mem (b + HEADER + sz) = 0

def Terminated (name : List Nat) (h : Heap σ) : Prop :=
  name = [] ∨ name.length % 16 ≠ 0 ∨ SlackNull name.length h

/-! ## What is behind a name -/

/-- What the copy leaves: the bytes of the name, and the rest as it was. -/
theorem storeName_some (hi : HeapInv h L tiles) (hw : NoWrap name.length)
    (hr : RoomToGrow h (roundSize name.length)) (hs : IsString name)
    (hstore : storeName P boot name h = some (q, h')) :
    ∃ h₁, blockAllocate P boot name.length h = some (q, h₁) ∧ q % 16 = 0 ∧
      (ReadsBack h' q name ↔ name.length < size h₁.mem (q - HEADER) ∧
        byteAt h₁.mem (q + name.length) = 0) := by
  simp only [storeName, Option.bind_eq_bind, Option.bind_eq_some_iff, Prod.exists,
    Option.pure_def, Option.some.injEq, Prod.mk.injEq] at hstore
  obtain ⟨q₁, h₁, ha, rfl, rfl⟩ := hstore
  obtain ⟨L', tiles', c, hi', -, hc, rfl, -⟩ := blockAllocate_inv hi hw hr ha
  have hc16 := (hi'.block c (hi'.mem_tiles .busy c hc)).address
  have hq : (c + HEADER) % 16 = 0 := by simp only [HEADER]; omega
  have hbytes : ∀ y, byteAt (h₁.mem.writeBytes (c + HEADER) name.length fun i => name.getD i 0) y =
      if c + HEADER ≤ y ∧ y < c + HEADER + name.length then name.getD (y - (c + HEADER)) 0
      else byteAt h₁.mem y := by
    refine byteAt_writeBytes h₁.mem (by omega) fun k => ?_
    rw [List.getD_eq_getElem?_getD]
    rcases Nat.lt_or_ge k name.length with hk | hk
    · rw [List.getElem?_eq_getElem hk]
      exact (hs _ (List.getElem_mem hk)).2
    · rw [List.getElem?_eq_none hk]
      decide
  have hsize : size (h₁.mem.writeBytes (c + HEADER) name.length fun i => name.getD i 0) c =
      size h₁.mem c := Mem.writeBytes_out _ _ (.inl (by simp only [HEADER]; omega))
  refine ⟨h₁, ha, hq, ?_⟩
  unfold ReadsBack Payload
  rw [Nat.add_sub_cancel]
  simp only [hsize, hbytes]
  constructor
  · rintro ⟨-, hpay, hnull⟩
    rw [if_neg (by omega)] at hnull
    exact ⟨by omega, hnull⟩
  · rintro ⟨hlt, hnull⟩
    refine ⟨fun i hi => ?_, ⟨by omega, by omega⟩, by rw [if_neg (by omega)]; exact hnull⟩
    rw [if_pos ⟨by omega, by omega⟩, Nat.add_sub_cancel_left, List.getD_eq_getElem?_getD,
      List.getElem?_eq_getElem hi]
    rfl

/-- Lengths that are rounded up are followed by zeros. -/
theorem null_of_rounded {sz : Nat} {h₁ : Heap σ} (hi : HeapInv h L tiles) (hw : NoWrap sz)
    (hg : RoomToGrow h (roundSize sz))
    (ha : blockAllocate P boot sz h = some (q, h₁)) (hr : sz = 0 ∨ sz % 16 ≠ 0) :
    sz < size h₁.mem (q - HEADER) ∧ byteAt h₁.mem (q + sz) = 0 := by
  obtain ⟨L', tiles', c, hi', -, hc, rfl, -, hsize, hzero, -⟩ := blockAllocate_inv hi hw hg ha
  obtain ⟨hmod, hmin, hle, -⟩ := roundSize_spec hw
  have hc16 := (hi'.block c (hi'.mem_tiles .busy c hc)).address
  have hlt : sz < roundSize sz := by omega
  rw [Nat.add_sub_cancel]
  refine ⟨by omega, ?_⟩
  unfold byteAt
  rw [hzero _ (by simp only [HEADER]; omega) (by simp only [HEADER]; omega)]
  simp

theorem roundSize_of_multiple {sz : Nat} (h0 : sz ≠ 0) (hmod : sz % 16 = 0) : roundSize sz = sz := by
  have hmin : ¬sz < BLOCK_MINIMUM_ALLOCATION := by simp only [BLOCK_MINIMUM_ALLOCATION]; omega
  simp [roundSize, hmin, hmod]

/-- A multiple of 16 is followed by what the block had there. -/
theorem null_iff_slack {sz : Nat} {h₁ : Heap σ} (hi : HeapInv h L tiles) (hw : NoWrap sz)
    (hr : RoomToGrow h (roundSize sz))
    (ha : blockAllocate P boot sz h = some (q, h₁)) (h0 : sz ≠ 0) (hmod : sz % 16 = 0)
    (hq : q % 16 = 0) :
    (sz < size h₁.mem (q - HEADER) ∧ byteAt h₁.mem (q + sz) = 0) ↔ SlackNull sz h := by
  obtain ⟨c, h₂, hchoose, rfl, hsize, hbehind⟩ := blockAllocate_block hi hw hr ha
  rw [roundSize_of_multiple h0 hmod] at hchoose hsize hbehind hr
  rw [Nat.add_sub_cancel]
  -- the null is in the payload only when the block was not cut
  have hword : (c + HEADER + sz) / 8 * 8 = c + HEADER + sz := by omega
  have hcases : (sz < size h₁.mem c ∧ byteAt h₁.mem (c + HEADER + sz) = 0) ↔
      sz < size h₂.mem c ∧ size h₂.mem c ≤ sz + 64 ∧ byteAt h₂.mem (c + HEADER + sz) = 0 := by
    constructor
    · rintro ⟨hlt, hnull⟩
      have hmem := hbehind (c + HEADER + sz) (Nat.le_refl _) (by omega)
      rw [hsize] at hlt
      split at hlt
      · omega
      · refine ⟨hlt, by omega, ?_⟩
        rw [← hnull]
        exact (byteAt_congr (by rw [hword, hmem])).symm
    · rintro ⟨hlt, hle, hnull⟩
      rw [if_neg (by omega)] at hsize
      have hmem := hbehind (c + HEADER + sz) (Nat.le_refl _) (by omega)
      refine ⟨by omega, ?_⟩
      rw [← hnull]
      exact byteAt_congr (by rw [hword, hmem])
  rw [hcases]
  obtain ⟨found, hfind, -⟩ := hi.findFit_ends sz
  unfold SlackNull
  simp only [hfind]
  by_cases hnew : found = 0
  · subst hnew
    obtain ⟨hroom, hzero⟩ := chooseBlock_new hi hr hfind hchoose
    rw [if_pos rfl, ← hroom]
    constructor
    · rintro ⟨h1, h2, -⟩
      exact ⟨h1, h2⟩
    · rintro ⟨h1, h2⟩
      refine ⟨h1, h2, ?_⟩
      unfold byteAt
      rw [hword, hzero _ (by omega) (by omega)]
      simp
  · rw [chooseBlock_found hfind hnew] at hchoose
    cases hchoose
    rw [if_neg hnew]

/-! ## All five -/

/-- A record leaves a heap that runs can reach. -/
theorem allocateRecord_reachable {s : LiveHeap σ} {owner : Owner}
    (hs : (liveLTS P boot).Reachable s) (hroom : owner.HasRoom s.heap)
    (hr : allocateRecord P boot owner s.heap = some h) :
    ∃ t, (liveLTS P boot).Reachable t ∧ t.heap = h := by
  unfold allocateRecord at hr
  split at hr
  · cases hr
    exact ⟨s, hs, rfl⟩
  · rename_i n hn
    obtain ⟨⟨q, h₁⟩, ha, rfl⟩ := Option.map_eq_some_iff.mp hr
    have hw : NoWrap n := by
      cases owner <;> cases hn <;> decide
    exact ⟨⟨h₁, q :: s.live⟩, hs.step (l := .allocate n) ⟨hw, hroom n hn, q, ha, rfl⟩, rfl⟩

/-- **A stored name reads back exactly when something else has put a null behind it.** For
every heap that runs can reach, every owner and every name, with pages that `map_range` can
map if the heap has to grow for them. -/
theorem reads_back_iff_terminated {s : LiveHeap σ} {owner : Owner}
    (hreach : (liveLTS P boot).Reachable s) (hs : IsString name) (hw : NoWrap name.length)
    (hrecord : allocateRecord P boot owner s.heap = some h) (hroom : owner.HasRoom s.heap)
    (hstore : storeName P boot name h = some (q, h')) (hr : RoomToGrow h (roundSize name.length)) :
    ReadsBack h' q name ↔ Terminated name h := by
  obtain ⟨t, ht, rfl⟩ := allocateRecord_reachable hreach hroom hrecord
  obtain ⟨L, tiles, hi⟩ := (live_inductive P boot).reachable ht
  obtain ⟨h₁, ha, hq, hiff⟩ := storeName_some hi.heap hw hr hs hstore
  rw [hiff]
  unfold Terminated
  by_cases hlen : name.length = 0 ∨ name.length % 16 ≠ 0
  · refine iff_of_true (null_of_rounded hi.heap hw hr ha hlen) ?_
    rcases hlen with hlen | hlen
    · exact .inl (List.length_eq_zero_iff.mp hlen)
    · exact .inr (.inl hlen)
  · rw [not_or, not_not] at hlen
    rw [null_iff_slack hi.heap hw hr ha hlen.1 hlen.2 hq]
    have hne : name ≠ [] := fun he => hlen.1 (by rw [he]; rfl)
    simp [hne, hlen.2]

/-! ## Examples -/

/-- The name of a device in a heap that was just made. -/
def firstName (name : List Nat) : Option (Heap Nat × Heap Nat × Nat × Heap Nat) := do
  let h₀ ← blockAllocatorInit smallSource smallTable.root ⟨0x3F000, 0x1000, .usable⟩
    (fun _ => 0xAA) smallTable.machine
  let h ← allocateRecord smallSource smallTable.root .device h₀
  let (q, h') ← storeName smallSource smallTable.root name h
  return (h₀, h, q, h')

theorem firstName_some {name : List Nat} {h₀ h h' : Heap Nat} {q : Nat}
    (hrun : firstName name = some (h₀, h, q, h')) :
    (liveLTS smallSource smallTable.root).Reachable ⟨h₀, []⟩ ∧
      allocateRecord smallSource smallTable.root .device h₀ = some h ∧
      storeName smallSource smallTable.root name h = some (q, h') := by
  simp only [firstName, Option.bind_eq_bind, Option.bind_eq_some_iff, Prod.exists,
    Option.pure_def, Option.some.injEq, Prod.mk.injEq] at hrun
  obtain ⟨_, hinit, _, hrecord, _, _, hstore, rfl, rfl, rfl, rfl⟩ := hrun
  exact ⟨.init ⟨rfl, _, _, _, by decide, by decide, by decide, hinit⟩, hrecord, hstore⟩

/-- The name tty reads back. -/
theorem reads_back_tty : ∃ h₀ h q h', firstName [0x74, 0x74, 0x79] = some (h₀, h, q, h') ∧
    ReadsBack h' q [0x74, 0x74, 0x79] := by
  have hroom : (firstName [0x74, 0x74, 0x79]).map (fun r =>
      decide (Owner.device.HasRoom r.1 ∧ RoomToGrow r.2.1 (roundSize 3))) = some true := by
    decide +kernel
  obtain ⟨⟨h₀, h, q, h'⟩, hrun, hroom⟩ := Option.map_eq_some_iff.mp hroom
  obtain ⟨hreach, hrecord, hstore⟩ := firstName_some hrun
  obtain ⟨hr₁, hr₂⟩ := of_decide_eq_true hroom
  refine ⟨h₀, h, q, h', hrun, ?_⟩
  exact (reads_back_iff_terminated hreach (by simp [IsString]) (by decide) hrecord hr₁ hstore
    hr₂).mpr (.inr (.inl (by decide)))

/-- **A name of sixteen bytes has no end.** The byte behind it is the first one of the next
block's signature. -/
theorem sixteen_bytes_run_on : ∃ h₀ h q h',
    (liveLTS smallSource smallTable.root).Reachable ⟨h₀, []⟩ ∧
      allocateRecord smallSource smallTable.root .device h₀ = some h ∧
      storeName smallSource smallTable.root (List.replicate 16 0x61) h = some (q, h') ∧
      byteAt h'.mem (q + 16) = 0xE0 ∧ ¬ReadsBack h' q (List.replicate 16 0x61) := by
  have hbyte : (firstName (List.replicate 16 0x61)).map
      (fun r => byteAt r.2.2.2.mem (r.2.2.1 + 16)) = some 0xE0 := by decide +kernel
  obtain ⟨⟨h₀, h, q, h'⟩, hrun, hbyte⟩ := Option.map_eq_some_iff.mp hbyte
  obtain ⟨hreach, hrecord, hstore⟩ := firstName_some hrun
  refine ⟨h₀, h, q, h', hreach, hrecord, hstore, hbyte, fun hr => ?_⟩
  have hnull : byteAt h'.mem (q + 16) = 0 := hr.2.2
  rw [hbyte] at hnull
  cases hnull

end GaOS.Bugs.StoredNames
