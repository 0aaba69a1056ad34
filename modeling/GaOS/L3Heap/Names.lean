import GaOS.L3Heap.LiveHeap

/-!
# Names on the heap

Five places of the kernel keep a name as `block_allocate(strlen(name))` and a `memcpy` of
that many bytes, without the null: the names of devices, mount points and tasks, and the
paths of the nodes of both file systems. Four of them allocate the record that points to
the name first. `storeName` is the name, `Owner.record` the record.

`blockAllocate_block` says which block is handed out, what size it has then and what is
behind the bytes that were asked for: they are as before, since only these bytes are
cleared.
-/
namespace GaOS.L3.BlockAllocator

open GaOS.L1 GaOS.L1.PageAllocator GaOS.L2.TableManager

/-! ## The code -/

/-- Who keeps a name. -/
inductive Owner where
  /-- `allocate_device`, kernel/src/devices/manager.c:45-52 -/
  | device
  /-- `vfs_mount_fs`, kernel/src/filesystem/vfs.c:22-27 -/
  | mountPoint
  /-- `ustar_open`, kernel/src/filesystem/ustar.c:91-104 -/
  | ustarNode
  /-- `devfs_open`, kernel/src/devices/manager.c:343-352 -/
  | deviceNode
  /-- `task_scheduler_round_robin_create`,
  kernel/src/schedulers/task/round_robin/round_robin.c:236-242 -/
  | task
  deriving DecidableEq, Repr

/-- The size of the record that is allocated before the name. A task's is a page of its
own. -/
def Owner.record : Owner → Option Nat
  | .device => some 80
  | .mountPoint => some 40
  | .ustarNode => some 64
  | .deviceNode => some 64
  | .task => none

section
variable {σ : Type} (P : PageSource σ)

def allocateRecord (boot : Nat) (owner : Owner) (h : Heap σ) : Option (Heap σ) :=
  match owner.record with
  | none => some h
  | some n => (blockAllocate P boot n h).map Prod.snd

/-- Room to grow for the record. -/
def Owner.HasRoom (owner : Owner) (h : Heap σ) : Prop :=
  ∀ n ∈ owner.record, RoomToGrow h (roundSize n)

instance (owner : Owner) (h : Heap σ) : Decidable (owner.HasRoom h) :=
  inferInstanceAs (Decidable (∀ n ∈ owner.record, _))

/-- `block_allocate(strlen(name))` and `memcpy` -/
def storeName (boot : Nat) (name : List Nat) (h : Heap σ) : Option (Nat × Heap σ) := do
  let (q, h) ← blockAllocate P boot name.length h
  return (q, { h with mem := h.mem.writeBytes q name.length fun i => name.getD i 0 })

end

/-! ## The block that is handed out -/

variable {σ : Type} {P : PageSource σ} {boot : Nat} {h h' : Heap σ} {L : BlockList → List Nat}
  {tiles : List Nat}

/-- A block of the free list is taken as it is. -/
theorem chooseBlock_found {sz b : Nat}
    (hfind : findFit h.mem sz h.currentVirtualAddress h.freeListStart = some b) (hb : b ≠ 0) :
    chooseBlock P boot sz h = some (b, h) := by
  simp [chooseBlock, hfind, hb]

/-- A new block is clear. -/
theorem chooseBlock_new {sz c : Nat} {h₁ : Heap σ} (hi : HeapInv h L tiles) (hr : RoomToGrow h sz)
    (hfind : findFit h.mem sz h.currentVirtualAddress h.freeListStart = some 0)
    (hs : chooseBlock P boot sz h = some (c, h₁)) :
    size h₁.mem c = add64 (add64 sz HEADER) (PAGE - 1) / PAGE * PAGE - HEADER ∧
      ∀ y, c + HEADER ≤ y → y < c + HEADER + size h₁.mem c → h₁.mem y = 0 := by
  simp only [chooseBlock, hfind, Option.bind_eq_bind, Option.bind_some, if_true] at hs
  obtain ⟨-, -, hsize, hzero, -⟩ := createFreeBlock_inv hi (hr hfind) hs
  refine ⟨hsize, fun y h1 h2 => hzero y h1 ?_⟩
  rw [hsize] at h2
  omega

/-- The size of a block after it may have been cut. -/
theorem splitBlock_size {c sz : Nat} (hi : HeapInv h L tiles) (hc : c ∈ L .free)
    (hfit : sz ≤ size h.mem c) :
    size (splitBlock c sz h.mem) c = (if sz + 64 < size h.mem c then sz else size h.mem c) ∧
      (¬sz + 64 < size h.mem c → splitBlock c sz h.mem = h.mem) := by
  by_cases hbig : sz + 64 < size h.mem c
  · have hcut := splitBlock_cut (b := c + HEADER + sz) hi hc (by simpa [HEADER,
      BLOCK_MINIMUM_ALLOCATION, Nat.add_assoc] using hbig) rfl
    rw [if_pos hbig]
    exact ⟨hcut.size_cut, fun hno => absurd hbig hno⟩
  · have hct := hi.mem_tiles .free c hc
    have hend := hi.block_end hct
    have hlt := hi.current_lt
    have h1 := hi.headers.ne_zero c hct
    have h2 := (hi.block c hct).address
    have hcond : ¬size h.mem c > add64 (add64 sz HEADER) BLOCK_MINIMUM_ALLOCATION := by
      have e : add64 sz HEADER = sz + HEADER := add64_of_lt (by simp only [HEADER] at *; omega)
      rw [e, add64_of_lt (by simp only [BLOCK_MINIMUM_ALLOCATION, HEADER] at *; omega)]
      simp only [BLOCK_MINIMUM_ALLOCATION, HEADER]
      omega
    have hsame : splitBlock c sz h.mem = h.mem := by rw [splitBlock, if_neg hcond]
    rw [hsame, if_neg hbig]
    exact ⟨rfl, fun _ => rfl⟩

/-- **What is behind the bytes that were asked for.** The block is cut when there is room
for another one behind them; else it keeps its size and the rest of its contents. -/
theorem blockAllocate_block {sz q : Nat} (hi : HeapInv h L tiles) (hw : NoWrap sz)
    (hr : RoomToGrow h (roundSize sz))
    (hs : blockAllocate P boot sz h = some (q, h')) :
    ∃ c h₁, chooseBlock P boot (roundSize sz) h = some (c, h₁) ∧ q = c + HEADER ∧
      size h'.mem c =
        (if roundSize sz + 64 < size h₁.mem c then roundSize sz else size h₁.mem c) ∧
      ∀ y, q + roundSize sz ≤ y → y < q + size h'.mem c → h'.mem y = h₁.mem y := by
  obtain ⟨hmod, hmin, -, hfits⟩ := roundSize_spec hw
  simp only [blockAllocate, Option.bind_eq_bind, Option.bind_eq_some_iff, Prod.exists,
    Option.pure_def, Option.some.injEq, Prod.mk.injEq] at hs
  obtain ⟨c, h₁, hchoose, rfl, rfl⟩ := hs
  obtain ⟨L₁, tiles₁, hi₁, hsub₁, hc₁, hfit₁, -, -⟩ :=
    chooseBlock_inv hi hr hfits hmin hchoose
  obtain ⟨L₂, tiles₂, hi₂, hsub₂, hfit₂, -, -⟩ := splitBlock_inv hi₁ hc₁ hmod hmin hfit₁
  obtain ⟨hsize, hsame⟩ := splitBlock_size hi₁ hc₁ hfit₁
  have hc₂ := hsub₂ c (hi₁.mem_tiles .free c hc₁)
  obtain ⟨L₃, n, p, hi₃, -, -, hf⟩ := moveTo_inv hi₂ hc₂ .busy
  have hk := Fields.kept hi₂ hf hc₂
  have hend := hi₂.block_end hc₂
  have hlt := hi₂.current_lt
  have hq : add64 c HEADER = c + HEADER := add64_of_lt (by omega)
  rw [hq]
  -- clearing the payload leaves the header and what is behind
  have hsize' : size ((moveToBusyList c { h₁ with mem := splitBlock c (roundSize sz) h₁.mem }).mem.zero
      (c + HEADER) (roundSize sz)) c = size (splitBlock c (roundSize sz) h₁.mem) c := by
    rw [← hk.size_eq]
    exact Mem.zero_out _ (.inl (by simp only [HEADER]; omega))
  refine ⟨c, h₁, hchoose, rfl, hsize'.trans hsize, fun y h1 h2 => ?_⟩
  rw [hsize'] at h2
  have hbig : ¬roundSize sz + 64 < size h₁.mem c := by
    intro hbig
    rw [hsize, if_pos hbig] at h2
    omega
  refine (Mem.zero_out _ (.inr h1)).trans ((hk.payload y (by omega) h2).trans ?_)
  rw [hsame hbig]

end GaOS.L3.BlockAllocator
