import GaOS.L5Process.ElfImage

/-!
# The loader reads past the data of a segment

`elf_load_from` (kernel/src/executables/elf.c:81-94) takes the absolute value of the
bytes that are left of a segment's data, so for the page behind the last one with
data it reads that many bytes past the data: the bss of the program starts with what
follows in the file instead of zeros. Its loop goes up to `i <= memsize`, so for a
segment of whole pages it places one page more, which replaces the first page of a
segment that starts there and was loaded before.

`image_right_iff_clean` is the exact condition: for each page, look at the page that
was placed last (`Covers`) and at how far the read for it gets (`Reached`). Sizes go
through `int` too, so of a segment of more than 2 GiB some data may be missing.

Counterexample: one segment with a byte of data and two pages of memory.

Fix: read only while `i < p_filesz`, and loop while `i < memsize`.
-/
namespace GaOS.Bugs.ElfImage

open GaOS.L1 GaOS.L1.PageAllocator GaOS.L2.TableManager GaOS.L4.RoundRobin GaOS.L4.Ustar GaOS.L5.Elf

variable {σ : Type} {P : PageSource σ} {node : Node}

/-- Every byte of every segment is the one that the program headers describe. -/
def ImageRight (P : PageSource σ) (mem : Mem) (root : Nat) (node : Node) : Prop :=
  ∀ s ∈ segments node, ∀ j, j < s.memsz → Holds P mem root (s.vaddr + j) (wanted node s j)

/-- The read for the page at offset `i` brings the data and, behind the data, zeros. -/
def OwnClean (node : Node) (s : Phdr) (i k : Nat) : Prop :=
  if i + k < s.filesz then Reached node s i k ∨ node.file.image (s.offset + i + k) = 0
  else Reached node s i k → node.file.image (s.offset + i + k) = 0

/-- The read for the page past the end of `t` brings what should be in the page at
offset `i` of `s`. -/
def CoverClean (node : Node) (s : Phdr) (i k : Nat) (t : Phdr) : Prop :=
  if Reached node t t.memsz k then
    node.file.image (t.offset + t.memsz + k) = wanted node s (i + k)
  else wanted node s (i + k) = 0

def Clean (node : Node) : Prop :=
  ∀ pre s post, segments node = pre ++ s :: post →
    ∀ i k, i % PAGE = 0 → k < PAGE → i + k < s.memsz →
      match post.reverse.find? (Covers s i) with
      | some t => CoverClean node s i k t
      | none => OwnClean node s i k

theorem pageByte_eq_wanted_iff {s : Phdr} {i k : Nat} {post : List Phdr} :
    pageByte node (lastPage s i post).1 (lastPage s i post).2 k = wanted node s (i + k) ↔
      match post.reverse.find? (Covers s i) with
      | some t => CoverClean node s i k t
      | none => OwnClean node s i k := by
  unfold lastPage pageByte
  cases post.reverse.find? (Covers s i) with
  | some t =>
    simp only [CoverClean]
    split
    · rfl
    · exact eq_comm
  | none =>
    simp only [OwnClean, wanted, ← Nat.add_assoc]
    by_cases hr : Reached node s i k <;> by_cases hd : i + k < s.filesz <;> simp [hr, hd, eq_comm]

theorem Holds.unique {mem : Mem} {root v b b' : Nat} (h : Holds P mem root v b)
    (h' : Holds P mem root v b') : b = b' := h.2.symm.trans h'.2

variable {own boot : Nat} {path : String} {stack : Buffer × Buffer} {simd : SimdState}
  {mem mem' : Mem} {s s' : Scheduler σ} {task : Nat}

/-- **When the image is right.** For every complete executable that is loaded, with
any table of the kernel and whatever was on the stack: the new task's address space
has what the program headers describe exactly if the reads for its pages are
clean. -/
theorem image_right_iff_clean (hb : (tableLTS P).Reachable ⟨boot, ⟨mem, s.src⟩⟩)
    (he : Executable node) (hcap : 64 ≤ node.file.size % 2 ^ 32)
    (h : elfLoadFrom P own boot path node stack simd mem s = some (some task, mem', s')) :
    ImageRight P mem' (add64 (s'.tasks task).registers.cpu.cr3 P.hhdm) node ↔ Clean node := by
  have ht := (table_inductive P).reachable hb
  constructor
  · intro hright pre seg post hsegs i k hi hk hlt
    have hmem : seg ∈ segments node := by
      rw [hsegs]; exact List.mem_append_right _ List.mem_cons_self
    have hbyte := image_byte ht he hcap h hsegs hi hk hlt
    exact pageByte_eq_wanted_iff.mp (Holds.unique hbyte (hright seg hmem (i + k) hlt))
  · intro hclean seg hmem j hj
    obtain ⟨pre, post, hsegs⟩ := List.append_of_mem hmem
    have hsplit : j / PAGE * PAGE + j % PAGE = j := Nat.div_add_mod' j PAGE
    have hk : j % PAGE < PAGE := Nat.mod_lt _ (by decide)
    have hi : j / PAGE * PAGE % PAGE = 0 := Nat.mul_mod_left _ _
    have hbyte := image_byte ht he hcap h hsegs hi hk (by omega)
    rw [pageByte_eq_wanted_iff.mpr (hclean pre seg post hsegs _ _ hi hk (by omega)), hsplit] at hbyte
    exact hbyte

/-! ## Two executables -/

/-- One segment of `filesz` bytes at 0x400000, and `memsz` bytes in memory. -/
def smallNode (size filesz memsz : Nat) : Node :=
  elfNode size 0x400000 [⟨PT_LOAD, 0x1000, 0x400000, filesz, memsz⟩]

theorem smallNode_executable {size filesz memsz : Nat} (h1 : 0x1000 ≤ size) (h2 : size < 0x10000)
    (h3 : filesz ≤ memsz) (h4 : memsz < 0x10000) (h5 : 0x1000 + filesz ≤ size)
    (hsegs : segments (smallNode size filesz memsz) = [⟨PT_LOAD, 0x1000, 0x400000, filesz, memsz⟩])
    (hehdr : (fileEhdr (smallNode size filesz memsz)).phoff = 64 ∧
      (fileEhdr (smallNode size filesz memsz)).phnum = 1) :
    Executable (smallNode size filesz memsz) := by
  have hsize : (smallNode size filesz memsz).file.size = size := rfl
  refine ⟨by omega, rfl, by omega, by omega, ?_, ?_, ?_, ?_, ?_⟩
  · rw [hsegs, List.forall_mem_singleton]
    exact (rfl : 0x400000 % PAGE = 0)
  · rw [hsegs, List.forall_mem_singleton]
    simp only
    omega
  · rw [hsegs, List.forall_mem_singleton]
    exact h3
  · rw [hsegs, List.forall_mem_singleton]
    exact h5
  · rw [hsegs]
    exact List.pairwise_singleton _ _

/-- The file ends with its data, so the bss is clean. -/
theorem image_right_small : ∃ kernel : Table Nat, (tableLTS bootSource).Reachable kernel ∧
    ∃ task mem' s', elfLoadFrom bootSource 0 kernel.root "/init.elf" (smallNode 0x1001 1 0x2000)
        (fun _ => 0, fun _ => 0) (fun _ => 0) kernel.machine.mem
        { smallScheduler with src := kernel.machine.src } = some (some task, mem', s') ∧
      ImageRight bootSource mem' (add64 (s'.tasks task).registers.cpu.cr3 bootSource.hhdm)
        (smallNode 0x1001 1 0x2000) := by
  have hsegs : segments (smallNode 0x1001 1 0x2000) =
      [⟨PT_LOAD, 0x1000, 0x400000, 1, 0x2000⟩] := by decide +kernel
  have he : Executable (smallNode 0x1001 1 0x2000) :=
    smallNode_executable (by decide) (by decide) (by decide) (by decide) (by decide) hsegs
      (by decide +kernel)
  have hload : (smallLoad (smallNode 0x1001 1 0x2000)).map (·.1.isSome) = some true := by
    decide +kernel
  obtain ⟨kernel, hsmall, task, mem', s', h⟩ := smallLoad_some hload
  have hk := smallKernel_reachable hsmall
  refine ⟨kernel, tableLTS_of_kernel hk, task, mem', s', h, ?_⟩
  refine (image_right_iff_clean (tableLTS_of_kernel hk) he (by decide) h).mpr
    fun pre seg post hpost i k hi hk hlt => ?_
  rw [hsegs] at hpost
  obtain ⟨rfl, hpost⟩ : pre = [] ∧
      [(⟨PT_LOAD, 0x1000, 0x400000, 1, 0x2000⟩ : Phdr)] = seg :: post := by
    cases pre with
    | nil => exact ⟨rfl, hpost⟩
    | cons _ pre => simp at hpost
  cases hpost
  have hreach : Reached (smallNode 0x1001 1 0x2000) ⟨PT_LOAD, 0x1000, 0x400000, 1, 0x2000⟩ i k ↔
      i + k < 1 := by
    have hone : (toInt32 ((1 : Nat) - (0 : Nat))).natAbs = 1 := by decide
    constructor
    · intro ⟨_, h1, _, h2⟩
      obtain rfl : i = 0 := Nat.le_zero.mp (Nat.le_of_lt_succ (Nat.lt_of_add_lt_add_left h1))
      rw [Nat.zero_add]
      exact hone ▸ h2
    · intro h0
      obtain ⟨rfl, rfl⟩ : i = 0 ∧ k = 0 := by omega
      decide +kernel
  simp only [List.reverse_nil, List.find?_nil, OwnClean, hreach]
  split
  · rename_i h0
    exact .inl h0
  · rename_i h0
    exact fun h1 => absurd h1 h0

/-! ## Counterexample -/

/-- **Bytes of the file in the bss.** -/
theorem bss_not_zero : ∃ kernel : Table Nat, (tableLTS bootSource).Reachable kernel ∧
    Executable (smallNode 0x3000 1 0x2000) ∧
    ∃ task mem' s', elfLoadFrom bootSource 0 kernel.root "/init.elf" (smallNode 0x3000 1 0x2000)
        (fun _ => 0, fun _ => 0) (fun _ => 0) kernel.machine.mem
        { smallScheduler with src := kernel.machine.src } = some (some task, mem', s') ∧
      ¬ImageRight bootSource mem' (add64 (s'.tasks task).registers.cpu.cr3 bootSource.hhdm)
        (smallNode 0x3000 1 0x2000) := by
  have hsegs : segments (smallNode 0x3000 1 0x2000) =
      [⟨PT_LOAD, 0x1000, 0x400000, 1, 0x2000⟩] := by decide +kernel
  have he : Executable (smallNode 0x3000 1 0x2000) :=
    smallNode_executable (by decide) (by decide) (by decide) (by decide) (by decide) hsegs
      (by decide +kernel)
  have hload : (smallLoad (smallNode 0x3000 1 0x2000)).map (·.1.isSome) = some true := by
    decide +kernel
  obtain ⟨kernel, hsmall, task, mem', s', h⟩ := smallLoad_some hload
  have hk := smallKernel_reachable hsmall
  refine ⟨kernel, tableLTS_of_kernel hk, he, task, mem', s', h, fun hright => ?_⟩
  have ht := ((kernel_inductive bootSource).reachable hk).1
  have hsplit : segments (smallNode 0x3000 1 0x2000) =
      [] ++ ⟨PT_LOAD, 0x1000, 0x400000, 1, 0x2000⟩ :: [] := hsegs
  have hbyte := image_byte ht he (by decide) h hsplit (i := 0x1000) (k := 0) rfl (by decide)
    (by decide)
  have hzero := hright _ (by rw [hsegs]; exact List.mem_singleton_self _) 0x1000 (by decide)
  have hne := Holds.unique hbyte hzero
  revert hne
  decide +kernel

end GaOS.Bugs.ElfImage
