import GaOS.L5Process.ElfImage

/-!
# A program can be loaded into the kernel's half

`elf_load_from` (kernel/src/executables/elf.c:45-100) maps pages at addresses that it
takes from the file, in a table that shares the layers of its upper half with the
bootstrap table. Nothing compares these addresses with the kernel's half. A page
there goes into the kernel's own layers, with the user flag in all entries on the
way. The stack is placed a page below the smallest segment, which without any
segment is the last but one page of the address space, and with a segment at zero
the last one.

`kernel_half_kept_iff_safe` is the exact condition: no page of a segment and no stack
page is under an entry of the upper half that the kernel uses.

Counterexample: an executable without program headers.

Fix: refuse segments that are not in the lower half, and a base below `PAGE`.
-/
namespace GaOS.Bugs.ElfKernelHalf

open GaOS.L1 GaOS.L1.PageAllocator GaOS.L2.TableManager GaOS.L4.RoundRobin GaOS.L4.Ustar
open GaOS.L5.Elf
open GaOS.L5.Fork (copyHigherHalf)

variable {σ : Type} {P : PageSource σ} {node : Node}

/-- The entries of the bootstrap table for the upper half, and what its addresses
translate to. -/
structure KernelHalfKept (P : PageSource σ) (boot : Nat) (m m' : Machine σ) : Prop where
  root : ∀ i, 0x100 ≤ i → i < 512 → m'.mem (entryAddress boot i) = m.mem (entryAddress boot i)
  layers : ∀ i p a j, 0x100 ≤ i → Valid 512 (i :: p) → walk P.hhdm m.mem boot (i :: p) = some a →
    j < 512 → m'.mem (entryAddress a j) = m.mem (entryAddress a j)
  translation : ∀ v, 0x100 ≤ pml3Index v →
    translateToPhysical P m' boot v = translateToPhysical P m boot v

/-- The addresses that the loader maps: the pages of the segments and the stack.
`stack` is what was on the kernel's stack in place of the headers. -/
def mappedAddresses (node : Node) (stack : Buffer × Buffer) : Option (List Nat) := do
  let buffer ← readBuffer node 0 64 stack.1
  let (program, hs₁) ← headers node buffer.ehdr.phoff buffer.ehdr.phnum stack.2
  let (_, hs₂) ← headers node buffer.ehdr.phoff buffer.ehdr.phnum program
  return ((loadable hs₂).flatMap pagesOf).map (fun (h, i) => add64 h.vaddr i) ++
    [sub64 (lowest (loadable hs₁)) PAGE]

/-- None of them is under an entry of the upper half that the kernel uses. -/
def AddressesSafe (node : Node) (stack : Buffer × Buffer) (boot : Nat) (mem : Mem) : Prop :=
  ∀ vs, mappedAddresses node stack = some vs → ∀ v ∈ vs, SafePage boot mem v

variable {own boot : Nat} {path : String} {stack : Buffer × Buffer} {simd : SimdState}
  {mem mem' : Mem} {s s' : Scheduler σ} {task : Nat}

theorem KernelHalfKept.of_untouched {m m' : Machine σ} (ht : Tree P 512 m boot)
    (h : Untouched P 512 boot m m') : KernelHalfKept P boot m m' := by
  refine ⟨fun i _ hi => (h [] boot .nil rfl).1 i hi fun _ => hi, fun i p a j _ hp hw hj =>
    (h _ a hp hw).1 j hj nofun, fun v _ => ?_⟩
  rw [translateToPhysical_eq (h.tree ht) (pml3Index_lt v), translateToPhysical_eq ht (pml3Index_lt v),
    h.leafEntry (pml3Index_lt v)]

/-- The run of the loader. -/
theorem load_run
    (h : elfLoadFrom P own boot path node stack simd mem s = some (some task, mem', s')) :
    ∃ table m₁ ls src, archTableManagerNew P ⟨mem, s.src⟩ = some (table, m₁) ∧
      mappedAddresses node stack = some (ls.map Placed.address) ∧
      (loadLTS P boot table).Run (copyHigherHalf table boot 0x100 m₁) ls ⟨mem', src⟩ := by
  obtain ⟨buffer, table, stackBase, src, hread, -, hload, -⟩ := elfLoadFrom_some h
  obtain ⟨m₁, b₁, b₂, hs₁, hs₂, hnew, hh₁, hh₂, hbase, -, hr⟩ := loadImage_run hload
  refine ⟨table, m₁, _, src, hnew, ?_, hr⟩
  rw [List.map_append, List.map_map, mappedAddresses, hread]
  simp only [Option.bind_eq_bind, Option.bind_some, hh₁, hh₂, hbase]
  rfl

theorem kept_of_safe (ht : Tree P 512 ⟨mem, s.src⟩ boot)
    (h : elfLoadFrom P own boot path node stack simd mem s = some (some task, mem', s'))
    (hsafe : AddressesSafe node stack boot mem) :
    KernelHalfKept P boot ⟨mem, s.src⟩ ⟨mem', s'.src⟩ := by
  obtain ⟨table, m₁, ls, src, hnew, hvs, hr⟩ := load_run h
  have hunt := new_untouched ht hnew
  have hrun := safe_run (new_shares ht hnew) hr fun l hl hi => by
    rw [(hunt [] boot .nil rfl).1 _ (pml3Index_lt _) fun _ => pml3Index_lt _]
    exact hsafe _ hvs _ (List.mem_map_of_mem hl) hi
  have hkept := KernelHalfKept.of_untouched ht (hunt.trans hrun)
  exact ⟨hkept.root, hkept.layers, hkept.translation⟩

theorem safe_of_kept (ht : Tree P 512 ⟨mem, s.src⟩ boot) (hc : Clear P 512 boot 2 ⟨mem, s.src⟩)
    (h : elfLoadFrom P own boot path node stack simd mem s = some (some task, mem', s'))
    (hkept : KernelHalfKept P boot ⟨mem, s.src⟩ ⟨mem', s'.src⟩) :
    AddressesSafe node stack boot mem := by
  obtain ⟨table, m₁, ls, src, hnew, hvs, hr⟩ := load_run h
  intro vs hvs' v hv hi hp
  rw [hvs] at hvs'
  cases hvs'
  obtain ⟨l, hl, rfl⟩ := List.mem_map.mp hv
  obtain ⟨hv1, hv2, -⟩ := valid_prefixes (pml3Index_lt l.address)
  rw [List.nil_append] at hv1
  -- the layer under the entry is in both tables
  obtain ⟨c, hw⟩ : ∃ c, walk P.hhdm mem boot [pml3Index l.address] = some c := by
    rw [walk, nextLayer, if_pos hp]
    exact ⟨_, rfl⟩
  have hshared : walk P.hhdm (copyHigherHalf table boot 0x100 m₁).mem table
      [pml3Index l.address] = some c := by
    rw [new_walk ht hnew hv1, if_neg (Nat.not_lt.mpr hi), (new_untouched ht hnew).walk hv1]
    exact hw
  have huser := user_run (new_shares ht hnew).tree hshared hr hl
  have hsame : mem' (entryAddress c (pml2Index l.address)) =
      mem (entryAddress c (pml2Index l.address)) :=
    hkept.layers _ [] c _ hi hv1 hw (pml2Index_lt _)
  have hclear := hc [pml3Index l.address] (pml2Index l.address) c hv2 hw
  simp only [hsame, hclear] at huser
  cases huser

/-- **When the kernel's half is kept.** For every file that is accepted, with every
table that the kernel can have and whatever was on its stack: loading the file
leaves the upper half of the bootstrap table as it was exactly if the addresses are
safe. -/
theorem kernel_half_kept_iff_safe (hb : (kernelLTS P).Reachable ⟨boot, ⟨mem, s.src⟩⟩)
    (h : elfLoadFrom P own boot path node stack simd mem s = some (some task, mem', s')) :
    KernelHalfKept P boot ⟨mem, s.src⟩ ⟨mem', s'.src⟩ ↔ AddressesSafe node stack boot mem := by
  obtain ⟨ht, hc⟩ := (kernel_inductive P).reachable hb
  exact ⟨safe_of_kept ht hc h, kept_of_safe ht h⟩

/-! ## Two executables -/

/-- One page at 0x400000. -/
theorem kernel_half_kept_small : ∃ kernel : Table Nat, (kernelLTS bootSource).Reachable kernel ∧
    ∃ task mem' s', elfLoadFrom bootSource 0 kernel.root "/init.elf"
        (elfNode 0x2000 0x400000 [⟨PT_LOAD, 0x1000, 0x400000, 16, 16⟩])
        (fun _ => 0, fun _ => 0) (fun _ => 0) kernel.machine.mem
        { smallScheduler with src := kernel.machine.src } = some (some task, mem', s') ∧
      KernelHalfKept bootSource kernel.root kernel.machine ⟨mem', s'.src⟩ := by
  have hload : (smallLoad (elfNode 0x2000 0x400000 [⟨PT_LOAD, 0x1000, 0x400000, 16, 16⟩])).map
      (·.1.isSome) = some true := by decide +kernel
  have hvs : mappedAddresses (elfNode 0x2000 0x400000 [⟨PT_LOAD, 0x1000, 0x400000, 16, 16⟩])
      (fun _ => 0, fun _ => 0) = some [0x400000, 0x3FF000] := by decide +kernel
  obtain ⟨kernel, hsmall, task, mem', s', h⟩ := smallLoad_some hload
  have hk := smallKernel_reachable hsmall
  refine ⟨kernel, hk, task, mem', s', h,
    (kernel_half_kept_iff_safe hk h).mpr fun vs hvs' v hv hi => ?_⟩
  rw [hvs] at hvs'
  cases hvs'
  have hlow : ∀ v ∈ [0x400000, 0x3FF000], pml3Index v < 0x100 := by decide
  exact absurd (hlow v hv) (Nat.not_lt.mpr hi)

/-- **A stack in the kernel's half.** -/
theorem stack_in_kernel_half : ∃ kernel : Table Nat, (kernelLTS bootSource).Reachable kernel ∧
    ∃ task mem' s', elfLoadFrom bootSource 0 kernel.root "/init.elf" (elfNode 64 0x400000 [])
        (fun _ => 0, fun _ => 0) (fun _ => 0) kernel.machine.mem
        { smallScheduler with src := kernel.machine.src } = some (some task, mem', s') ∧
      ¬KernelHalfKept bootSource kernel.root kernel.machine ⟨mem', s'.src⟩ := by
  have hload : (smallLoad (elfNode 64 0x400000 [])).map (·.1.isSome) = some true := by
    decide +kernel
  have hvs : mappedAddresses (elfNode 64 0x400000 []) (fun _ => 0, fun _ => 0) =
      some [0xFFFFFFFFFFFFEFFF] := by decide +kernel
  have hpresent : smallKernel.map (fun kernel =>
      decide (Present (kernel.machine.mem (entryAddress kernel.root 0x1FF)))) = some true := by
    decide +kernel
  obtain ⟨kernel, hsmall, task, mem', s', h⟩ := smallLoad_some hload
  have hk := smallKernel_reachable hsmall
  obtain ⟨ht, hc⟩ := (kernel_inductive bootSource).reachable hk
  refine ⟨kernel, hk, task, mem', s', h, fun hkept => ?_⟩
  refine safe_of_kept ht hc h hkept _ hvs _ (List.mem_singleton_self _) (by decide) ?_
  rw [hsmall, Option.map_some, Option.some.injEq, decide_eq_true_eq] at hpresent
  exact hpresent

end GaOS.Bugs.ElfKernelHalf
