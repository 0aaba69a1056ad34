import GaOS.L2Paging.Bootstrap

/-!
# The direct map misses the ends of entries

`arch_table_manager_create_bootstrap_table_limine`
(kernel/src/arch/x86_64/page_table_manager/table_manager.c:161-187) rounds the base of an
entry of the memory map down to a page, but maps `length / PAGE` pages from there. An entry
that does not start and end at a page has up to two pages at its end that are left out, and
an entry shorter than a page is left out altogether. The comment in
kernel/src/memory/physical/block_allocator.c:140 says that "it's guaranteed that the whole
memory map is mapped".

`direct_map_whole_iff` is the exact condition: every such page is one that the loop maps for
some other entry.

Counterexample: the extended BIOS data area, 0x400 bytes at 0x9FC00.

Fix: round the end up, `count = (base + length + PAGE - 1) / PAGE - base / PAGE`.
-/
namespace GaOS.Bugs.DirectMap

open GaOS.L1 GaOS.L1.PageAllocator GaOS.L2.TableManager GaOS.L2.Bootstrap

variable {σ : Type} {P : PageSource σ} {info : BootInfo} {root : Nat} {m m' : Machine σ}

/-- Every address above the first page in an entry, but for the kernel's image, is reached
through the direct map. -/
def WholeMapped (P : PageSource σ) (info : BootInfo) (root : Nat) (m : Machine σ) : Prop :=
  ∀ e ∈ info.memmap, e.type ≠ .executableAndModules → ∀ a, PAGE ≤ a → e.base ≤ a →
    a < e.base + e.length → translateToPhysical P m root (add64 P.hhdm a) = a / PAGE * PAGE

/-- Page `n` has bytes of the entry, but is behind the pages that are mapped for it. -/
def LeftOut (e : MemmapEntry) (n : Nat) : Prop :=
  0 < e.length ∧ e.base / PAGE + e.length / PAGE ≤ n ∧ n * PAGE < e.base + e.length

instance (e : MemmapEntry) (n : Nat) : Decidable (LeftOut e n) :=
  inferInstanceAs (Decidable (_ ∧ _))

/-- Only the last one or two pages of an entry are left out. -/
theorem leftOut_last {e : MemmapEntry} {n : Nat} (h : LeftOut e n) :
    n ≤ e.base / PAGE + e.length / PAGE + 1 ∧ (e.base % PAGE ≠ 0 ∨ e.length % PAGE ≠ 0) := by
  unfold LeftOut at h
  simp only [PAGE] at *
  omega

/-- **The whole map is mapped iff other entries cover what is left out.** For every memory
map: after the bootstrap table is made, every address above the first page in an entry that
is not the image translates to its page through the direct map, iff every page (but the
first) that is left out for such an entry is mapped for another one. -/
theorem direct_map_whole_iff (hb : Bootable P info)
    (h : createBootstrapTable P info m = some (root, m')) :
    WholeMapped P info root m' ↔
      ∀ e ∈ info.memmap, e.type ≠ .executableAndModules → ∀ n, 1 ≤ n → LeftOut e n →
        ∃ e' ∈ info.memmap, Maps e' n := by
  constructor
  · intro hw e he hne n hn hout
    have hd := hb.direct e he hne
    obtain ⟨hlen, hlo, hhi⟩ := hout
    -- the first byte of the entry in the page
    have ha : max e.base (n * PAGE) / PAGE = n := by
      simp only [PAGE] at *
      omega
    have hpage : PAGE ≤ max e.base (n * PAGE) := by
      simp only [PAGE]
      omega
    have hbyte : max e.base (n * PAGE) < e.base + e.length := by
      simp only [PAGE] at *
      omega
    have htrans := hw e he hne _ hpage (Nat.le_max_left ..) hbyte
    rw [bootstrap_direct hb h hpage (by omega), ha] at htrans
    exact htrans
  · intro hcover e he hne a hp hlo hhi
    have hd := hb.direct e he hne
    rw [bootstrap_direct hb h hp (by omega)]
    by_cases hin : a / PAGE < e.base / PAGE + e.length / PAGE
    · exact ⟨e, he, hne, Nat.div_le_div_right hlo, hin⟩
    · refine hcover e he hne (a / PAGE) (Nat.div_pos hp (by decide)) ⟨by omega, by omega, ?_⟩
      exact Nat.lt_of_le_of_lt (Nat.div_mul_le_self a PAGE) hhi

/-! ## Inputs -/

/-- Usable memory and an image behind it. -/
def cleanBoot : BootInfo :=
  ⟨[⟨0x1000, 0x3000, .usable⟩, ⟨0x200000, 0x1000, .executableAndModules⟩], 0x200000,
    0xFFFFFFFF80000000⟩

/-- The same, with the extended BIOS data area. -/
def biosBoot : BootInfo :=
  ⟨[⟨0x1000, 0x3000, .usable⟩, ⟨0x9FC00, 0x400, .other⟩,
    ⟨0x200000, 0x1000, .executableAndModules⟩], 0x200000, 0xFFFFFFFF80000000⟩

theorem cleanBoot_bootable : Bootable smallSource cleanBoot where
  upper := by decide
  direct := by decide
  image := by decide
  aligned := by decide
  above := by decide
  room := by decide

theorem biosBoot_bootable : Bootable smallSource biosBoot where
  upper := by decide
  direct := by decide
  image := by decide
  aligned := by decide
  above := by decide
  room := by decide

theorem clean_whole : ∃ root m',
    createBootstrapTable smallSource cleanBoot ⟨fun _ => 0xAA, 0⟩ = some (root, m') ∧
      WholeMapped smallSource cleanBoot root m' := by
  obtain ⟨⟨root, m'⟩, h⟩ := Option.isSome_iff_exists.mp (show
    (createBootstrapTable smallSource cleanBoot ⟨fun _ => 0xAA, 0⟩).isSome by decide +kernel)
  refine ⟨root, m', h, (direct_map_whole_iff cleanBoot_bootable h).mpr fun e he hne n _ hout => ?_⟩
  simp only [cleanBoot, List.mem_cons, List.not_mem_nil, or_false] at he
  rcases he with rfl | rfl
  · have hends := (leftOut_last hout).2
    simp [PAGE] at hends
  · exact absurd rfl hne

/-- **Counterexample**: 0x9FC00 is in an entry of the memory map and is not mapped. -/
theorem bios_area_missing : ∃ root m',
    createBootstrapTable smallSource biosBoot ⟨fun _ => 0xAA, 0⟩ = some (root, m') ∧
      Bootable smallSource biosBoot ∧
      translateToPhysical smallSource m' root (add64 smallSource.hhdm 0x9FC00) = 0 ∧
      ¬WholeMapped smallSource biosBoot root m' := by
  have hrun : (createBootstrapTable smallSource biosBoot ⟨fun _ => 0xAA, 0⟩).map
      (fun (root, m') => translateToPhysical smallSource m' root (add64 smallSource.hhdm 0x9FC00)) =
      some 0 := by decide +kernel
  rw [Option.map_eq_some_iff] at hrun
  obtain ⟨⟨root, m'⟩, h, htrans⟩ := hrun
  simp only at htrans
  refine ⟨root, m', h, biosBoot_bootable, htrans, fun hw => ?_⟩
  have hbyte := hw ⟨0x9FC00, 0x400, .other⟩ (by simp [biosBoot]) (by decide) 0x9FC00 (by decide)
    (by decide) (by decide)
  rw [hbyte] at htrans
  simp [PAGE] at htrans

end GaOS.Bugs.DirectMap
