import GaOS.L2Paging.TableManager

/-!
# Entry bits and virtual page numbers

The bit manipulation of the page-table manager in terms of arithmetic. An entry
is an address field (bits 12 to 51) and flags; `getAddress_or`,
`getAddress_setAddress` and `present_or` are all that later proofs know about
the masks. `vpn v` is the 36-bit page number of `v`; the four indices are its
base-512 digits (`pml3Index_eq` to `pIndex_eq`).
-/
namespace GaOS.L2.TableManager

open GaOS.L1 GaOS.L1.PageAllocator

/-! ## The address field -/

theorem getAddress_eq (e : Nat) : getAddress e = e / 4096 % 2 ^ 40 * 4096 := by
  have hmask : not64 FLAGS_MASK = (2 ^ 40 - 1) <<< 12 := by decide
  rw [getAddress, hmask, ← Nat.and_two_pow_sub_one_eq_mod, show (4096 : Nat) = 2 ^ 12 by rfl,
    ← Nat.shiftRight_eq_div_pow, ← Nat.shiftLeft_eq]
  refine Nat.eq_of_testBit_eq fun i => ?_
  simp only [Nat.testBit_and, Nat.testBit_shiftLeft, Nat.testBit_shiftRight]
  by_cases h : 12 ≤ i
  · simp only [ge_iff_le, h, decide_true, Bool.true_and, show 12 + (i - 12) = i by omega]
  · simp [h]

theorem getAddress_aligned (e : Nat) : getAddress e % PAGE = 0 := by
  rw [getAddress_eq]; simp only [PAGE]; omega

theorem getAddress_of_page {a : Nat} (h : a % PAGE = 0) (hlt : a < 2 ^ 52) :
    getAddress a = a := by
  rw [getAddress_eq]; simp only [PAGE] at h; omega

theorem getAddress_or (e f : Nat) : getAddress (e ||| f) = getAddress e ||| getAddress f := by
  unfold getAddress; exact Nat.and_or_distrib_right _ _ _

theorem getAddress_of_lt {f : Nat} (h : f < 4096) : getAddress f = 0 := by
  rw [getAddress_eq]; omega

/-- Flag bits do not touch the address. -/
theorem getAddress_or_flags (e : Nat) {f : Nat} (h : f < 4096) :
    getAddress (e ||| f) = getAddress e := by
  rw [getAddress_or, getAddress_of_lt h, Nat.or_zero]

theorem getAddress_setAddress (e : Nat) {a : Nat} (h : a % PAGE = 0) (hlt : a < 2 ^ 52) :
    getAddress (setAddress e a) = a := by
  rw [setAddress, getAddress_or, getAddress_of_page h hlt]
  have : getAddress (e &&& FLAGS_MASK) = 0 := by
    unfold getAddress
    rw [Nat.and_assoc, show FLAGS_MASK &&& not64 FLAGS_MASK = 0 by decide, Nat.and_zero]
  rw [this, Nat.zero_or]

/-- An address has no flag bits. -/
theorem and_flags_of_page {a : Nat} (h : a % PAGE = 0) (hlt : a < 2 ^ 52) :
    a &&& FLAGS_MASK = 0 := by
  rw [← getAddress_of_page h hlt, getAddress, Nat.and_assoc,
    show not64 FLAGS_MASK &&& FLAGS_MASK = 0 by decide, Nat.and_zero]

/-! ## The present bit -/

theorem present_iff (e : Nat) : Present e ↔ e.testBit 0 = true := and_bit_ne_zero e 0

theorem present_or (e f : Nat) : Present (e ||| f) ↔ Present e ∨ Present f := by
  simp only [present_iff, Nat.testBit_or, Bool.or_eq_true]

theorem present_self : Present TABLE_ENTRY_PRESENT := by decide

theorem present_setAddress {e : Nat} (a : Nat) (h : Present e) : Present (setAddress e a) := by
  rw [setAddress, present_or]
  left
  rw [present_iff] at h ⊢
  rw [Nat.testBit_and, h, show FLAGS_MASK.testBit 0 = true by decide, Bool.and_true]

/-- An entry that was just mapped is present. -/
theorem present_mapped (e f a : Nat) : Present (setAddress (e ||| (f ||| TABLE_ENTRY_PRESENT)) a) :=
  present_setAddress a ((present_or _ _).mpr (.inr ((present_or _ _).mpr (.inr present_self))))

theorem or_present {e : Nat} (h : Present e) : e ||| TABLE_ENTRY_PRESENT = e := by
  rw [present_iff] at h
  refine Nat.eq_of_testBit_eq fun i => ?_
  rw [TABLE_ENTRY_PRESENT, testBit_or_bit]
  by_cases hi : 0 = i
  · subst hi; simp [h]
  · simp [hi]

theorem not_present_zero : ¬Present 0 := by decide

theorem flags_lt (flags : Nat) : flags &&& 0xFF < 256 :=
  Nat.lt_of_le_of_lt Nat.and_le_right (by decide)

/-! ## Page numbers -/

/-- Bits 12 to 47 of a virtual address. -/
def vpn (v : Nat) : Nat := v / 4096 % 2 ^ 36

theorem and_shift_eq (v k : Nat) : (v &&& (0x1FF <<< k)) >>> k = v / 2 ^ k % 512 := by
  rw [show (512 : Nat) = 2 ^ 9 by rfl, ← Nat.and_two_pow_sub_one_eq_mod,
    ← Nat.shiftRight_eq_div_pow]
  refine Nat.eq_of_testBit_eq fun i => ?_
  simp only [Nat.testBit_shiftRight, Nat.testBit_and, Nat.testBit_shiftLeft]
  rw [decide_eq_true (show k + i ≥ k by omega), show k + i - k = i by omega, Bool.true_and]

theorem pml3Index_eq (v : Nat) : pml3Index v = vpn v / 2 ^ 27 := by
  unfold pml3Index vpn; rw [and_shift_eq]; omega

theorem pml2Index_eq (v : Nat) : pml2Index v = vpn v / 2 ^ 18 % 512 := by
  unfold pml2Index vpn; rw [and_shift_eq]; omega

theorem pml1Index_eq (v : Nat) : pml1Index v = vpn v / 2 ^ 9 % 512 := by
  unfold pml1Index vpn; rw [and_shift_eq]; omega

theorem pIndex_eq (v : Nat) : pIndex v = vpn v % 512 := by
  unfold pIndex vpn; rw [and_shift_eq]; omega

/-- The offset in the page does not matter. -/
theorem vpn_and_not (v : Nat) : vpn (v &&& not64 0xFFF) = vpn v := by
  have hmask : not64 0xFFF = (2 ^ 52 - 1) <<< 12 := by decide
  unfold vpn
  rw [hmask, show (4096 : Nat) = 2 ^ 12 by rfl]
  refine Nat.eq_of_testBit_eq fun i => ?_
  simp only [Nat.testBit_mod_two_pow, Nat.testBit_div_two_pow, Nat.testBit_and,
    Nat.testBit_shiftLeft, Nat.testBit_two_pow_sub_one]
  by_cases h : i < 36
  · simp [h, show i < 52 by omega]
  · simp [h]

theorem vpn_lt (v : Nat) : vpn v < 2 ^ 36 := Nat.mod_lt _ (by decide)

/-! ## Entry addresses -/

/-- A layer address that the manager works with: page-aligned and not at the
very top of the address space. -/
structure Aligned (a : Nat) : Prop where
  page : a % PAGE = 0
  below : a + PAGE ≤ 2 ^ 64

theorem entryAddress_eq {a i : Nat} (h : Aligned a) (hi : i < 512) :
    entryAddress a i = a + 8 * i := by
  have := h.below
  apply add64_of_lt
  simp only [PAGE] at this; omega

theorem entryAddress_mem {a i : Nat} (h : Aligned a) (hi : i < 512) :
    a ≤ entryAddress a i ∧ entryAddress a i < a + PAGE := by
  rw [entryAddress_eq h hi]; simp only [PAGE]; omega

/-- Different entries of the same or of different layers are different words. -/
theorem entryAddress_inj {a b i j : Nat} (ha : Aligned a) (hb : Aligned b) (hi : i < 512)
    (hj : j < 512) (h : entryAddress a i = entryAddress b j) : a = b ∧ i = j := by
  rw [entryAddress_eq ha hi, entryAddress_eq hb hj] at h
  have h1 := ha.page; have h2 := hb.page
  simp only [PAGE] at h1 h2
  omega

end GaOS.L2.TableManager
