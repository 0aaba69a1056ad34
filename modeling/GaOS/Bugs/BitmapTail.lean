import GaOS.L1Memory.PageBounds

/-!
# The bitmap of some regions is one page too short

`page_allocator_create_pools_limine` computes the bytes of the bitmap as
`length / PAGE / 8`, rounding down, and then rounds up to a page
(kernel/src/memory/physical/page_allocator.c:50-52). When the page count of the
region is a multiple of 32768 plus at most seven, the first division drops
those pages and the second finds nothing to round, so the last pages have no
bits in the reserved area. The pages that the bitmap itself takes are not handed
out, which hides the defect in regions of more than seven times 128 MiB; a
region of 128 MiB and two to seven pages is the smallest that shows it.

Counterexample: 32770 pages. One page is reserved, 32769 can be handed out, and
the word that holds the bit of page 32768 is the first word of the first page
the pool hands out. `bitmap_words_inside_iff` gives the exact condition.

Fix: `(length / PAGE + 7) / 8`.
-/
namespace GaOS.Bugs.BitmapTail

open GaOS.L1.PageAllocator

/-- The 64-bit word that `bitmap_get`, `bitmap_set` and `bitmap_unset` access
for page `i` lies inside `[bitmap_base, allocate_base)`. -/
def WordInside (p : Pool) (i : Nat) : Prop :=
  p.bitmapBase ≤ bitmapPointer p.bitmapBase i ∧
    bitmapPointer p.bitmapBase i + 8 ≤ p.allocateBase

/-- The reserved bytes, by the remainder of the page count. -/
theorem requiredBitmapBytes_cases (length : Nat) :
    requiredBitmapBytes length =
      if length / PAGE % 32768 < 8 then length / PAGE / 32768 * PAGE
      else (length / PAGE / 32768 + 1) * PAGE := by
  unfold requiredBitmapBytes
  simp only [PAGE]
  split <;> split <;> omega

section
variable {hhdm : Nat} {e : MemmapEntry} (h : RegionOk hhdm e) (hl : 128 * 1024 < e.length)

include h hl

/-- Without the addresses: the word of page `i` ends inside the reserved bytes. -/
theorem wordInside_iff {i : Nat} (hi : i < (createPool hhdm e).total / PAGE) :
    WordInside (createPool hhdm e) i ↔ 8 * (i / 64) + 8 ≤ requiredBitmapBytes e.length := by
  obtain ⟨h1, h2, h3⟩ := createPool_fields h hl
  obtain ⟨-, -, r3⟩ := requiredBitmapBytes_spec hl
  have hw := h.window
  rw [h3] at hi
  have hp : bitmapPointer (e.base + hhdm) i = e.base + hhdm + 8 * (i / 64) := by
    apply add64_of_lt
    simp only [PAGE] at hi; omega
  unfold WordInside
  rw [h1, h2, hp]
  omega

/-- **When the bitmap is large enough.** Every page that the pool may hand out
has its word inside the reserved area exactly when the page count of the region
leaves a remainder modulo 32768 of at least 8, or of at most the number of pages
the bitmap takes. -/
theorem bitmap_words_inside_iff :
    (∀ i, i < (createPool hhdm e).total / PAGE → WordInside (createPool hhdm e) i) ↔
      8 ≤ e.length / PAGE % 32768 ∨ e.length / PAGE % 32768 ≤ e.length / PAGE / 32768 := by
  have ht := (createPool_fields h hl).2.2
  have hc := requiredBitmapBytes_cases e.length
  constructor
  · intro hall
    by_contra hcon
    rw [not_or, Nat.not_le, Nat.not_le] at hcon
    rw [if_pos hcon.1] at hc
    -- the first page past the bits that the area holds
    have hi : e.length / PAGE / 32768 * 32768 < (createPool hhdm e).total / PAGE := by
      rw [ht, hc, Nat.mul_comm _ PAGE, Nat.sub_mul_div]
      clear hc ht hl
      generalize e.length / PAGE = pages at hcon ⊢
      omega
    have := (wordInside_iff h hl hi).mp (hall _ hi)
    rw [hc] at this
    simp only [PAGE] at this; omega
  · intro hcond i hi
    rw [wordInside_iff h hl hi]
    rw [ht] at hi
    split at hc
    · rw [hc] at hi ⊢; simp only [PAGE] at *; omega
    · rw [hc] at hi ⊢; simp only [PAGE] at *; omega

end

theorem bitmap_words_inside_iff_small :
    (∀ i, i < (createPool 0xFFFF800000000000 ⟨0x100000, 33 * PAGE, .usable⟩).total / PAGE →
      WordInside (createPool 0xFFFF800000000000 ⟨0x100000, 33 * PAGE, .usable⟩) i) ↔
      8 ≤ 33 * PAGE / PAGE % 32768 ∨ 33 * PAGE / PAGE % 32768 ≤ 33 * PAGE / PAGE / 32768 :=
  bitmap_words_inside_iff (e := ⟨0x100000, 33 * PAGE, .usable⟩)
    (smallMap_ok _ (by simp [smallMap]) rfl) (by decide)

/-- A region of 32770 pages at 1 MiB. -/
def tailRegion : MemmapEntry := ⟨0x100000, 32770 * PAGE, .usable⟩

/-- **Counterexample**: page 32768 of `tailRegion` may be handed out, and its
bit lies in the first page that the pool hands out. -/
theorem bitmap_word_outside :
    RegionOk 0xFFFF800000000000 tailRegion ∧ Pooled tailRegion ∧
      32768 < (createPool 0xFFFF800000000000 tailRegion).total / PAGE ∧
      bitmapPointer (createPool 0xFFFF800000000000 tailRegion).bitmapBase 32768 =
        (createPool 0xFFFF800000000000 tailRegion).allocateBase ∧
      ¬WordInside (createPool 0xFFFF800000000000 tailRegion) 32768 := by
  refine ⟨⟨by decide, by decide, by decide, by decide⟩, by decide, by decide, by decide, ?_⟩
  unfold WordInside
  decide

end GaOS.Bugs.BitmapTail
