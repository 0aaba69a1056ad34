import GaOS.L1Memory.PageAllocator

/-!
# Bitmaps and the two scans

`bit` reads a bitmap as a predicate on page indices; the word-level functions
of the code are stated once in terms of it, and after this module no proof
looks at words. The scan lemmas say which index a scan returns, and
`pageAllocate_eq` that the single-page fast path is the general scan for one
page, so that everything later is about `serveRange` only.
-/
namespace GaOS.L1.PageAllocator

/-- Page `i` is marked as allocated. -/
def bit (bitmap : Nat → Nat) (i : Nat) : Bool := (bitmap (i / 64)).testBit (i % 64)

theorem bitmapGet_ne_zero (bitmap : Nat → Nat) (i : Nat) :
    bitmapGet bitmap i ≠ 0 ↔ bit bitmap i = true :=
  and_bit_ne_zero _ _

theorem bitmapGet_eq_zero (bitmap : Nat → Nat) (i : Nat) :
    bitmapGet bitmap i = 0 ↔ bit bitmap i = false := by
  rw [← Bool.not_eq_true, ← bitmapGet_ne_zero, not_not]

theorem bit_bitmapSet (bitmap : Nat → Nat) (i j : Nat) :
    bit (bitmapSet bitmap i) j = (bit bitmap j || decide (i = j)) := by
  unfold bit bitmapSet
  by_cases h : j / 64 = i / 64
  · rw [h, Function.update_self, testBit_or_bit]
    congr 1
    exact decide_eq_decide.mpr (by omega)
  · rw [Function.update_of_ne h, decide_eq_false (by rintro rfl; exact h rfl), Bool.or_false]

theorem bit_bitmapUnset (bitmap : Nat → Nat) (i j : Nat) :
    bit (bitmapUnset bitmap i) j = (bit bitmap j && !decide (i = j)) := by
  unfold bit bitmapUnset
  by_cases h : j / 64 = i / 64
  · rw [h, Function.update_self,
      testBit_and_not_bit (Nat.mod_lt _ (by decide)) (Nat.mod_lt _ (by decide))]
    congr 2
    exact decide_eq_decide.mpr (by omega)
  · rw [Function.update_of_ne h, decide_eq_false (by rintro rfl; exact h rfl), Bool.not_false,
      Bool.and_true]

/-! ## Ranges -/

theorem rangeClear_iff (bitmap : Nat → Nat) (index : Nat) : ∀ left offset,
    rangeClear bitmap index offset left = true ↔
      ∀ j, offset ≤ j → j < offset + left → bit bitmap (add64 j index) = false
  | 0, offset => by
    simp only [rangeClear, true_iff]
    intro j h1 h2; omega
  | left + 1, offset => by
    simp only [rangeClear]
    split
    · rename_i h
      simp only [Bool.false_eq_true, false_iff]
      intro hall
      rw [bitmapGet_ne_zero, hall offset (by omega) (by omega)] at h
      cases h
    · rename_i h
      rw [not_not, bitmapGet_eq_zero] at h
      rw [rangeClear_iff bitmap index left (offset + 1)]
      constructor
      · intro hall j h1 h2
        rcases Nat.eq_or_lt_of_le h1 with rfl | h1
        · exact h
        · exact hall j h1 (by omega)
      · intro hall j h1 h2
        exact hall j (by omega) (by omega)

theorem bit_setRange (index i : Nat) : ∀ left offset (bitmap : Nat → Nat),
    bit (setRange bitmap index offset left) i = true ↔
      bit bitmap i = true ∨ ∃ j, offset ≤ j ∧ j < offset + left ∧ add64 j index = i
  | 0, offset, bitmap => by
    simp only [setRange]
    constructor
    · exact Or.inl
    · rintro (h | ⟨j, h1, h2, -⟩)
      · exact h
      · omega
  | left + 1, offset, bitmap => by
    rw [setRange, bit_setRange index i left (offset + 1), bit_bitmapSet, Bool.or_eq_true,
      decide_eq_true_eq]
    constructor
    · rintro ((h | h) | ⟨j, h1, h2, h3⟩)
      · exact Or.inl h
      · exact Or.inr ⟨offset, by omega, by omega, h⟩
      · exact Or.inr ⟨j, by omega, by omega, h3⟩
    · rintro (h | ⟨j, h1, h2, h3⟩)
      · exact Or.inl (Or.inl h)
      · rcases Nat.eq_or_lt_of_le h1 with rfl | h1
        · exact Or.inl (Or.inr h3)
        · exact Or.inr ⟨j, h1, by omega, h3⟩

theorem bit_unsetRange (index i : Nat) : ∀ left offset (bitmap : Nat → Nat),
    bit (unsetRange bitmap index offset left) i = true ↔
      bit bitmap i = true ∧ ∀ j, offset ≤ j → j < offset + left → add64 index j ≠ i
  | 0, offset, bitmap => by
    simp only [unsetRange]
    exact ⟨fun h => ⟨h, fun j h1 h2 => by omega⟩, fun h => h.1⟩
  | left + 1, offset, bitmap => by
    have hsplit : ∀ P : Nat → Prop, (∀ j, offset ≤ j → j < offset + (left + 1) → P j) ↔
        P offset ∧ ∀ j, offset + 1 ≤ j → j < offset + 1 + left → P j := by
      intro P
      constructor
      · intro h; exact ⟨h _ (by omega) (by omega), fun j h1 h2 => h j (by omega) (by omega)⟩
      · rintro ⟨h0, h⟩ j h1 h2
        rcases Nat.eq_or_lt_of_le h1 with rfl | h1
        · exact h0
        · exact h j h1 (by omega)
    rw [hsplit, unsetRange]
    split
    · rename_i h
      rw [bit_unsetRange index i left (offset + 1)]
      rw [bitmapGet_eq_zero] at h
      constructor
      · rintro ⟨h1, h2⟩
        exact ⟨h1, fun he => (by rw [he, h1] at h; cases h), h2⟩
      · rintro ⟨h1, -, h2⟩; exact ⟨h1, h2⟩
    · rw [bit_unsetRange index i left (offset + 1), bit_bitmapUnset, Bool.and_eq_true,
        Bool.not_eq_true', decide_eq_false_iff_not]
      exact and_assoc

/-- Without wrap-around the range functions work on `[index, index + pages)`. -/
theorem bit_setRange_of_lt {bitmap : Nat → Nat} {index pages : Nat}
    (h : index + pages < 2 ^ 64) (i : Nat) :
    bit (setRange bitmap index 0 pages) i = true ↔
      bit bitmap i = true ∨ (index ≤ i ∧ i < index + pages) := by
  rw [bit_setRange]
  constructor
  · rintro (h1 | ⟨j, -, h2, h3⟩)
    · exact Or.inl h1
    · rw [add64_of_lt (by omega)] at h3; omega
  · rintro (h1 | ⟨h1, h2⟩)
    · exact Or.inl h1
    · exact Or.inr ⟨i - index, by omega, by omega, by rw [add64_of_lt (by omega)]; omega⟩

theorem bit_unsetRange_of_lt {bitmap : Nat → Nat} {index pages : Nat}
    (h : index + pages < 2 ^ 64) (i : Nat) :
    bit (unsetRange bitmap index 0 pages) i = true ↔
      bit bitmap i = true ∧ ¬(index ≤ i ∧ i < index + pages) := by
  rw [bit_unsetRange]
  constructor
  · rintro ⟨h1, h2⟩
    refine ⟨h1, fun h3 => ?_⟩
    have := h2 (i - index) (by omega) (by omega)
    rw [add64_of_lt (by omega)] at this; omega
  · rintro ⟨h1, h2⟩
    refine ⟨h1, fun j _ h4 => ?_⟩
    rw [add64_of_lt (by omega)]; omega

theorem rangeClear_of_lt {bitmap : Nat → Nat} {index pages : Nat}
    (h : index + pages < 2 ^ 64) :
    rangeClear bitmap index 0 pages = true ↔
      ∀ i, index ≤ i → i < index + pages → bit bitmap i = false := by
  rw [rangeClear_iff]
  constructor
  · intro h1 i h2 h3
    have := h1 (i - index) (by omega) (by omega)
    rwa [add64_of_lt (by omega), show i - index + index = i by omega] at this
  · intro h1 j _ h3
    rw [add64_of_lt (by omega)]
    exact h1 _ (by omega) (by omega)

/-! ## The scan -/

/-- Index `i` passes the three tests of the general scan. -/
def Fits (bitmap : Nat → Nat) (entries pages i : Nat) : Prop :=
  bit bitmap i = false ∧ add64 i pages ≤ entries ∧ rangeClear bitmap i 0 pages = true

theorem scanRange_some {bitmap : Nat → Nat} {entries pages k : Nat} : ∀ {left index},
    scanRange bitmap entries pages left index = some k →
      index ≤ k ∧ k < index + left ∧ Fits bitmap entries pages k ∧
        ∀ j, index ≤ j → j < k → ¬Fits bitmap entries pages j
  | 0, index, h => by cases h
  | left + 1, index, h => by
    simp only [scanRange] at h
    have next : ¬Fits bitmap entries pages index →
        scanRange bitmap entries pages left (index + 1) = some k →
        index ≤ k ∧ k < index + (left + 1) ∧ Fits bitmap entries pages k ∧
          ∀ j, index ≤ j → j < k → ¬Fits bitmap entries pages j := by
      intro hn hr
      obtain ⟨h1, h2, h3, h4⟩ := scanRange_some hr
      refine ⟨by omega, by omega, h3, fun j hj1 hj2 => ?_⟩
      rcases Nat.eq_or_lt_of_le hj1 with rfl | hj1
      · exact hn
      · exact h4 j hj1 hj2
    split at h
    · rename_i hb
      rw [bitmapGet_ne_zero] at hb
      exact next (fun hf => by rw [hf.1] at hb; cases hb) h
    · rename_i hb
      rw [not_not, bitmapGet_eq_zero] at hb
      split at h
      · exact next (fun hf => by have := hf.2.1; omega) h
      · split at h
        · rename_i hle hc
          cases h
          exact ⟨by omega, by omega, ⟨hb, by omega, hc⟩, fun j h1 h2 => by omega⟩
        · rename_i hc
          exact next (fun hf => hc hf.2.2) h

theorem scanRange_isSome {bitmap : Nat → Nat} {entries pages k : Nat} : ∀ {left index},
    index ≤ k → k < index + left → Fits bitmap entries pages k →
      (scanRange bitmap entries pages left index).isSome
  | 0, index, h1, h2, _ => by omega
  | left + 1, index, h1, h2, hf => by
    simp only [scanRange]
    have next : k ≠ index → (scanRange bitmap entries pages left (index + 1)).isSome :=
      fun hne => scanRange_isSome (by omega) (by omega) hf
    split
    · rename_i hb
      refine next fun he => ?_
      rw [bitmapGet_ne_zero, ← he, hf.1] at hb
      cases hb
    · split
      · rename_i hlt
        refine next fun he => ?_
        have := hf.2.1
        rw [he] at this; omega
      · split
        · rfl
        · rename_i hc
          exact next fun he => hc (he ▸ hf.2.2)

/-! ## The fast path is the general path for one page -/

theorem scanSingle_eq {bitmap : Nat → Nat} {entries : Nat} (he : entries < 2 ^ 64) :
    ∀ {left index}, index + left ≤ entries →
      scanSingle bitmap left index = scanRange bitmap entries 1 left index
  | 0, _, _ => rfl
  | left + 1, index, h => by
    simp only [scanSingle, scanRange]
    have ih : scanSingle bitmap left (index + 1) = scanRange bitmap entries 1 left (index + 1) :=
      scanSingle_eq he (by omega)
    split
    · exact ih
    · rename_i hb
      have hadd : add64 index 1 = index + 1 := add64_of_lt (by omega)
      have hclear : rangeClear bitmap index 0 1 = true := by
        rw [rangeClear_of_lt (by omega)]
        intro i h1 h2
        rw [not_not, bitmapGet_eq_zero] at hb
        rwa [show i = index by omega]
      rw [if_neg (by omega), if_pos hclear]

theorem serveSingle_eq {p : Pool} (he : p.bitmapEntries < 2 ^ 64) :
    serveSingle p = serveRange 1 p := by
  unfold serveSingle serveRange
  simp only [show mul64 1 PAGE = PAGE from rfl]
  by_cases ha : p.available < PAGE
  · rw [if_pos ha, if_pos ha]
  · rw [if_neg ha, if_neg ha]
    by_cases hl : p.lastAllocatedPageIndex ≤ p.bitmapEntries
    · rw [scanSingle_eq he (by omega)]
      cases h : scanRange p.bitmap p.bitmapEntries 1
          (p.bitmapEntries - p.lastAllocatedPageIndex) p.lastAllocatedPageIndex with
      | none => rfl
      | some k =>
        obtain ⟨-, hk, -, -⟩ := scanRange_some h
        have : add64 0 k = k := by rw [add64_of_lt (by omega)]; omega
        simp only [Option.map_some, setRange, this]
    · rw [show p.bitmapEntries - p.lastAllocatedPageIndex = 0 by omega]
      rfl

theorem firstServing_congr {f g : Pool → Option (Nat × Pool)} : ∀ {pools : List Pool},
    (∀ p ∈ pools, f p = g p) → firstServing f pools = firstServing g pools
  | [], _ => rfl
  | p :: ps, h => by
    rw [firstServing, firstServing, h p List.mem_cons_self,
      firstServing_congr fun q hq => h q (List.mem_cons_of_mem _ hq)]

/-- `page_allocate(n)` is the general scan for `max n 1` pages. -/
theorem pageAllocate_eq {s : State} (h : ∀ p ∈ s.pools, p.bitmapEntries < 2 ^ 64) (n : Nat) :
    pageAllocate s n = pageAllocateRange s (max n 1) := by
  have single : pageAllocateSingleFast s = pageAllocateRange s 1 := by
    unfold pageAllocateSingleFast pageAllocateRange
    rw [firstServing_congr fun p hp => serveSingle_eq (h p hp), Nat.one_mul]
  unfold pageAllocate
  by_cases h0 : n = 0
  · subst h0; exact single
  · rw [if_neg h0, show max n 1 = n by omega]
    simp only
    split
    · rename_i h1; rw [h1]; exact single
    · rfl

end GaOS.L1.PageAllocator
