import GaOS.L4Files.Console

/-!
# Text below the end of the address space

`framebuffer_write_character` (kernel/src/devices/framebuffer/framebuffer.c:75-109) starts a
new line by adding the font's height to the cursor's row, and looks whether the row is too
low only when it has a glyph to draw. Newlines alone move the row on without a limit, and
the test `main_cursor.y + font->height >= main_framebuffer.height` is made modulo 2^64: with
the row less than a glyph below 2^64 the sum is small again, and the glyph is drawn at rows
far outside of the screen.

`text_inside_iff` is the exact condition: no glyph that is drawn at such a row has a set bit
before the row wraps. `fits_of_few_newlines` says that it takes about 2^64 divided by the
font's height newlines to get there.

`framebuffer_init` ends with a line of the log, so text starts below it (`init_cursor`); the
line itself stays on the screen (`init_inside`).

Counterexample: a font of 2^31 rows on a screen of 2^32 rows, 2^33 - 2 newlines and an A.

Fix: look at the row at the end of every line, `main_cursor.y >= height - font->height`.
-/
namespace GaOS.Bugs.ConsoleRow

open GaOS.L4.FbDevice GaOS.L4.Console

/-! ## What should hold -/

/-- The lines have room for their pixels, and a glyph is smaller than the screen. -/
structure Sizes (fb : Screen) (font : Font) : Prop where
  pitch : 4 * fb.width ≤ fb.pitch
  width_pos : 0 < font.width
  width_lt : font.width < fb.width
  height_pos : 0 < font.height
  height_lt : font.height < fb.height

/-- The pixel is on the screen, and so are its four bytes. -/
structure PixelInside (fb : Screen) (x y : Nat) : Prop where
  column : x < fb.width
  row : y < fb.height
  bytes : ∀ i, i < 4 → fb.base ≤ add64 (pixelAddress fb x y) i ∧
    add64 (pixelAddress fb x y) i < fb.base + fb.pitch * fb.height

def TextInside (fb : Screen) (draws : List Draw) : Prop :=
  ∀ x y colour, .pixel x y colour ∈ draws → PixelInside fb x y

/-! ## The condition -/

/-- The row is more than a glyph below 2^64, or the glyph has no bit before the row wraps. -/
def RowFits (font : Font) (c : Int) (row : Nat) : Prop :=
  row + font.height < 2 ^ 64 ∨ ∀ xx yy, xx < font.width → yy < font.height →
    glyphBit font c xx yy = true → 2 ^ 64 ≤ row + yy

/-- One character. -/
def CharacterFits (fb : Screen) (font : Font) (c : Int) (cursor : Cursor) : Prop :=
  c ≠ NEWLINE → RowFits font c (endLine fb font c cursor).y

/-- All characters up to the null. -/
def StringFits (fb : Screen) (font : Font) : List Int → Cursor → Prop
  | [], _ => True
  | c :: s, cursor => c = 0 ∨ CharacterFits fb font c cursor ∧
      StringFits fb font s (writeCharacter fb font c cursor).2

variable {fb : Screen} {font : Font} {c : Int} {cursor : Cursor} {x y : Nat}

theorem Sizes.height_le (hs : Sizes fb font) : fb.height ≤ 2 ^ 63 ∧ fb.width ≤ 2 ^ 61 := by
  have hbytes : fb.pitch * fb.height ≤ 2 ^ 63 := fb.bytes_le
  have hh := Nat.le_mul_of_pos_left fb.height fb.pitch_pos
  have hp := Nat.le_mul_of_pos_right fb.pitch fb.height_pos
  have := hs.pitch
  omega

/-- The bytes of a pixel on the screen are in the framebuffer. -/
theorem pixelInside_of_lt (hs : Sizes fb font) (hx : x < fb.width) (hy : y < fb.height) :
    PixelInside fb x y := by
  have hfits := fb.fits
  have hlow := fb.higher_half
  have hpitch := hs.pitch
  have hline : y * fb.pitch + fb.pitch ≤ fb.pitch * fb.height := by
    rw [← Nat.succ_mul, Nat.mul_comm fb.pitch]
    exact Nat.mul_le_mul_right _ hy
  have hmul : mul64 y fb.pitch = y * fb.pitch := mul64_of_lt (by omega)
  have hmul' : mul64 4 x = 4 * x := mul64_of_lt (by omega)
  have haddress : pixelAddress fb x y = fb.base + y * fb.pitch + 4 * x := by
    have hstart : add64 fb.base (y * fb.pitch) = fb.base + y * fb.pitch := add64_of_lt (by omega)
    rw [pixelAddress, hmul, hmul', hstart]
    exact add64_of_lt (by omega)
  refine ⟨hx, hy, fun i hi => ?_⟩
  rw [haddress, add64_of_lt (by omega)]
  omega

/-- A glyph in a column that leaves room for it: the rows decide. -/
theorem plot_inside_iff (hs : Sizes fb font) {colour : Nat} (hx : x + font.width < fb.width) :
    TextInside fb (plotCharacter font c x y colour) ↔
      ∀ xx yy, xx < font.width → yy < font.height → glyphBit font c xx yy = true →
        add64 y yy < fb.height := by
  have hwidth := hs.height_le.2
  constructor
  · intro h xx yy hxx hyy hbit
    exact (h _ _ colour (mem_plotCharacter.mpr ⟨xx, yy, hxx, hyy, hbit, rfl⟩)).row
  · intro h px py pc hmem
    obtain ⟨xx, yy, hxx, hyy, hbit, hd⟩ := mem_plotCharacter.mp hmem
    cases hd
    have hcolumn : add64 x xx = x + xx := add64_of_lt (by omega)
    exact pixelInside_of_lt hs (by rw [hcolumn]; omega) (h xx yy hxx hyy hbit)

theorem textInside_append {a b : List Draw} :
    TextInside fb (a ++ b) ↔ TextInside fb a ∧ TextInside fb b := by
  simp only [TextInside, List.mem_append, or_imp, forall_and]

/-! ## One character -/

/-- What holds of the cursor between characters. -/
structure CursorInv (fb : Screen) (cursor : Cursor) : Prop where
  column : cursor.x < fb.width
  row : cursor.y < 2 ^ 64

/-- After the end of a line there is room for a glyph. -/
theorem CursorInv.endLine (hs : Sizes fb font) (h : CursorInv fb cursor) :
    (endLine fb font c cursor).x + font.width < fb.width ∧
      (endLine fb font c cursor).y < 2 ^ 64 := by
  have hwidth := hs.height_le.2
  have hfont := font.width_lt
  have hlt := hs.width_lt
  have hcolumn := h.column
  unfold GaOS.L4.Console.endLine
  split
  · exact ⟨by simp only; omega, add64_lt _ _⟩
  · rename_i hroom
    rw [not_or, Nat.not_le, add64_of_lt (by omega)] at hroom
    exact ⟨hroom.1, h.row⟩

theorem CursorInv.endScreen (hs : Sizes fb font) (hx : cursor.x + font.width < fb.width)
    (hy : cursor.y < 2 ^ 64) : (endScreen fb font cursor).2.x + font.width < fb.width ∧
      (endScreen fb font cursor).2.y < 2 ^ 64 := by
  have hlt := hs.width_lt
  unfold GaOS.L4.Console.endScreen
  split
  · exact ⟨by simp only; omega, by simp⟩
  · exact ⟨hx, hy⟩

/-- At the bottom of the screen the glyph goes to the top. Otherwise the row and a glyph
are above the bottom modulo 2^64. -/
theorem glyph_inside_iff (hs : Sizes fb font) (hx : cursor.x + font.width < fb.width)
    (hy : cursor.y < 2 ^ 64) :
    TextInside fb (plotCharacter font c (endScreen fb font cursor).2.x
      (endScreen fb font cursor).2.y (endScreen fb font cursor).2.colour) ↔
        RowFits font c cursor.y := by
  have hheight := hs.height_le.1
  have hfont := font.height_lt
  have hlt := hs.height_lt
  obtain ⟨hx', -⟩ := CursorInv.endScreen hs hx hy
  rw [plot_inside_iff hs hx']
  unfold GaOS.L4.Console.endScreen RowFits
  split
  · rename_i hlow
    refine iff_of_true (fun xx yy _ hyy _ => ?_) ?_
    · rw [add64_of_lt (by simp only; omega)]
      simp only
      omega
    · by_contra hno
      rw [not_or] at hno
      unfold add64 at hlow
      omega
  · rename_i hlow
    rw [Nat.not_le] at hlow
    by_cases hsum : cursor.y + font.height < 2 ^ 64
    · rw [add64_of_lt hsum] at hlow
      refine iff_of_true (fun xx yy _ hyy _ => ?_) (.inl hsum)
      rw [add64_of_lt (by simp only; omega)]
      simp only
      omega
    · -- rows from `cursor.y` up to 2^64 are outside, those after it inside
      constructor
      · intro h
        refine .inr fun xx yy hxx hyy hbit => ?_
        have hrow := h xx yy hxx hyy hbit
        simp only [add64] at hrow
        omega
      · intro h xx yy hxx hyy hbit
        have hrow := (h.resolve_left hsum) xx yy hxx hyy hbit
        simp only [add64]
        omega

theorem character_inside_iff (hs : Sizes fb font) (h : CursorInv fb cursor) :
    TextInside fb (writeCharacter fb font c cursor).1 ↔ CharacterFits fb font c cursor := by
  obtain ⟨hx, hy⟩ := h.endLine (c := c) hs
  unfold writeCharacter CharacterFits
  by_cases hc : c = NEWLINE
  · simp only [hc, if_true, ne_eq, not_true_eq_false, false_implies, iff_true]
    exact fun _ _ _ hmem => absurd hmem List.not_mem_nil
  · simp only [hc, if_false, ne_eq, not_false_eq_true, true_implies]
    rw [textInside_append, glyph_inside_iff hs hx hy]
    refine and_iff_right fun px py pc hmem => ?_
    -- clearing the screen plots nothing
    unfold GaOS.L4.Console.endScreen at hmem
    split at hmem <;> simp at hmem

theorem CursorInv.writeCharacter (hs : Sizes fb font) (h : CursorInv fb cursor) :
    CursorInv fb (writeCharacter fb font c cursor).2 := by
  have hwidth := hs.height_le.2
  obtain ⟨hx, hy⟩ := h.endLine (c := c) hs
  obtain ⟨hx', hy'⟩ := CursorInv.endScreen hs hx hy
  unfold GaOS.L4.Console.writeCharacter
  split
  · exact ⟨by simp only; omega, hy⟩
  · refine ⟨?_, hy'⟩
    simp only
    rw [add64_of_lt (by omega)]
    exact hx'

/-! ## Strings -/

theorem string_inside_iff (hs : Sizes fb font) {s : List Int} (h : CursorInv fb cursor) :
    TextInside fb (writeString fb font s cursor).1 ↔ StringFits fb font s cursor := by
  induction s generalizing cursor with
  | nil => exact iff_of_true (fun _ _ _ hmem => absurd hmem List.not_mem_nil) trivial
  | cons c s ih =>
    rw [writeString, StringFits]
    by_cases hc : c = 0
    · rw [if_pos hc]
      exact iff_of_true (fun _ _ _ hmem => absurd hmem List.not_mem_nil) (.inl hc)
    · rw [if_neg hc]
      simp only [hc, false_or]
      rw [textInside_append, character_inside_iff hs h, ih (h.writeCharacter hs)]

theorem CursorInv.writeString (hs : Sizes fb font) {s : List Int} (h : CursorInv fb cursor) :
    CursorInv fb (writeString fb font s cursor).2 := by
  induction s generalizing cursor with
  | nil => exact h
  | cons c s ih =>
    rw [GaOS.L4.Console.writeString]
    split
    · exact h
    · exact ih (h.writeCharacter hs)

/-- What holds of the cursor at the end of `framebuffer_init`. -/
theorem init_cursor (hs : Sizes fb font) {draws : List Draw}
    (hinit : framebufferInit fb font = some (draws, cursor)) : CursorInv fb cursor := by
  have hwidth : 0 < fb.width := Nat.zero_lt_of_lt hs.width_lt
  obtain ⟨-, -, a, b, before, behind, ha, hb, -, rfl⟩ := framebufferInit_some.mp hinit
  exact ⟨hwidth, add64_lt _ _⟩

/-- **When text stays on the screen.** For every framebuffer and font of the given sizes,
every string and the cursor that `framebuffer_init` leaves. -/
theorem text_inside_iff (hs : Sizes fb font) {draws : List Draw}
    (hinit : framebufferInit fb font = some (draws, cursor)) (s : List Int) :
    TextInside fb (writeString fb font s cursor).1 ↔ StringFits fb font s cursor :=
  string_inside_iff hs (init_cursor hs hinit)

/-- After a glyph the row is one of the screen. -/
theorem row_of_glyph (hc : c ≠ NEWLINE)
    (hfits : (endLine fb font c cursor).y + font.height < 2 ^ 64) :
    (writeCharacter fb font c cursor).2.y ≤ fb.height := by
  have hscreen : (endScreen fb font (endLine fb font c cursor)).2.y ≤ fb.height := by
    unfold endScreen
    split
    · exact Nat.zero_le _
    · rename_i hroom
      rw [add64_of_lt hfits] at hroom
      simp only
      omega
  rw [GaOS.L4.Console.writeCharacter, if_neg hc]
  exact hscreen

theorem endLine_row_le : (endLine fb font c cursor).y ≤ cursor.y + font.height := by
  unfold endLine
  split
  · exact Nat.mod_le _ _
  · exact Nat.le_add_right _ _

/-- Only newlines move the row without a limit. -/
theorem fits_of_few_newlines {s : List Int}
    (hrow : cursor.y + (s.count NEWLINE + 2) * font.height < 2 ^ 64)
    (hlow : fb.height + (s.count NEWLINE + 2) * font.height < 2 ^ 64) :
    StringFits fb font s cursor := by
  induction s generalizing cursor with
  | nil => trivial
  | cons c s ih =>
    right
    by_cases hc : c = NEWLINE
    · subst hc
      rw [List.count_cons_self] at hrow hlow
      have hmul : (s.count NEWLINE + 1 + 2) * font.height =
          (s.count NEWLINE + 2) * font.height + font.height := by
        rw [Nat.add_right_comm, Nat.succ_mul]
      refine ⟨fun hne => absurd rfl hne, ih ?_ (by omega)⟩
      rw [writeCharacter_newline]
      have hy := Nat.mod_le (cursor.y + font.height) (2 ^ 64)
      simp only [add64]
      omega
    · rw [List.count_cons_of_ne hc] at hrow hlow
      have hmul : (s.count NEWLINE + 2) * font.height =
          s.count NEWLINE * font.height + 2 * font.height := Nat.add_mul ..
      have hnext : (endLine fb font c cursor).y ≤ cursor.y + font.height := endLine_row_le
      have hfits : (endLine fb font c cursor).y + font.height < 2 ^ 64 := by omega
      refine ⟨fun _ => .inl hfits, ih ?_ hlow⟩
      have hscreen := row_of_glyph hc hfits
      omega

/-! ## The line of the log -/

/-- Text without newlines that starts on the screen stays there. -/
theorem line_inside (hs : Sizes fb font) {s : List Int} (hn : NEWLINE ∉ s)
    (h : CursorInv fb cursor) (hrow : cursor.y ≤ fb.height) :
    TextInside fb (writeString fb font s cursor).1 ∧
      (writeString fb font s cursor).2.y ≤ fb.height := by
  have hheight := hs.height_le.1
  have hfont := font.height_lt
  constructor
  · refine (string_inside_iff hs h).mpr (fits_of_few_newlines ?_ ?_) <;>
      rw [List.count_eq_zero_of_not_mem hn] <;> omega
  · induction s generalizing cursor with
    | nil => exact hrow
    | cons c s ih =>
      rw [writeString]
      split
      · exact hrow
      · have hnext : (endLine fb font c cursor).y ≤ cursor.y + font.height := endLine_row_le
        have hc : c ≠ NEWLINE := fun hc => hn (hc ▸ List.mem_cons_self ..)
        exact ih (fun hm => hn (List.mem_cons_of_mem _ hm)) (h.writeCharacter hs)
          (row_of_glyph hc (by omega))

/-- What `framebuffer_init` draws stays on the screen. -/
theorem init_inside (hs : Sizes fb font) {draws : List Draw}
    (hinit : framebufferInit fb font = some (draws, cursor)) : TextInside fb draws := by
  have hwidth : 0 < fb.width := Nat.zero_lt_of_lt hs.width_lt
  obtain ⟨-, -, a, b, before, behind, ha, hb, rfl, -⟩ := framebufferInit_some.mp hinit
  have htop : CursorInv fb ⟨0, 0, PREFIX_COLOUR⟩ := ⟨hwidth, by simp⟩
  have hmark := line_inside hs (s := LOG_LINE) (by decide) htop (Nat.zero_le _)
  have hcursor := htop.writeString hs (s := LOG_LINE)
  rw [ha] at hmark hcursor
  have hnext : CursorInv fb { before with colour := INFO_COLOUR } := ⟨hcursor.column, hcursor.row⟩
  have hline := line_inside hs (s := INITIALISED.map toChar) (by decide) hnext hmark.2
  rw [hb] at hline
  exact textInside_append.mpr ⟨hmark.1, hline.1⟩

/-! ## A tall font -/

/-- Letters of 2^31 lines, with all bits set. -/
def tallFont : Font where
  magic := PSF2_MAGIC
  glyphSize := 2 ^ 31
  height := 2 ^ 31
  width := 8
  glyphs _ := 0xFF
  height_lt := by decide
  width_lt := by decide

def tallScreen : Screen where
  base := 0xFFFF800000000000
  pitch := 64
  height := 2 ^ 32
  width := 16
  bpp := 32
  pitch_pos := by decide
  height_pos := by decide
  higher_half := by decide
  fits := by decide

theorem tall_sizes : Sizes tallScreen tallFont := by
  constructor <;> simp [tallScreen, tallFont]

theorem tall_character {x colour : Nat} (hc : c ≠ NEWLINE) (hx : x = 0 ∨ x = 8) :
    (writeCharacter tallScreen tallFont c ⟨x, 0, colour⟩).2 = ⟨8, 0, colour⟩ := by
  have hscreen : (endScreen tallScreen tallFont (endLine tallScreen tallFont c ⟨x, 0, colour⟩)).2 =
      ⟨0, 0, colour⟩ := by
    rcases hx with rfl | rfl <;>
      simp [endLine, endScreen, hc, tallScreen, tallFont, add64]
  rw [writeCharacter_cursor hc, hscreen]
  simp [tallFont, add64]

/-- There is room for one letter, and each goes to the top. -/
theorem tall_string {s : List Int} {x colour : Nat} (hs : s ≠ []) (h0 : (0 : Int) ∉ s)
    (hn : NEWLINE ∉ s) (hx : x = 0 ∨ x = 8) :
    (writeString tallScreen tallFont s ⟨x, 0, colour⟩).2 = ⟨8, 0, colour⟩ := by
  induction s generalizing x with
  | nil => exact absurd rfl hs
  | cons c s ih =>
    have hc0 : c ≠ 0 := fun hc => h0 (hc ▸ List.mem_cons_self ..)
    have hc : c ≠ NEWLINE := fun hc => hn (hc ▸ List.mem_cons_self ..)
    rw [writeString_cursor hc0, tall_character hc hx]
    by_cases hend : s = []
    · rw [hend, writeString]
    · exact ih hend (fun hm => h0 (List.mem_cons_of_mem _ hm))
        (fun hm => hn (List.mem_cons_of_mem _ hm)) (.inr rfl)

/-- The line of the log leaves the cursor a letter below the top. -/
theorem tall_init :
    ∃ draws, framebufferInit tallScreen tallFont = some (draws, ⟨0, 2 ^ 31, INFO_COLOUR⟩) := by
  have hmark : (writeString tallScreen tallFont LOG_LINE ⟨0, 0, PREFIX_COLOUR⟩).2 =
      ⟨8, 0, PREFIX_COLOUR⟩ := tall_string (by decide) (by decide) (by decide) (.inl rfl)
  have hline : (writeString tallScreen tallFont (INITIALISED.map toChar) ⟨8, 0, INFO_COLOUR⟩).2 =
      ⟨8, 0, INFO_COLOUR⟩ := tall_string (by decide) (by decide) (by decide) (.inr rfl)
  refine ⟨_, framebufferInit_some.mpr ⟨rfl, rfl, _, _, _, _, (Prod.eta _).symm,
    (Prod.eta _).symm, rfl, ?_⟩⟩
  simp only [hmark, hline]
  simp [tallFont, add64]

/-- An A. -/
theorem letter_inside : ∃ draws cursor,
    framebufferInit tallScreen tallFont = some (draws, cursor) ∧
      TextInside tallScreen (writeString tallScreen tallFont [0x41] cursor).1 := by
  obtain ⟨draws, hinit⟩ := tall_init
  refine ⟨draws, _, hinit, ?_⟩
  refine (text_inside_iff tall_sizes hinit [0x41]).mpr (fits_of_few_newlines ?_ ?_)
  · simp [tallFont, NEWLINE]
  · simp [tallFont, tallScreen, NEWLINE]

/-- Newlines and an A. -/
def downAndLetter (n : Nat) : List Int := List.replicate n NEWLINE ++ [0x41]

theorem letter_far_down : .pixel 0 (2 ^ 64 - 2 ^ 31) INFO_COLOUR ∈
    (writeString tallScreen tallFont (downAndLetter (2 ^ 33 - 2)) ⟨0, 2 ^ 31, INFO_COLOUR⟩).1 := by
  have hrow : (2 ^ 31 + (2 ^ 33 - 2) * tallFont.height) % 2 ^ 64 = 2 ^ 64 - 2 ^ 31 := by
    simp [tallFont]
  have hline : endLine tallScreen tallFont 0x41 ⟨0, 2 ^ 64 - 2 ^ 31, INFO_COLOUR⟩ =
      ⟨0, 2 ^ 64 - 2 ^ 31, INFO_COLOUR⟩ := by
    simp [endLine, tallScreen, tallFont, add64, NEWLINE]
  have hscreen : endScreen tallScreen tallFont ⟨0, 2 ^ 64 - 2 ^ 31, INFO_COLOUR⟩ =
      ([], ⟨0, 2 ^ 64 - 2 ^ 31, INFO_COLOUR⟩) := by
    simp [endScreen, tallScreen, tallFont, add64]
  have hbit : glyphBit tallFont 0x41 0 0 = true := by
    simp [glyphBit, tallFont]
  have hplot : .pixel 0 (2 ^ 64 - 2 ^ 31) INFO_COLOUR ∈
      plotCharacter tallFont 0x41 0 (2 ^ 64 - 2 ^ 31) INFO_COLOUR :=
    mem_plotCharacter.mpr ⟨0, 0, by simp [tallFont], by simp [tallFont], hbit, by simp [add64]⟩
  rw [downAndLetter, writeString_newlines _ _ (by decide), hrow]
  apply mem_writeString_single (by decide) (by decide)
  rw [hline, hscreen]
  exact hplot

/-- **Counterexample**: the A is drawn at row 2^64 - 2^31 of a screen with 2^32 rows. -/
theorem pixel_outside : ∃ draws cursor,
    framebufferInit tallScreen tallFont = some (draws, cursor) ∧
    Sizes tallScreen tallFont ∧
    .pixel 0 (2 ^ 64 - 2 ^ 31) INFO_COLOUR ∈
      (writeString tallScreen tallFont (downAndLetter (2 ^ 33 - 2)) cursor).1 ∧
    ¬TextInside tallScreen
      (writeString tallScreen tallFont (downAndLetter (2 ^ 33 - 2)) cursor).1 := by
  obtain ⟨draws, hinit⟩ := tall_init
  refine ⟨draws, _, hinit, tall_sizes, letter_far_down, fun h => ?_⟩
  have hrow := (h _ _ _ letter_far_down).row
  simp [tallScreen] at hrow

end GaOS.Bugs.ConsoleRow
