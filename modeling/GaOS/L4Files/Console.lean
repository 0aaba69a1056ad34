import GaOS.L0Libc.Printk
import GaOS.L1Memory.PageAllocator
import GaOS.L4Files.Framebuffer

/-!
# Text on the framebuffer

Model of `framebuffer_plot_character`, `framebuffer_write_character`,
`framebuffer_write_string` and `framebuffer_init`
(kernel/src/devices/framebuffer/framebuffer.c:53-151), of `framebuffer_plot_pixel`
(framebuffer.h:29-33), and of what `_log` (kernel/src/misc/logger.c:6-33) writes to the screen:
`framebuffer_init` ends with a line of the log. The cursor is two `size_t`s, which wrap; the
sizes of the font are 32-bit numbers. What is drawn is a list: pixels, and the clearing of
the screen when the cursor gets too low.

A string is the list of its characters (signed bytes), and ends at the first null. Glyphs
are read at any index: `font_glyphs + c * glyph_size` is not checked against the font, and a
negative character is far behind it. The locks are left out, and so is the serial line.
-/
namespace GaOS.L4.Console

open GaOS.L0.Libc (vprintkUnsafe)
open GaOS.L1.PageAllocator GaOS.L4.FbDevice

/-! ## Data -/

/-- mirrors kernel/src/devices/framebuffer/framebuffer.h:5-12 -/
structure Screen extends Framebuffer where
  width : Nat
  bpp : Nat

/-- mirrors kernel/src/devices/framebuffer/framebuffer.c:11-21 -/
structure Font where
  magic : List Nat
  glyphSize : Nat
  height : Nat
  width : Nat
  /-- the byte at an index from `font_glyphs` on -/
  glyphs : Nat → Nat
  height_lt : height < 2 ^ 32
  width_lt : width < 2 ^ 32

/-- mirrors kernel/src/devices/framebuffer/framebuffer.h:14-18 -/
structure Cursor where
  x : Nat
  y : Nat
  colour : Nat
  deriving DecidableEq, Repr

inductive Draw where
  | pixel (x y colour : Nat)
  /-- `arch_zero_pages(base, pages)` -/
  | clear (pages : Nat)
  deriving DecidableEq, Repr

def PSF2_MAGIC : List Nat := [0x72, 0xB5, 0x4A, 0x86]

def NEWLINE : Int := 0x0A

/-! ## Drawing -/

/-- The address of `line[x]`.
mirrors kernel/src/devices/framebuffer/framebuffer.h:29-33 -/
def pixelAddress (fb : Screen) (x y : Nat) : Nat :=
  add64 (add64 fb.base (mul64 y fb.pitch)) (mul64 4 x)

/-- The bit of a glyph. The product with the character and the one with `line_pitch`, a
byte, have 32 bits.
mirrors kernel/src/devices/framebuffer/framebuffer.c:58-69 -/
def glyphBit (font : Font) (c : Int) (xx yy : Nat) : Bool :=
  let character := (c * font.glyphSize % 2 ^ 32).toNat
  let linePitch := font.glyphSize / font.height % 256
  font.glyphs (character + (yy * linePitch % 2 ^ 32 + xx / 8)) &&& 0b10000000 >>> (xx % 8) ≠ 0

/-- mirrors kernel/src/devices/framebuffer/framebuffer.c:53-73 -/
def plotCharacter (font : Font) (c : Int) (x y colour : Nat) : List Draw :=
  (List.range font.height).flatMap fun yy =>
    (List.range font.width).filterMap fun xx =>
      if glyphBit font c xx yy then some (.pixel (add64 x xx) (add64 y yy) colour) else none

/-- The end of a line.
mirrors kernel/src/devices/framebuffer/framebuffer.c:82-87 -/
def endLine (fb : Screen) (font : Font) (c : Int) (cursor : Cursor) : Cursor :=
  if fb.width ≤ add64 cursor.x font.width ∨ c = NEWLINE then
    { cursor with y := add64 cursor.y font.height, x := 0 }
  else cursor

/-- The bottom of the screen: it is cleared, and the cursor goes back to the top.
mirrors kernel/src/devices/framebuffer/framebuffer.c:95-103 -/
def endScreen (fb : Screen) (font : Font) (cursor : Cursor) : List Draw × Cursor :=
  if fb.height ≤ add64 cursor.y font.height then
    ([.clear (mul64 fb.height fb.pitch / PAGE)], { cursor with y := 0, x := 0 })
  else ([], cursor)

/-- mirrors kernel/src/devices/framebuffer/framebuffer.c:75-109 -/
def writeCharacter (fb : Screen) (font : Font) (c : Int) (cursor : Cursor) :
    List Draw × Cursor :=
  let cursor := endLine fb font c cursor
  if c = NEWLINE then ([], cursor)
  else
    let (cleared, cursor) := endScreen fb font cursor
    (cleared ++ plotCharacter font c cursor.x cursor.y cursor.colour,
      { cursor with x := add64 cursor.x font.width })

/-- mirrors kernel/src/devices/framebuffer/framebuffer.c:111-118 -/
def writeString (fb : Screen) (font : Font) : List Int → Cursor → List Draw × Cursor
  | [], cursor => ([], cursor)
  | c :: s, cursor =>
    if c = 0 then ([], cursor)
    else
      let (draws, cursor) := writeCharacter fb font c cursor
      let (rest, cursor) := writeString fb font s cursor
      (draws ++ rest, cursor)

/-! ## The log -/

/-- mirrors kernel/src/misc/logger.h:10 -/
def PREFIX_COLOUR : Nat := 0xD0D0D0

/-- mirrors kernel/src/misc/logger.h:12 -/
def INFO_COLOUR : Nat := 0x10B010

/-- "[%d.%d%d%d] %s: " -/
def LOG_PREFIX : List Nat :=
  [0x5B, 0x25, 0x64, 0x2E, 0x25, 0x64, 0x25, 0x64, 0x25, 0x64, 0x5D, 0x20, 0x25, 0x73, 0x3A, 0x20]

/-- "framebuffer" -/
def MODULE : List Nat := [0x66, 0x72, 0x61, 0x6D, 0x65, 0x62, 0x75, 0x66, 0x66, 0x65, 0x72]

/-- "initialised" -/
def INITIALISED : List Nat := [0x69, 0x6E, 0x69, 0x74, 0x69, 0x61, 0x6C, 0x69, 0x73, 0x65, 0x64]

/-- A byte as a `char`. -/
def toChar (byte : Nat) : Int := if byte < 2 ^ 7 then byte else byte - 2 ^ 8

/-- `framebuffer_write_character` for each of them. -/
def writeCharacters (fb : Screen) (font : Font) : List Int → Cursor → List Draw × Cursor
  | [], cursor => ([], cursor)
  | c :: s, cursor =>
    let (draws, cursor) := writeCharacter fb font c cursor
    let (rest, cursor) := writeCharacters fb font s cursor
    (draws ++ rest, cursor)

/-- Numbers have up to 20 digits, and strings that are printed less than 32 characters.
mirrors kernel/src/misc/libc.c:150-159 -/
def printk (fb : Screen) (font : Font) (mem : Nat → Nat) (fmt list : List Nat)
    (cursor : Cursor) : Option (List Draw × Cursor) :=
  (vprintkUnsafe mem 32 (fmt ++ [0]) (fmt.length + 1) 0 ⟨list, List.replicate 32 0, []⟩).map
    fun s => writeCharacters fb font (s.out.map toChar) cursor

/-- What goes to the screen; `module` and the strings among the arguments are in `mem`.
mirrors kernel/src/misc/logger.c:6-33 -/
def log (fb : Screen) (font : Font) (mem : Nat → Nat) (nanoseconds colour module : Nat)
    (fmt list : List Nat) (cursor : Cursor) : Option (List Draw × Cursor) := do
  let miliseconds := nanoseconds / 1000000
  let (draws, cursor) ← printk fb font mem LOG_PREFIX [miliseconds / 1000,
    miliseconds % 1000 / 100, miliseconds % 100 / 10, miliseconds % 10, module]
    { cursor with colour := PREFIX_COLOUR }
  let (draws', cursor) ← printk fb font mem fmt list { cursor with colour := colour }
  let (draws'', cursor) ← printk fb font mem [0x0A] [] cursor
  return (draws ++ draws' ++ draws'', cursor)

/-- What is drawn, and the cursor; `none` leaves the framebuffer unavailable. No timer keeps
time yet, so the nanoseconds are 0.
mirrors kernel/src/devices/framebuffer/framebuffer.c:120-151 -/
def framebufferInit (fb : Screen) (font : Font) : Option (List Draw × Cursor) :=
  if fb.bpp ≠ 32 then none
  else if font.magic ≠ PSF2_MAGIC then none
  else log fb font (cstr MODULE) 0 INFO_COLOUR 0 INITIALISED [] ⟨0, 0, 0xFFFFFF⟩

/-! ## What is drawn -/

variable {fb : Screen} {font : Font} {c : Int} {cursor : Cursor}

theorem mem_plotCharacter {d : Draw} {x y colour : Nat} :
    d ∈ plotCharacter font c x y colour ↔ ∃ xx yy, xx < font.width ∧ yy < font.height ∧
      glyphBit font c xx yy = true ∧ d = .pixel (add64 x xx) (add64 y yy) colour := by
  unfold plotCharacter
  simp only [List.mem_flatMap, List.mem_range, List.mem_filterMap, Option.ite_none_right_eq_some,
    Option.some.injEq]
  constructor
  · rintro ⟨yy, hy, xx, hx, hbit, rfl⟩
    exact ⟨xx, yy, hx, hy, hbit, rfl⟩
  · rintro ⟨xx, yy, hx, hy, hbit, rfl⟩
    exact ⟨yy, hy, xx, hx, hbit, rfl⟩

theorem writeCharacter_newline :
    writeCharacter fb font NEWLINE cursor =
      ([], { cursor with y := add64 cursor.y font.height, x := 0 }) := by
  simp [writeCharacter, endLine]

/-- The cursor after a glyph. -/
theorem writeCharacter_cursor (hc : c ≠ NEWLINE) : (writeCharacter fb font c cursor).2 =
    { (endScreen fb font (endLine fb font c cursor)).2 with
      x := add64 (endScreen fb font (endLine fb font c cursor)).2.x font.width } := by
  rw [writeCharacter, if_neg hc]

theorem writeString_cursor {s : List Int} (h0 : c ≠ 0) :
    (writeString fb font (c :: s) cursor).2 =
      (writeString fb font s (writeCharacter fb font c cursor).2).2 := by
  rw [writeString, if_neg h0]

theorem mem_writeString_single {d : Draw} (h0 : c ≠ 0) (hc : c ≠ NEWLINE)
    (h : d ∈ plotCharacter font c (endScreen fb font (endLine fb font c cursor)).2.x
      (endScreen fb font (endLine fb font c cursor)).2.y
      (endScreen fb font (endLine fb font c cursor)).2.colour) :
    d ∈ (writeString fb font [c] cursor).1 := by
  simp only [writeString, writeCharacter, if_neg h0, if_neg hc, List.append_nil]
  exact List.mem_append_right _ h

/-- Newlines move the row and nothing else. -/
theorem writeString_newlines (n : Nat) (s : List Int) {y colour : Nat} (hy : y < 2 ^ 64) :
    writeString fb font (List.replicate n NEWLINE ++ s) ⟨0, y, colour⟩ =
      writeString fb font s ⟨0, (y + n * font.height) % 2 ^ 64, colour⟩ := by
  induction n generalizing y with
  | zero => rw [Nat.zero_mul, Nat.add_zero, Nat.mod_eq_of_lt hy]; rfl
  | succ n ih =>
    rw [List.replicate_succ, List.cons_append, writeString, if_neg (by decide),
      writeCharacter_newline]
    simp only [List.nil_append]
    rw [ih (add64_lt _ _)]
    have hrow : (add64 y font.height + n * font.height) % 2 ^ 64 =
        (y + (n + 1) * font.height) % 2 ^ 64 := by
      rw [add64, Nat.mod_add_mod, Nat.add_mul, Nat.one_mul]
      congr 1
      omega
    rw [hrow]

/-! ## The line of the log -/

/-- "[0.000] framebuffer: " -/
def LOG_LINE : List Int :=
  [0x5B, 0x30, 0x2E, 0x30, 0x30, 0x30, 0x5D, 0x20, 0x66, 0x72, 0x61, 0x6D, 0x65, 0x62, 0x75, 0x66,
    0x66, 0x65, 0x72, 0x3A, 0x20]

theorem writeCharacters_eq {s : List Int} (h0 : (0 : Int) ∉ s) :
    writeCharacters fb font s cursor = writeString fb font s cursor := by
  induction s generalizing cursor with
  | nil => rfl
  | cons c s ih =>
    obtain ⟨hc, hs⟩ := not_or.mp (mt List.mem_cons.mpr h0)
    simp only [writeCharacters, writeString, if_neg (Ne.symm hc), ih hs]

theorem printk_prefix : printk fb font (cstr MODULE) LOG_PREFIX [0, 0, 0, 0, 0] cursor =
    some (writeString fb font LOG_LINE cursor) := by
  rw [← writeCharacters_eq (by decide)]
  rfl

theorem printk_initialised (mem : Nat → Nat) : printk fb font mem INITIALISED [] cursor =
    some (writeString fb font (INITIALISED.map toChar) cursor) := by
  rw [← writeCharacters_eq (by decide)]
  rfl

theorem printk_newline (mem : Nat → Nat) : printk fb font mem [0x0A] [] cursor =
    some ([], { cursor with y := add64 cursor.y font.height, x := 0 }) := by
  refine Eq.trans (b := some (writeCharacters fb font [NEWLINE] cursor)) rfl ?_
  rw [writeCharacters, writeCharacter_newline]
  rfl

/-- What `framebuffer_init` leaves on the screen: "[0.000] framebuffer: initialised" from the
top on, and the cursor at the start of the next line. -/
theorem framebufferInit_some {draws : List Draw} :
    framebufferInit fb font = some (draws, cursor) ↔ fb.bpp = 32 ∧ font.magic = PSF2_MAGIC ∧
      ∃ a b before behind, writeString fb font LOG_LINE ⟨0, 0, PREFIX_COLOUR⟩ = (a, before) ∧
        writeString fb font (INITIALISED.map toChar) { before with colour := INFO_COLOUR } =
          (b, behind) ∧
        draws = a ++ b ∧ cursor = { behind with y := add64 behind.y font.height, x := 0 } := by
  unfold framebufferInit log
  by_cases hbpp : fb.bpp = 32
  · by_cases hmagic : font.magic = PSF2_MAGIC
    · simp only [hbpp, hmagic, ne_eq, not_true_eq_false, if_false, true_and, Nat.zero_div,
        Nat.zero_mod, printk_prefix, printk_initialised, printk_newline, Option.bind_eq_bind,
        Option.bind_some, Option.pure_def, Option.some.injEq, Prod.mk.injEq, List.append_nil]
      constructor
      · rintro ⟨rfl, rfl⟩
        exact ⟨_, _, _, _, rfl, rfl, rfl, rfl⟩
      · rintro ⟨a, b, before, behind, ha, hb, rfl, rfl⟩
        simp only [ha, hb, and_self]
    · simp [hbpp, hmagic]
  · simp [hbpp]

end GaOS.L4.Console
