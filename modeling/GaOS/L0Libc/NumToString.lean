import GaOS.Core.Buffer
import GaOS.Core.Bytes
import Mathlib.Data.Nat.Digits.Lemmas

/-!
# Numbers as text

Model of `num_to_string` (kernel/src/misc/libc.c:110-148). The buffer is the list of its bytes,
and a write outside of it, a character outside of the table of digits and a division by zero are
undefined, and `none`. So is a loop that has not ended after `rounds` rounds.

`numToString_eq` says what is in the buffer at the end: the digits of the number, the most
significant one first, a null, and behind it what was there before. What the text has to be is
said without the function: `Formats` asks for digits of the base, no zero in front of another
digit, and the number as the value of the text (`evaluate`).
-/
namespace GaOS.L0.Libc

/-- "0123456789ABCDEF", and the null behind it. -/
def DIGITS : List Nat :=
  [0x30, 0x31, 0x32, 0x33, 0x34, 0x35, 0x36, 0x37, 0x38, 0x39, 0x41, 0x42, 0x43, 0x44, 0x45,
    0x46, 0]

/-- `digits[digit]` -/
def digitChar (digit : Int) : Option Nat := if digit < 0 then none else DIGITS[digit.toNat]?

/-- The least significant digit comes first. `buffer_index` and the digits in the buffer are
the answer.
mirrors kernel/src/misc/libc.c:127-135 -/
def splitNumber (bufferBytes base : Nat) : Nat → Nat → Nat → List Nat → Option (Nat × List Nat)
  | 0, _, _, _ => none
  | rounds + 1, value, index, buffer =>
    if value = 0 then some (index, buffer)
    else do
      let c ← digitChar (toInt32 (value % base : Nat))
      let buffer ← store buffer index c
      if bufferBytes ≤ index + 1 then some (index + 1, buffer)
      else splitNumber bufferBytes base rounds (value / base) (index + 1) buffer

/-- The buffer at the end. `base` is an `int`, and is converted to `uint64_t` for the division.
mirrors kernel/src/misc/libc.c:111-148 -/
def numToString (rounds value : Nat) (buffer : List Nat) (bufferBytes : Nat) (base : Int) :
    Option (List Nat) := do
  let bufferBytes := sub64 bufferBytes 1
  if value = 0 then
    let buffer ← store buffer 0 0x30
    store buffer 1 0
  else
    let base := (base % 2 ^ 64).toNat
    if base = 0 then none
    else
      let (index, buffer) ← splitNumber bufferBytes base rounds value 0 buffer
      let buffer ← swapEnds rounds 0 (toInt32 (sub64 index 1)) buffer
      store buffer index 0

/-! ## What the text has to be -/

/-- The number of digits of a number. -/
def digitCount (base value : Nat) : Nat := if value = 0 then 1 else (Nat.digits base value).length

/-- '0', ..., '9', and 'A' for ten. -/
def digitValue (c : Nat) : Nat := if c < 0x41 then c - 0x30 else c - 0x41 + 10

/-- The value of a text, from the left to the right. -/
def evaluate (base : Nat) (text : List Nat) : Nat :=
  text.foldl (fun v c => v * base + digitValue c) 0

/-- The text is the number, written in the base. -/
structure Formats (base value : Nat) (text : List Nat) : Prop where
  nonempty : text ≠ []
  digits : ∀ c ∈ text, ∃ d, d < base ∧ DIGITS[d]? = some c
  leading : text.head? = some 0x30 → text = [0x30]
  value : evaluate base text = value

/-! ## The digits -/

/-- The character of a digit below 16. -/
def digitByte (d : Nat) : Nat := DIGITS.getD d 0

/-- The text of a number. -/
def numberText (base value : Nat) : List Nat :=
  if value = 0 then [0x30] else ((Nat.digits base value).map digitByte).reverse

variable {base value d : Nat}

theorem digits_getElem? : ∀ d, d < 16 → DIGITS[d]? = some (digitByte d) := by decide

theorem digitValue_digitByte : ∀ d, d < 16 → digitValue (digitByte d) = d := by decide

theorem digitChar_eq (h : d < 16) : digitChar (toInt32 d) = some (digitByte d) := by
  rw [toInt32_of_lt (by omega) (by omega), digitChar, if_neg (by omega), Int.toNat_natCast]
  exact digits_getElem? d h

theorem evaluate_reverse {ds : List Nat} (h : ∀ d ∈ ds, d < 16) :
    evaluate base (ds.map digitByte).reverse = Nat.ofDigits base ds := by
  rw [evaluate, List.foldl_reverse]
  induction ds with
  | nil => rfl
  | cons d ds ih =>
    have hd := digitValue_digitByte d (h d List.mem_cons_self)
    have hds := ih fun e he => h e (List.mem_cons_of_mem d he)
    rw [List.map_cons, List.foldr_cons, hds, hd, Nat.ofDigits_cons, Nat.mul_comm, Nat.add_comm]

theorem formats_numberText (hb : 2 ≤ base) (hb' : base ≤ 16) :
    Formats base value (numberText base value) := by
  unfold numberText
  split
  · rename_i h
    subst h
    refine ⟨by simp, fun c hc => ⟨0, by omega, ?_⟩, fun _ => rfl, by simp [evaluate, digitValue]⟩
    rw [List.mem_singleton.mp hc]
    rfl
  · rename_i h
    have hlt : ∀ d ∈ Nat.digits base value, d < base := fun d hd => Nat.digits_lt_base hb hd
    have hne : Nat.digits base value ≠ [] := Nat.digits_ne_nil_iff_ne_zero.mpr h
    refine ⟨by simpa using hne, ?_, ?_, ?_⟩
    · intro c hc
      rw [List.mem_reverse, List.mem_map] at hc
      obtain ⟨d, hd, rfl⟩ := hc
      exact ⟨d, hlt d hd, digits_getElem? d (Nat.lt_of_lt_of_le (hlt d hd) hb')⟩
    · -- the first character is the last digit, and that is not zero
      intro hhead
      rw [List.head?_reverse, List.getLast?_map, List.getLast?_eq_some_getLast hne,
        Option.map_some, Option.some.injEq] at hhead
      have hlast := Nat.getLast_digit_ne_zero base h
      have hval := digitValue_digitByte _
        (Nat.lt_of_lt_of_le (hlt _ (List.getLast_mem hne)) hb')
      rw [hhead] at hval
      exact absurd hval.symm hlast
    · rw [evaluate_reverse fun d hd => Nat.lt_of_lt_of_le (hlt d hd) hb', Nat.ofDigits_digits]

theorem length_numberText : (numberText base value).length = digitCount base value := by
  unfold numberText digitCount
  split
  · rfl
  · simp

/-! ## The loop -/

/-- The digits are written behind those that are there, and the bound on the index is not
reached before the last one. -/
theorem splitNumber_eq (hb : 2 ≤ base) (hb' : base ≤ 16) {bufferBytes rounds : Nat}
    (w junk : List Nat) (hjunk : (Nat.digits base value).length ≤ junk.length)
    (hbytes : w.length + (Nat.digits base value).length ≤ bufferBytes)
    (hr : (Nat.digits base value).length < rounds) :
    splitNumber bufferBytes base rounds value w.length (w ++ junk) =
      some (w.length + (Nat.digits base value).length,
        w ++ ((Nat.digits base value).map digitByte ++
          junk.drop (Nat.digits base value).length)) := by
  induction rounds generalizing value w junk with
  | zero => omega
  | succ rounds ih =>
    rw [splitNumber]
    by_cases hv : value = 0
    · subst hv
      simp
    have hmod : value % base < 16 := Nat.lt_of_lt_of_le (Nat.mod_lt value (by omega)) hb'
    have hdigits := Nat.digits_def' hb (Nat.pos_of_ne_zero hv)
    rw [hdigits, List.length_cons] at hjunk hbytes hr
    obtain ⟨x, junk, rfl⟩ := List.exists_cons_of_length_pos (l := junk) (by omega)
    rw [List.length_cons] at hjunk
    rw [if_neg hv, digitChar_eq hmod, Option.bind_eq_bind, Option.bind_some, store_append,
      Option.bind_eq_bind, Option.bind_some, hdigits]
    by_cases hlast : bufferBytes ≤ w.length + 1
    · -- the bound is only reached with the last digit
      have hnil : Nat.digits base (value / base) = [] := List.eq_nil_of_length_eq_zero (by omega)
      simp [if_pos hlast, hnil]
    · have hnext := @ih (value / base) (w ++ [digitByte (value % base)]) junk (by omega)
        (by rw [List.length_append, List.length_singleton]; omega) (by omega)
      rw [if_neg hlast]
      simpa [Nat.add_assoc, Nat.add_comm 1] using hnext

/-! ## The buffer at the end -/

theorem digits_length_le (hb : 2 ≤ base) (hv : value < 2 ^ 64) :
    (Nat.digits base value).length ≤ 64 := by
  rw [Nat.digits_length_le_iff hb]
  exact Nat.lt_of_lt_of_le hv (Nat.pow_le_pow_left hb 64)

variable {buffer : List Nat} {rounds : Nat}

/-- The characters are turned around, and the byte behind them becomes the null. -/
theorem reversed_terminated (cs : List Nat) (x : Nat) (rest : List Nat) (hr : cs.length < rounds) :
    (swapEnds rounds 0 (cs.length - 1) (cs ++ x :: rest)).bind (store · cs.length 0) =
      some (cs.reverse ++ 0 :: rest) := by
  have hswap := swapEnds_eq [] cs (x :: rest) (i := 0) rfl (j := cs.length - 1) (by simp) hr
  rw [List.nil_append, List.nil_append] at hswap
  have hend := store_append cs.reverse x 0 rest
  rw [List.length_reverse] at hend
  rw [hswap, Option.bind_some, hend]

theorem numToString_of_ne_zero (h0 : value ≠ 0) (hv : value < 2 ^ 64) (hb : 2 ≤ base)
    (hb' : base ≤ 16) (h64 : buffer.length < 2 ^ 64)
    (hroom : (Nat.digits base value).length + 1 ≤ buffer.length)
    (hr : (Nat.digits base value).length < rounds) :
    numToString rounds value buffer buffer.length base =
      some (((Nat.digits base value).map digitByte).reverse ++
        0 :: buffer.drop ((Nat.digits base value).length + 1)) := by
  have hcount := digits_length_le hb hv
  have hpos : 0 < (Nat.digits base value).length :=
    List.length_pos_iff.mpr (Nat.digits_ne_nil_iff_ne_zero.mpr h0)
  have hbytes : sub64 buffer.length 1 = buffer.length - 1 := sub64_of_le (by omega) h64
  have hbase : ((base : Int) % 2 ^ 64).toNat = base := by omega
  have hj : toInt32 (sub64 (Nat.digits base value).length 1 : Nat) =
      ((Nat.digits base value).length : Int) - 1 := by
    rw [sub64_of_le hpos (by omega), toInt32_of_lt (by omega) (by omega)]
    omega
  have hsplit := splitNumber_eq hb hb' [] buffer (by omega)
    (show _ ≤ buffer.length - 1 by rw [List.length_nil]; omega) hr
  have hdrop : buffer.drop (Nat.digits base value).length =
      buffer[(Nat.digits base value).length] :: buffer.drop ((Nat.digits base value).length + 1) :=
    List.drop_eq_getElem_cons (by omega)
  have hend := reversed_terminated ((Nat.digits base value).map digitByte)
    buffer[(Nat.digits base value).length] (buffer.drop ((Nat.digits base value).length + 1))
    (by rwa [List.length_map])
  simp only [List.nil_append, List.length_nil, Nat.zero_add] at hsplit
  rw [List.length_map] at hend
  unfold numToString
  simp only [hbytes, hbase, if_neg h0, if_neg (show base ≠ 0 by omega), hsplit, hj, hdrop,
    Option.bind_eq_bind, Option.bind_some]
  exact hend

/-- The text, a null, and the rest of the buffer as it was. -/
theorem numToString_eq (hv : value < 2 ^ 64) (hb : 2 ≤ base) (hb' : base ≤ 16)
    (h64 : buffer.length < 2 ^ 64) (hroom : digitCount base value + 1 ≤ buffer.length)
    (hr : digitCount base value < rounds) :
    numToString rounds value buffer buffer.length base =
      some (numberText base value ++ 0 :: buffer.drop (digitCount base value + 1)) := by
  unfold digitCount at hroom hr ⊢
  unfold numberText
  by_cases h0 : value = 0
  · rw [if_pos h0] at hroom
    match buffer, hroom with
    | a :: b :: buffer, _ => simp [numToString, h0, store]
  · simp only [if_neg h0] at hroom hr ⊢
    exact numToString_of_ne_zero h0 hv hb hb' h64 hroom hr

/-- **Numbers come back**: in a buffer with room for the digits and a null, `num_to_string` ends
without a write outside of the buffer. In it there are then the number as text in that base, a
null, and what was behind. -/
theorem numToString_formats (value base bufferBytes rounds : Nat) (buffer : List Nat)
    (hv : value < 2 ^ 64) (hb : 2 ≤ base ∧ base ≤ 16) (hbuffer : buffer.length = bufferBytes)
    (h64 : bufferBytes < 2 ^ 64) (hroom : digitCount base value + 1 ≤ bufferBytes)
    (hr : digitCount base value < rounds) :
    ∃ text, numToString rounds value buffer bufferBytes base =
        some (text ++ 0 :: buffer.drop (text.length + 1)) ∧
      text.length + 1 ≤ bufferBytes ∧ Formats base value text := by
  subst hbuffer
  refine ⟨numberText base value, ?_, ?_, formats_numberText hb.1 hb.2⟩
  · rw [length_numberText]
    exact numToString_eq hv hb.1 hb.2 h64 hroom hr
  · rwa [length_numberText]

/-- 42 in base 16, in a buffer that is just long enough. -/
theorem numToString_exact_fit :
    numToString 3 42 [7, 7, 7] 3 16 = some [0x32, 0x41, 0] ∧
      ∃ text, numToString 3 42 [7, 7, 7] 3 16 =
          some (text ++ 0 :: [7, 7, 7].drop (text.length + 1)) ∧
        text.length + 1 ≤ 3 ∧ Formats 16 42 text := by
  have hcount : digitCount 16 42 = 2 := by simp [digitCount]
  refine ⟨by decide, numToString_formats 42 16 3 3 [7, 7, 7] (by decide) (by decide) rfl (by decide)
    ?_ ?_⟩
  · rw [hcount]
  · rw [hcount]
    decide

end GaOS.L0.Libc
