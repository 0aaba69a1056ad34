import GaOS.Core.CString
import GaOS.L0Libc.NumToString

/-!
# Formatted output

Model of `vprintk_unsafe` and `vprintk_serial_unsafe` (kernel/src/misc/libc.c:190-270), which
are one loop with two ways out: a character goes to the framebuffer as it is, and to the serial
line with a carriage return in front of a line feed. A read behind the null of the format, an
argument that is not there and a loop that has not ended after its rounds are `none`.

`parse` and `render` say what is to be written without the loop: a format is a list of items,
and an unknown letter after a percent sign is text of its own.
-/
namespace GaOS.L0.Libc

/-! ## The code -/

/-- What goes to the data port of a UART that is present.
mirrors kernel/src/devices/serial/uart16550/uart.c:66-78 -/
def uart16550SendByte (byte : Nat) : List Nat := if byte = 0x0A then [0x0D, byte] else [byte]

/-- What `framebuffer_write_character` is called with. -/
def framebufferWriteCharacter (c : Nat) : List Nat := [c]

/-- `framebuffer_write_string` and `uart16550_send_string`.
mirrors kernel/src/devices/framebuffer/framebuffer.c:111-118 and
kernel/src/devices/serial/uart16550/uart.c:80-90 -/
def writeString (emit : Nat → List Nat) (mem : Nat → Nat) : Nat → Nat → Option (List Nat)
  | 0, _ => none
  | rounds + 1, p =>
    if mem p = 0 then some []
    else (writeString emit mem rounds (p + 1)).map (emit (mem p) ++ ·)

structure Printing where
  /-- what `va_arg` has not read yet -/
  list : List Nat
  /-- `conversion_buffer` -/
  buffer : List Nat
  out : List Nat

section
variable (emit : Nat → List Nat) (mem : Nat → Nat) (rounds : Nat)

def Printing.write (s : Printing) (text : List Nat) : Printing :=
  { s with out := s.out ++ text.flatMap emit }

/-- `num_to_string` and the output of the buffer. -/
def writeNumber (value : Nat) (base : Int) (s : Printing) : Option Printing := do
  let buffer ← numToString rounds value s.buffer 32 base
  let text ← writeString emit (cstr buffer) rounds 0
  return { s with buffer := buffer, out := s.out ++ text }

/-- The cases of the `switch`, and if the letter is a part of the conversion.
mirrors kernel/src/misc/libc.c:201-223 -/
def convert (letter : Nat) (s : Printing) : Option (Printing × Bool) :=
  let vaArg := fun (f : Nat → Printing → Option Printing) => match s.list with
    | [] => none
    | v :: list => (f v { s with list := list }).map (·, true)
  if letter = 0x64 then vaArg fun v s => writeNumber emit rounds v 10 s
  else if letter = 0x78 ∨ letter = 0x70 then
    vaArg fun v s => writeNumber emit rounds v 16 (s.write emit [0x30, 0x78])
  else if letter = 0x73 then
    vaArg fun v s => (writeString emit mem rounds v).map fun t => { s with out := s.out ++ t }
  else if letter = 0x63 then vaArg fun v s => some (s.write emit [v % 2 ^ 8])
  else some (s, false)

/-- `fmt` is the format with its null.
mirrors kernel/src/misc/libc.c:190-225 -/
def vprintkWith (fmt : List Nat) : Nat → Nat → Printing → Option Printing
  | 0, _, _ => none
  | steps + 1, i, s => do
    let c ← fmt[i]?
    if c = 0 then return s
    else if c ≠ 0x25 then vprintkWith fmt steps (i + 1) (s.write emit [c])
    else
      let letter ← fmt[i + 1]?
      let (s, taken) ← convert emit mem rounds letter s
      vprintkWith fmt steps (if taken then i + 2 else i + 1) s

end

/-- mirrors kernel/src/misc/libc.c:190-225 -/
def vprintkUnsafe := vprintkWith framebufferWriteCharacter

/-- mirrors kernel/src/misc/libc.c:234-270 -/
def vprintkSerialUnsafe := vprintkWith uart16550SendByte

/-! ## What is to be written -/

inductive Item where
  | char (c : Nat)
  | dec
  | hex
  | str
  | chr
  deriving DecidableEq

def conversion (letter : Nat) : Option Item :=
  if letter = 0x64 then some .dec
  else if letter = 0x78 ∨ letter = 0x70 then some .hex
  else if letter = 0x73 then some .str
  else if letter = 0x63 then some .chr
  else none

def parse : List Nat → List Item
  | [] => []
  | c :: t =>
    if c ≠ 0x25 then .char c :: parse t
    else match t with
      | [] => []
      | letter :: rest => match conversion letter with
        | some item => item :: parse rest
        | none => parse (letter :: rest)
  termination_by s => s.length

/-- Text of the format has no argument. -/
def Item.takes : Item → Bool
  | .char _ => false
  | _ => true

/-- The text of an item with the argument `v`; `strings` has the strings that pointers
point to. -/
def Item.text (strings : Nat → List Nat) (v : Nat) : Item → List Nat
  | .char c => [c]
  | .dec => numberText 10 v
  | .hex => [0x30, 0x78] ++ numberText 16 v
  | .str => strings v
  | .chr => [v % 2 ^ 8]

def render (strings : Nat → List Nat) : List Item → List Nat → List Nat
  | [], _ => []
  | item :: items, list =>
    if item.takes then item.text strings (list.headD 0) ++ render strings items list.tail
    else item.text strings 0 ++ render strings items list

/-- The string at `p` in memory. -/
def IsString (mem : Nat → Nat) : Nat → List Nat → Prop
  | p, [] => mem p = 0
  | p, c :: t => c ≠ 0 ∧ mem p = c ∧ IsString mem (p + 1) t

/-- The arguments fit the items: each item has one, words are below 2^64, and pointers point
to strings. -/
def Fits (strings : Nat → List Nat) (mem : Nat → Nat) (rounds : Nat) :
    List Item → List Nat → Prop
  | [], _ => True
  | item :: items, list =>
    if item.takes then ∃ v rest, list = v :: rest ∧ v < 2 ^ 64 ∧
      (item = .str → IsString mem v (strings v) ∧ (strings v).length < rounds) ∧
      Fits strings mem rounds items rest
    else Fits strings mem rounds items list


variable (emit : Nat → List Nat) {mem : Nat → Nat} {strings : Nat → List Nat} {rounds : Nat}

/-! ## Strings and numbers -/

theorem writeString_eq {text : List Nat} {p : Nat} (h : IsString mem p text)
    (hr : text.length < rounds) : writeString emit mem rounds p = some (text.flatMap emit) := by
  induction text generalizing p rounds with
  | nil =>
    obtain ⟨rounds, rfl⟩ := Nat.exists_eq_add_one_of_ne_zero (Nat.ne_of_gt hr)
    have hp : mem p = 0 := h
    rw [writeString, if_pos hp]
    rfl
  | cons c text ih =>
    obtain ⟨hc, hp, htext⟩ := h
    obtain ⟨rounds, rfl⟩ := Nat.exists_eq_add_one_of_ne_zero (Nat.ne_of_gt (Nat.zero_lt_of_lt hr))
    have hne : mem p ≠ 0 := hp ▸ hc
    rw [writeString, if_neg hne, ih htext (by simpa using hr), hp]
    rfl

theorem isString_cstr (before text rest : List Nat) (h : NoNull text) :
    IsString (cstr (before ++ text ++ 0 :: rest)) before.length text := by
  induction text generalizing before with
  | nil => simp [IsString, cstr]
  | cons c text ih =>
    have hnext := ih (before ++ [c]) h.tail
    simp only [List.append_assoc, List.length_append, List.length_singleton] at hnext
    refine ⟨h.head, by simp [cstr], ?_⟩
    simpa using hnext

theorem noNull_numberText {base value : Nat} (hb : 2 ≤ base) (hb' : base ≤ 16) :
    NoNull (numberText base value) := by
  intro h0
  obtain ⟨d, hd, hc⟩ := (formats_numberText hb hb').digits 0 h0
  have htable : ∀ d, d < 16 → DIGITS[d]? ≠ some 0 := by decide
  exact htable d (by omega) hc

theorem digitCount_le {base value k : Nat} (hb : 2 ≤ base) (hk : 0 < k) (hv : value < base ^ k) :
    digitCount base value ≤ k := by
  unfold digitCount
  split
  · exact hk
  · exact (Nat.digits_length_le_iff hb value).mpr hv

theorem writeNumber_eq (base : Nat) {value : Nat} {s : Printing} (hb : 10 ≤ base) (hb' : base ≤ 16)
    (hv : value < 2 ^ 64) (hbuffer : s.buffer.length = 32) (hr : 32 ≤ rounds) :
    ∃ buffer, buffer.length = 32 ∧ writeNumber emit rounds value base s =
      some { s.write emit (numberText base value) with buffer := buffer } := by
  have hcount : digitCount base value ≤ 20 := by
    refine digitCount_le (by omega) (by omega) (Nat.lt_of_lt_of_le hv ?_)
    exact Nat.le_trans (by decide) (Nat.pow_le_pow_left hb 20)
  have hnumber : numToString rounds value s.buffer s.buffer.length base = _ :=
    numToString_eq hv (by omega) hb' (by omega) (by omega) (by omega)
  have hstring := isString_cstr [] (numberText base value)
    (s.buffer.drop (digitCount base value + 1)) (noNull_numberText (by omega) hb')
  have htext := writeString_eq emit hstring
    (by rw [length_numberText]; exact Nat.lt_of_le_of_lt hcount (by omega : 20 < rounds))
  rw [hbuffer] at hnumber
  refine ⟨numberText base value ++ 0 :: s.buffer.drop (digitCount base value + 1), ?_, ?_⟩
  · rw [List.length_append, List.length_cons, List.length_drop, length_numberText, hbuffer]
    omega
  · simp only [writeNumber, hnumber, Option.bind_eq_bind, Option.bind_some]
    simp only [List.nil_append, List.length_nil] at htext
    rw [htext]
    rfl

/-! ## The loop -/

theorem convert_none {letter : Nat} (h : conversion letter = none) (s : Printing) :
    convert emit mem rounds letter s = some (s, false) := by
  unfold conversion at h
  split_ifs at h with hd hx hs hc
  simp only [convert, hd, hx, hs, hc, if_false]

theorem conversion_takes {letter : Nat} {item : Item} (h : conversion letter = some item) :
    item.takes = true := by
  unfold conversion at h
  split_ifs at h
  all_goals
    cases h
    rfl

theorem convert_some {letter v : Nat} {item : Item} {rest : List Nat} {s : Printing}
    (h : conversion letter = some item) (hs : s.list = v :: rest) (hv : v < 2 ^ 64)
    (hstr : item = .str → IsString mem v (strings v) ∧ (strings v).length < rounds)
    (hbuffer : s.buffer.length = 32) (hr : 32 ≤ rounds) :
    ∃ buffer, buffer.length = 32 ∧ convert emit mem rounds letter s =
      some (⟨rest, buffer, s.out ++ (item.text strings v).flatMap emit⟩, true) := by
  unfold conversion at h
  split_ifs at h with hd hx hc hchr
  · cases h
    obtain ⟨buffer, hlen, hnumber⟩ := writeNumber_eq emit 10 (s := { s with list := rest })
      (by omega) (by omega) hv hbuffer hr
    refine ⟨buffer, hlen, ?_⟩
    simp only [convert, hd, if_true, hs]
    exact congrArg (Option.map _) hnumber
  · cases h
    obtain ⟨buffer, hlen, hnumber⟩ := writeNumber_eq emit 16
      (s := Printing.write emit { s with list := rest } [0x30, 0x78])
      (by omega) (by omega) hv hbuffer hr
    refine ⟨buffer, hlen, ?_⟩
    simp only [convert, hd, hx, if_true, if_false, hs]
    refine (congrArg (Option.map _) hnumber).trans ?_
    simp [Printing.write, Item.text]
  · cases h
    obtain ⟨hstring, hlt⟩ := hstr rfl
    refine ⟨s.buffer, hbuffer, ?_⟩
    simp only [convert, hc, if_true, hs, writeString_eq emit hstring hlt]
    rfl
  · cases h
    refine ⟨s.buffer, hbuffer, ?_⟩
    simp only [convert, hchr, if_true, hs]
    rfl

theorem vprintkWith_eq (s : List Nat) (before : List Nat) (steps : Nat) (st : Printing)
    (hs : NoNull s) (hsteps : s.length < steps) (hbuffer : st.buffer.length = 32)
    (hr : 32 ≤ rounds) (hfits : Fits strings mem rounds (parse s) st.list) :
    ∃ buffer, buffer.length = 32 ∧
      vprintkWith emit mem rounds (before ++ s ++ [0]) steps before.length st =
        some ⟨st.list.drop ((parse s).countP Item.takes), buffer,
          st.out ++ (render strings (parse s) st.list).flatMap emit⟩ := by
  induction s using parse.induct generalizing before steps st with
  | case1 =>
    obtain ⟨steps, rfl⟩ := Nat.exists_eq_add_one_of_ne_zero (Nat.ne_of_gt hsteps)
    refine ⟨st.buffer, hbuffer, ?_⟩
    simp [vprintkWith, parse, render]
  | case2 c t hc ih =>
    obtain ⟨steps, rfl⟩ :=
      Nat.exists_eq_add_one_of_ne_zero (Nat.ne_of_gt (Nat.zero_lt_of_lt hsteps))
    have hparse : parse (c :: t) = .char c :: parse t := by
      rw [parse.eq_def]
      exact if_pos hc
    rw [hparse] at hfits ⊢
    have hget : (before ++ c :: t ++ [0])[before.length]? = some c := by simp
    obtain ⟨buffer, hlen, hrest⟩ := ih (before ++ [c]) steps (st.write emit [c]) hs.tail
      (by simpa using hsteps) hbuffer
      (by simpa [Fits, Item.takes, Printing.write] using hfits)
    refine ⟨buffer, hlen, ?_⟩
    simp only [vprintkWith, hget, Option.bind_eq_bind, Option.bind_some, if_neg hs.head, if_pos hc]
    simpa [Printing.write, render, Item.takes, Item.text] using hrest
  | case3 c hc =>
    -- the percent sign is the last character, and the letter is the null
    obtain ⟨steps, rfl⟩ : ∃ n, steps = n + 2 := ⟨steps - 2, by
      simp only [List.length_cons, List.length_nil] at hsteps
      omega⟩
    obtain rfl := Decidable.not_not.mp hc
    refine ⟨st.buffer, hbuffer, ?_⟩
    simp [vprintkWith, parse, render, convert]
  | case4 c hc letter rest item hitem ih =>
    obtain ⟨steps, rfl⟩ :=
      Nat.exists_eq_add_one_of_ne_zero (Nat.ne_of_gt (Nat.zero_lt_of_lt hsteps))
    obtain rfl := Decidable.not_not.mp hc
    have hparse : parse (0x25 :: letter :: rest) = item :: parse rest := by
      rw [parse, if_neg hc]
      simp only [hitem]
    have htakes := conversion_takes hitem
    rw [hparse] at hfits ⊢
    simp only [Fits, htakes, if_true] at hfits
    obtain ⟨v, list, hlist, hv, hstr, hfits⟩ := hfits
    obtain ⟨b, hb, hconvert⟩ := convert_some emit hitem hlist hv hstr hbuffer hr
    have hget : (before ++ 0x25 :: letter :: rest ++ [0])[before.length]? = some 0x25 := by simp
    have hget' : (before ++ 0x25 :: letter :: rest ++ [0])[before.length + 1]? = some letter := by
      simp
    obtain ⟨buffer, hlen, hrest⟩ := ih (before ++ [0x25, letter]) steps
      ⟨list, b, st.out ++ (item.text strings v).flatMap emit⟩ hs.tail.tail
      (by simp only [List.length_cons] at hsteps; omega) hb hfits
    refine ⟨buffer, hlen, ?_⟩
    simp only [vprintkWith, hget, hget', Option.bind_eq_bind, Option.bind_some, hconvert]
    simpa [render, htakes, hlist] using hrest
  | case5 c hc letter rest hnone ih =>
    obtain ⟨steps, rfl⟩ :=
      Nat.exists_eq_add_one_of_ne_zero (Nat.ne_of_gt (Nat.zero_lt_of_lt hsteps))
    obtain rfl := Decidable.not_not.mp hc
    have hparse : parse (0x25 :: letter :: rest) = parse (letter :: rest) := by
      rw [parse, if_neg hc]
      simp only [hnone]
    rw [hparse] at hfits ⊢
    have hget : (before ++ 0x25 :: letter :: rest ++ [0])[before.length]? = some 0x25 := by simp
    have hget' : (before ++ 0x25 :: letter :: rest ++ [0])[before.length + 1]? = some letter := by
      simp
    obtain ⟨buffer, hlen, hrest⟩ := ih (before ++ [0x25]) steps st hs.tail
      (by simpa using hsteps) hbuffer hfits
    refine ⟨buffer, hlen, ?_⟩
    simp only [vprintkWith, hget, hget', Option.bind_eq_bind, Option.bind_some,
      convert_none emit hnone]
    simpa using hrest

/-! ## Line ends -/

/-- What a terminal makes of CR LF. -/
def lineFeeds : List Nat → List Nat
  | 0x0D :: 0x0A :: rest => 0x0A :: lineFeeds rest
  | c :: rest => c :: lineFeeds rest
  | [] => []

theorem lineFeeds_cons {c : Nat} {rest : List Nat} (h : rest.head? ≠ some 0x0A) :
    lineFeeds (c :: rest) = c :: lineFeeds rest := by
  cases rest with
  | nil => simp [lineFeeds]
  | cons d rest =>
    have hd : d ≠ 0x0A := fun hd => h (congrArg some hd)
    rw [lineFeeds]
    intro r _ he
    exact hd (List.cons.inj he).1

/-- A line feed never comes first. -/
theorem head_sent (text : List Nat) : (text.flatMap uart16550SendByte).head? ≠ some 0x0A := by
  cases text with
  | nil => simp
  | cons c text =>
    rw [List.flatMap_cons, uart16550SendByte]
    split
    · simp
    · rename_i hc
      simpa using hc

theorem lineFeeds_sent (text : List Nat) : lineFeeds (text.flatMap uart16550SendByte) = text := by
  induction text with
  | nil => rfl
  | cons c text ih =>
    rw [List.flatMap_cons, uart16550SendByte]
    split
    · rename_i hc
      rw [hc]
      exact congrArg (0x0A :: ·) ih
    · exact (lineFeeds_cons (head_sent text)).trans (congrArg (c :: ·) ih)

/-- **The screen and the serial line have the same text.** Both loops end at the null of the
format, also if a percent sign is in front of it, and write the same text from the same
arguments: on the screen as it is, on the serial line with CR LF at the end of each line, from
which it can be read back. -/
theorem printk_agree (s list : List Nat) (hs : NoNull s) (hr : 32 ≤ rounds)
    (hfits : Fits strings mem rounds (parse s) list) (b b' : List Nat) (hb : b.length = 32)
    (hb' : b'.length = 32) :
    ∃ t t', vprintkUnsafe mem rounds (s ++ [0]) (s.length + 1) 0 ⟨list, b, []⟩ = some t ∧
      vprintkSerialUnsafe mem rounds (s ++ [0]) (s.length + 1) 0 ⟨list, b', []⟩ = some t' ∧
      t.out = render strings (parse s) list ∧ lineFeeds t'.out = t.out ∧
      t.list = list.drop ((parse s).countP Item.takes) ∧ t'.list = t.list := by
  obtain ⟨c, -, hscreen⟩ := vprintkWith_eq framebufferWriteCharacter s [] (s.length + 1)
    ⟨list, b, []⟩ hs (by omega) hb hr hfits
  obtain ⟨c', -, hserial⟩ := vprintkWith_eq uart16550SendByte s [] (s.length + 1)
    ⟨list, b', []⟩ hs (by omega) hb' hr hfits
  have hscreenText (text : List Nat) : text.flatMap framebufferWriteCharacter = text := by
    have hsame : text.flatMap (fun c => [c]) = text := by simp
    exact hsame
  refine ⟨_, _, hscreen, hserial, hscreenText _, ?_, rfl, rfl⟩
  exact (lineFeeds_sent _).trans (hscreenText _).symm

/-- "n=%d\n%": the letter behind the last percent sign is the null. -/
theorem printk_agree_percent : ∃ t t',
    vprintkUnsafe (fun _ => 0) 32 [0x6E, 0x3D, 0x25, 0x64, 0x0A, 0x25, 0] 7 0
      ⟨[42], List.replicate 32 0, []⟩ = some t ∧
    vprintkSerialUnsafe (fun _ => 0) 32 [0x6E, 0x3D, 0x25, 0x64, 0x0A, 0x25, 0] 7 0
      ⟨[42], List.replicate 32 7, []⟩ = some t' ∧
    t.out = [0x6E, 0x3D] ++ numberText 10 42 ++ [0x0A] ∧ lineFeeds t'.out = t.out := by
  have hparse : parse [0x6E, 0x3D, 0x25, 0x64, 0x0A, 0x25] =
      [.char 0x6E, .char 0x3D, .dec, .char 0x0A] := by
    simp [parse, conversion]
  obtain ⟨t, t', ht, ht', hout, hline, -, -⟩ := @printk_agree
    (fun _ => 0) (fun _ => []) 32 [0x6E, 0x3D, 0x25, 0x64, 0x0A, 0x25] [42]
    (by decide) (by decide) (by rw [hparse]; simp [Fits, Item.takes])
    (List.replicate 32 0) (List.replicate 32 7) rfl rfl
  refine ⟨t, t', ht, ht', ?_, hline⟩
  rw [hout, hparse]
  simp [render, Item.takes, Item.text]

end GaOS.L0.Libc
