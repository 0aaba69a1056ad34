import GaOS.Core.LTS
import GaOS.L4Files.Archive

/-!
# A damaged size can stop the walk over the ramdisk

`parse_size_of` (kernel/src/filesystem/ustar.c:44-57) takes every byte for a digit, so the
number that it reads can be negative: a byte below `'0'`, or one above 127, which is a negative
`char`. `ustar_open_header` and `ustar_debug_print` add the header's block and round up to
blocks, in a `size_t`, and go on by that many bytes. From -1023 to -512 the sum is rounded to
0, and the loop stays at the header for ever; below that it goes back. `ustar_debug_print`
says that "the header will always occupy a block!".

`progress_iff_sound` is the exact condition, for both loops and on any bytes: at every header
that a loop goes on from, the number is at least -511 and the next header is below 2^64. (In
the lowest addresses a step back past 0 also ends up higher.) Then a header is never
visited again, and the loop ends.

Counterexample: the bytes 0xF0 and `'0'` in the size field, which read as -512.

Fix: skip what is not an octal digit.
-/
namespace GaOS.Bugs.ArchiveWalk

open GaOS.L4.Archive

variable {mem : Nat → Nat} {a b : Nat}

/-! ## The number in the size field -/

/-- A byte as a signed `char`. -/
def signedChar (c : Nat) : Int := if c < 128 then c else (c : Int) - 256

def digitStep (mem : Nat → Nat) (header : Nat) (v : Int) (i : Nat) : Int :=
  let c := mem (header + SIZE + i)
  if c = 0 ∨ c = 0x20 then v else 8 * v + (signedChar c - 0x30)

/-- What the digits make without a bound on the numbers. -/
def sizeValue (mem : Nat → Nat) (header : Nat) : Int :=
  (List.range 12).foldl (digitStep mem header) 0

/-- Up to the next multiple of 512. -/
def roundUp (x : Int) : Int := (x + 511) / 512 * 512

/-- One digit: the number stays small, and the code's is the same up to 2^64. -/
theorem digitStep_spec (hb : ∀ x, mem x < 256) {size i m : Nat} {v : Int}
    (hv : -(26 * m : Int) + 26 ≤ v ∧ v ≤ 26 * m - 26) (hs : (size : Int) = v % 2 ^ 64) :
    (-(26 * (8 * m) : Int) + 26 ≤ digitStep mem a v i ∧ digitStep mem a v i ≤ 26 * (8 * m) - 26) ∧
      (sizeStep mem a size i : Int) = digitStep mem a v i % 2 ^ 64 := by
  have hbyte := hb (a + SIZE + i)
  unfold digitStep sizeStep
  generalize mem (a + SIZE + i) = c at hbyte ⊢
  simp only []
  split
  · exact ⟨by omega, hs⟩
  · simp only [signedChar, charToSize, add64, mul64, sub64]
    refine ⟨by split <;> omega, ?_⟩
    split <;> omega

theorem parse_prefix (hb : ∀ x, mem x < 256) (a : Nat) : ∀ i : Nat,
    (-(26 * (8 ^ i : Nat) : Int) + 26 ≤ (List.range i).foldl (digitStep mem a) 0 ∧
        (List.range i).foldl (digitStep mem a) 0 ≤ 26 * (8 ^ i : Nat) - 26) ∧
      (((List.range i).foldl (sizeStep mem a) 0 : Nat) : Int) =
        (List.range i).foldl (digitStep mem a) 0 % 2 ^ 64 := by
  intro i
  induction i with
  | zero => simp
  | succ i ih =>
    obtain ⟨hv, hs⟩ := ih
    simp only [List.range_succ, List.foldl_append, List.foldl_cons, List.foldl_nil]
    have := digitStep_spec (a := a) (i := i) hb hv hs
    rwa [Nat.pow_succ, Nat.mul_comm (8 ^ i) 8]

/-- **What is read is the number, modulo 2^64.** -/
theorem parseSizeOf_value (hb : ∀ x, mem x < 256) (a : Nat) :
    -(2 ^ 41 : Int) ≤ sizeValue mem a ∧ sizeValue mem a ≤ 2 ^ 41 ∧
      (parseSizeOf mem a : Int) = sizeValue mem a % 2 ^ 64 := by
  obtain ⟨⟨h1, h2⟩, h3⟩ := parse_prefix hb a 12
  refine ⟨?_, ?_, h3⟩
  · unfold sizeValue; omega
  · unfold sizeValue; omega

/-- The step of the loops. -/
theorem realSize_value (hb : ∀ x, mem x < 256) (a : Nat) :
    (realSize (parseSizeOf mem a) : Int) = roundUp (sizeValue mem a + 512) % 2 ^ 64 := by
  obtain ⟨h1, h2, h3⟩ := parseSizeOf_value hb a
  generalize parseSizeOf mem a = size at h3
  generalize sizeValue mem a = v at h1 h2 h3
  rw [realSize_wrap, roundUp]
  omega

/-! ## The loops -/

/-- A loop over the headers, by the header that it is at, until `stop`. -/
def headerLoop (mem : Nat → Nat) (initrd : Nat) (stop : Nat → Prop) : LTS Nat Unit where
  init a := a = add64 initrd TAR_BLOCK_SIZE
  step a _ b := ¬stop a ∧ b = add64 a (realSize (parseSizeOf mem a))

/-- `ustar_open_header` is done: the end, or a name that passes. -/
def OpenStops (mem : Nat → Nat) (path : List Nat) (a : Nat) : Prop :=
  mem a = 0 ∨ strncmp (cstr path) (nameAt mem a) path.length = 0

/-- `ustar_debug_print` is done. -/
def PrintStops (mem : Nat → Nat) (a : Nat) : Prop := mem a = 0

/-- Each round of the loop goes on by at least a block, to a higher address, and no header is
visited again. -/
structure Advances (mem : Nat → Nat) (loop : LTS Nat Unit) : Prop where
  forward : ∀ a b, loop.Reachable a → loop.step a () b →
    512 ≤ realSize (parseSizeOf mem a) ∧ b = a + realSize (parseSizeOf mem a)
  fresh : ∀ a b ls, loop.Reachable a → loop.step a () b → ¬loop.Run b ls a

/-! ## The condition -/

/-- The number in the size field is not negative by more than the block of the header, and the
next header is an address; or the step back is one past address 0. -/
def Sound (mem : Nat → Nat) (a : Nat) : Prop :=
  -511 ≤ sizeValue mem a ∧ a + roundUp (sizeValue mem a + 512) < 2 ^ 64 ∨
    sizeValue mem a ≤ -1024 ∧ a + roundUp (sizeValue mem a + 512) < 0

/-- At the headers that the loop goes on from. -/
def SoundHeaders (mem : Nat → Nat) (initrd : Nat) (stop : Nat → Prop) : Prop :=
  ∀ a, (headerLoop mem initrd stop).Reachable a → ¬stop a → Sound mem a

theorem step_iff (hb : ∀ x, mem x < 256) (ha : a < 2 ^ 64) :
    512 ≤ realSize (parseSizeOf mem a) ∧
        add64 a (realSize (parseSizeOf mem a)) = a + realSize (parseSizeOf mem a) ↔
      Sound mem a := by
  obtain ⟨hlo, hhi, -⟩ := parseSizeOf_value hb a
  have hstep := realSize_value hb a
  unfold Sound
  generalize realSize (parseSizeOf mem a) = n at hstep ⊢
  generalize sizeValue mem a = v at hlo hhi hstep ⊢
  unfold roundUp at *
  unfold add64
  -- the step is the rounded number, or that plus 2^64
  by_cases hneg : (v + 512 + 511) / 512 * 512 < 0
  · have hn : (n : Int) = (v + 512 + 511) / 512 * 512 + 2 ^ 64 := by omega
    omega
  · have hn : (n : Int) = (v + 512 + 511) / 512 * 512 := by omega
    omega

section
variable {initrd : Nat} {stop : Nat → Prop}

theorem reachable_lt (h : (headerLoop mem initrd stop).Reachable a) : a < 2 ^ 64 := by
  have hind : (headerLoop mem initrd stop).Inductive (· < 2 ^ 64) :=
    ⟨fun s hs => hs ▸ add64_lt _ _, fun s l t _ hst => hst.2 ▸ add64_lt _ _⟩
  exact hind.reachable h

theorem sound_of_advances (hb : ∀ x, mem x < 256)
    (h : Advances mem (headerLoop mem initrd stop)) : SoundHeaders mem initrd stop := by
  intro a hr hgo
  exact (step_iff hb (reachable_lt hr)).mp (h.forward a _ hr ⟨hgo, rfl⟩)

/-- A run over sound headers goes up. -/
theorem run_le (hb : ∀ x, mem x < 256) (hs : SoundHeaders mem initrd stop) {ls : List Unit}
    (hrun : (headerLoop mem initrd stop).Run a ls b)
    (hr : (headerLoop mem initrd stop).Reachable a) : a ≤ b := by
  induction hrun with
  | nil _ => exact Nat.le_refl _
  | @cons a t b l ls hst hrun ih =>
    have hfor := (step_iff hb (reachable_lt hr)).mpr (hs a hr hst.1)
    have hle := ih (hr.step hst)
    rw [hst.2, hfor.2] at hle
    omega

theorem advances_of_sound (hb : ∀ x, mem x < 256) (hs : SoundHeaders mem initrd stop) :
    Advances mem (headerLoop mem initrd stop) := by
  have hfor : ∀ a b, (headerLoop mem initrd stop).Reachable a →
      (headerLoop mem initrd stop).step a () b →
      512 ≤ realSize (parseSizeOf mem a) ∧ b = a + realSize (parseSizeOf mem a) := by
    intro a b hr hst
    obtain ⟨hmin, hnext⟩ := (step_iff hb (reachable_lt hr)).mpr (hs a hr hst.1)
    exact ⟨hmin, hst.2.trans hnext⟩
  refine ⟨hfor, fun a b ls hr hst hrun => ?_⟩
  have hle := run_le hb hs hrun (hr.step hst)
  have hup := hfor a b hr hst
  omega

/-- One round: the next header is a block further on. -/
theorem Advances.next (h : Advances mem (headerLoop mem initrd stop))
    (hr : (headerLoop mem initrd stop).Reachable a) (hgo : ¬stop a) :
    (headerLoop mem initrd stop).Reachable (add64 a (realSize (parseSizeOf mem a))) ∧
      a + 512 ≤ add64 a (realSize (parseSizeOf mem a)) := by
  obtain ⟨hmin, hnext⟩ := h.forward a _ hr ⟨hgo, rfl⟩
  exact ⟨hr.step (l := ()) ⟨hgo, rfl⟩, by omega⟩

end

/-! ## The code's loops end -/

/-- Addresses from `a` on, each higher than the one before. -/
def Ascends (a : Nat) (log : List Nat) : Prop := log.Pairwise (· < ·) ∧ ∀ x ∈ log, a ≤ x

theorem ascends_nil (a : Nat) : Ascends a [] := ⟨.nil, by simp⟩

theorem Ascends.cons {log : List Nat} (h : Ascends b log) (hab : a < b) : Ascends a (a :: log) := by
  refine ⟨List.pairwise_cons.mpr ⟨fun x hx => ?_, h.1⟩, fun x hx => ?_⟩
  · have := h.2 x hx
    omega
  · rcases List.mem_cons.mp hx with rfl | hx
    · exact Nat.le_refl _
    · have := h.2 x hx
      omega

theorem walkHeaders_ends {initrd : Nat} {path : List Nat}
    (h : Advances mem (headerLoop mem initrd (OpenStops mem path))) : ∀ (rounds : Nat) {a : Nat},
    (headerLoop mem initrd (OpenStops mem path)).Reachable a → 2 ^ 64 ≤ a + 512 * rounds →
    ∃ log answer, walkHeaders mem path rounds a = some (log, answer) ∧ Ascends a log
  | 0, a, hr, hroom => by
    have := reachable_lt hr
    omega
  | rounds + 1, a, hr, hroom => by
    by_cases hend : mem a = 0
    · exact ⟨[], none, by rw [walkHeaders, if_pos hend], ascends_nil a⟩
    by_cases hname : strncmp (cstr path) (nameAt mem a) path.length = 0
    · exact ⟨[a], some a, by rw [walkHeaders, if_neg hend, if_pos hname],
        (ascends_nil (a + 1)).cons (by omega)⟩
    obtain ⟨hnext, hup⟩ := h.next hr (not_or.mpr ⟨hend, hname⟩)
    obtain ⟨log, answer, hwalk, hasc⟩ := walkHeaders_ends h rounds hnext (by omega)
    exact ⟨a :: log, answer, by rw [walkHeaders, if_neg hend, if_neg hname, hwalk]; rfl,
      hasc.cons (by omega)⟩

theorem printHeaders_ends {initrd : Nat}
    (h : Advances mem (headerLoop mem initrd (PrintStops mem))) : ∀ (rounds : Nat) {a : Nat},
    (headerLoop mem initrd (PrintStops mem)).Reachable a → 2 ^ 64 ≤ a + 512 * rounds →
    ∃ log, printHeaders mem rounds a = some log ∧ Ascends a (log.map Prod.fst)
  | 0, a, hr, hroom => by
    have := reachable_lt hr
    omega
  | rounds + 1, a, hr, hroom => by
    by_cases hend : mem a = 0
    · exact ⟨[], by rw [printHeaders, if_pos hend], ascends_nil a⟩
    obtain ⟨hnext, hup⟩ := h.next hr hend
    obtain ⟨log, hprint, hasc⟩ := printHeaders_ends h rounds hnext (by omega)
    refine ⟨(a, parseSizeOf mem a, realSize (parseSizeOf mem a)) :: log, ?_, hasc.cons (by omega)⟩
    rw [printHeaders, if_neg hend]
    simp only [hprint, Option.map_some]

/-- **The walks make progress iff the size fields are sound.** For every memory of bytes, every
address of the ramdisk and every path: each round of `ustar_open_header` that does not stop
goes on by at least 512 bytes to a higher address, and never back to a header, iff the size
fields of the headers it goes on from are sound; likewise for `ustar_debug_print`. If they are, the
call ends after at most 2^55 rounds, and the headers it has met ascend. -/
theorem progress_iff_sound (hb : ∀ x, mem x < 256) (initrd : Nat) (path : List Nat) :
    (Advances mem (headerLoop mem initrd (OpenStops mem path)) ↔
        SoundHeaders mem initrd (OpenStops mem path)) ∧
    (Advances mem (headerLoop mem initrd (PrintStops mem)) ↔
        SoundHeaders mem initrd (PrintStops mem)) ∧
    (SoundHeaders mem initrd (OpenStops mem path) → ∀ rounds, 2 ^ 55 ≤ rounds →
        ∃ log answer, ustarOpenHeader mem initrd rounds path = some (log, answer) ∧
          log.Pairwise (· < ·)) ∧
    (SoundHeaders mem initrd (PrintStops mem) → ∀ rounds, 2 ^ 55 ≤ rounds →
        ∃ log, ustarDebugPrint mem initrd rounds = some log ∧
          (log.map Prod.fst).Pairwise (· < ·)) := by
  refine ⟨⟨sound_of_advances hb, advances_of_sound hb⟩,
    ⟨sound_of_advances hb, advances_of_sound hb⟩, fun hs rounds hr => ?_, fun hs rounds hr => ?_⟩
  · obtain ⟨log, answer, hwalk, hasc⟩ := walkHeaders_ends (advances_of_sound hb hs) rounds
      (LTS.Reachable.init rfl) (by omega)
    exact ⟨log, answer, hwalk, hasc.1⟩
  · obtain ⟨log, hprint, hasc⟩ := printHeaders_ends (advances_of_sound hb hs) rounds
      (LTS.Reachable.init rfl) (by omega)
    exact ⟨log, hprint, hasc.1⟩

/-! ## Examples -/

theorem smallArchive_byte (x : Nat) : smallArchive x < 256 := by
  unfold smallArchive
  repeat' split
  all_goals decide

/-- The walk comes to the file and to the end. -/
theorem smallArchive_sound {stop : Nat → Prop} (hend : ∀ a, smallArchive a = 0 → stop a) :
    SoundHeaders smallArchive 0 stop := by
  have hind : (headerLoop smallArchive 0 stop).Inductive fun a => a = 512 ∨ a = 1536 := by
    refine ⟨fun a ha => .inl ha, fun a l b ha hst => ?_⟩
    rcases ha with rfl | rfl
    · exact .inr (hst.2.trans (by decide +kernel))
    · exact absurd (hend 1536 (by decide)) hst.1
  intro a hr hgo
  rcases hind.reachable hr with rfl | rfl
  · exact .inl (by decide +kernel)
  · exact absurd (hend 1536 (by decide)) hgo

/-- In the archive with one file both loops go up, and end. -/
theorem small_archive_advances :
    Advances smallArchive (headerLoop smallArchive 0 (OpenStops smallArchive [0x62])) ∧
    Advances smallArchive (headerLoop smallArchive 0 (PrintStops smallArchive)) ∧
    ∃ log, ustarDebugPrint smallArchive 0 (2 ^ 55) = some log := by
  have hopen : SoundHeaders smallArchive 0 (OpenStops smallArchive [0x62]) :=
    smallArchive_sound fun _ h => .inl h
  have hprint : SoundHeaders smallArchive 0 (PrintStops smallArchive) :=
    smallArchive_sound fun _ h => h
  obtain ⟨h1, h2, -, h4⟩ := progress_iff_sound smallArchive_byte 0 [0x62]
  obtain ⟨log, hlog, -⟩ := h4 hprint (2 ^ 55) (Nat.le_refl _)
  exact ⟨h1.mpr hopen, h2.mpr hprint, log, hlog⟩

/-- The address of the ramdisk in the direct map. -/
def INITRD : Nat := 0xFFFF800000100000

/-- A file `a` whose size field is 0xF0 and `'0'`. -/
def damagedArchive : Nat → Nat := fun x =>
  if x = INITRD ∨ x = INITRD + 512 then 0x2E
  else if x = INITRD + 1 ∨ x = INITRD + 513 then 0x2F
  else if x = INITRD + 514 then 0x61
  else if x = INITRD + 512 + SIZE then 0xF0
  else if x = INITRD + 512 + SIZE + 1 then 0x30
  else 0

theorem damagedArchive_byte (x : Nat) : damagedArchive x < 256 := by
  unfold damagedArchive
  repeat' split
  all_goals decide

theorem walkHeaders_stuck {path : List Nat} (hgo : ¬OpenStops mem path a)
    (hstay : add64 a (realSize (parseSizeOf mem a)) = a) :
    ∀ rounds, walkHeaders mem path rounds a = none
  | 0 => rfl
  | rounds + 1 => by
    obtain ⟨hend, hname⟩ := not_or.mp hgo
    rw [walkHeaders, if_neg hend, if_neg hname, hstay, walkHeaders_stuck hgo hstay rounds]
    rfl

theorem printHeaders_stuck (hgo : mem a ≠ 0)
    (hstay : add64 a (realSize (parseSizeOf mem a)) = a) :
    ∀ rounds, printHeaders mem rounds a = none
  | 0 => rfl
  | rounds + 1 => by
    rw [printHeaders, if_neg hgo]
    simp only [hstay, printHeaders_stuck hgo hstay rounds, Option.map_none]

/-- **A size of -512 holds the walk at its header for ever.** Opening any other file does not
return, and neither does the listing at boot. -/
theorem damaged_archive_loops :
    (∀ x, damagedArchive x < 256) ∧ sizeValue damagedArchive (INITRD + 512) = -512 ∧
    (∀ rounds, ustarOpenHeader damagedArchive INITRD rounds [0x62] = none) ∧
    (∀ rounds, ustarDebugPrint damagedArchive INITRD rounds = none) ∧
    ¬Advances damagedArchive (headerLoop damagedArchive INITRD (OpenStops damagedArchive [0x62])) ∧
    ¬Advances damagedArchive (headerLoop damagedArchive INITRD (PrintStops damagedArchive)) := by
  have hfirst : add64 INITRD TAR_BLOCK_SIZE = INITRD + 512 := by decide
  have hstay : add64 (INITRD + 512) (realSize (parseSizeOf damagedArchive (INITRD + 512))) =
      INITRD + 512 := by decide +kernel
  have hzero : realSize (parseSizeOf damagedArchive (INITRD + 512)) = 0 := by decide +kernel
  have hopen : ¬OpenStops damagedArchive [0x62] (INITRD + 512) := by
    unfold OpenStops
    decide +kernel
  have hprint : damagedArchive (INITRD + 512) ≠ 0 := by decide
  have hnot : ∀ stop : Nat → Prop, ¬stop (INITRD + 512) →
      ¬Advances damagedArchive (headerLoop damagedArchive INITRD stop) := by
    intro stop hgo h
    have hmin := (h.forward (INITRD + 512) _ (.init hfirst.symm) ⟨hgo, rfl⟩).1
    rw [hzero] at hmin
    omega
  refine ⟨damagedArchive_byte, by decide +kernel, fun rounds => ?_, fun rounds => ?_,
    hnot _ hopen, hnot _ hprint⟩
  · rw [ustarOpenHeader, hfirst]
    exact walkHeaders_stuck hopen hstay rounds
  · rw [ustarDebugPrint, hfirst]
    exact printHeaders_stuck hprint hstay rounds

end GaOS.Bugs.ArchiveWalk
