import GaOS.Core.Words
import Mathlib.Logic.Function.Basic

/-!
# memmove

Model of `memmove` (kernel/src/misc/libc.c:45-66) on a memory of bytes, with addresses that
wrap at 2^64. The bytes are copied one after the other, in the direction that the order of the
pointers asks for.

`simultaneous` is what the function is for: every byte is read before any is written. Going
up (`copyUp_eq`), the bytes that are still to be read are above those that were written; going
down (`copyDown_eq`), below them.
-/
namespace GaOS.L0.Libc

/-- The byte at each address. -/
abbrev ByteMem := Nat → Nat

/-- The memory after the rounds `i = 0, ..., n - 1`.
mirrors kernel/src/misc/libc.c:52-55 -/
def copyUp (mem : ByteMem) (dest src : Nat) : Nat → ByteMem
  | 0 => mem
  | i + 1 =>
    let mem := copyUp mem dest src i
    Function.update mem (add64 dest i) (mem (add64 src i))

/-- The rounds `i = n, ..., 1`.
mirrors kernel/src/misc/libc.c:59-62 -/
def copyDown (dest src : Nat) : Nat → ByteMem → ByteMem
  | 0, mem => mem
  | i + 1, mem => copyDown dest src i (Function.update mem (add64 dest i) (mem (add64 src i)))

/-- The answer, and memory.
mirrors kernel/src/misc/libc.c:45-66 -/
def memmove (mem : ByteMem) (dest src n : Nat) : Nat × ByteMem :=
  if src > dest then (dest, copyUp mem dest src n)
  else if src < dest then (dest, copyDown dest src n mem)
  else (dest, mem)

/-- All bytes are read before any is written. -/
def simultaneous (mem : ByteMem) (dest src n : Nat) : ByteMem := fun a =>
  if dest ≤ a ∧ a < dest + n then mem (src + (a - dest)) else mem a

variable {mem : ByteMem} {dest src n : Nat}

theorem simultaneous_in {i : Nat} (h : i < n) :
    simultaneous mem dest src n (dest + i) = mem (src + i) := by
  rw [simultaneous, if_pos ⟨by omega, by omega⟩, Nat.add_sub_cancel_left]

theorem simultaneous_out {a : Nat} (h : a < dest ∨ dest + n ≤ a) :
    simultaneous mem dest src n a = mem a := if_neg (by omega)

theorem copyUp_eq (hup : dest < src) (hs : src + n ≤ 2 ^ 64) :
    copyUp mem dest src n = simultaneous mem dest src n := by
  induction n with
  | zero =>
    funext a
    exact (simultaneous_out (by omega)).symm
  | succ i ih =>
    have hdest : add64 dest i = dest + i := add64_of_lt (by omega)
    have hsrc : add64 src i = src + i := add64_of_lt (by omega)
    -- the byte at `src + i` is above everything that was written
    have hread : simultaneous mem dest src i (src + i) = mem (src + i) :=
      simultaneous_out (by omega)
    rw [copyUp, ih (by omega)]
    simp only [hdest, hsrc, hread]
    funext a
    rcases Nat.lt_trichotomy a (dest + i) with ha | rfl | ha
    · rw [Function.update_of_ne (by omega)]
      by_cases hin : dest ≤ a
      · obtain ⟨j, rfl⟩ := Nat.exists_eq_add_of_le hin
        rw [simultaneous_in (by omega), simultaneous_in (by omega)]
      · rw [simultaneous_out (by omega), simultaneous_out (by omega)]
    · rw [Function.update_self, simultaneous_in (by omega)]
    · rw [Function.update_of_ne (by omega), simultaneous_out (by omega),
        simultaneous_out (by omega)]

/-- Whatever the last `n - i` bytes of the destination are by now: the others are copied from
where they are, and they are where they were. -/
theorem copyDown_eq (hdown : src < dest) (hd : dest + n ≤ 2 ^ 64) :
    copyDown dest src n mem = simultaneous mem dest src n := by
  induction n generalizing mem with
  | zero =>
    funext a
    exact (simultaneous_out (by omega)).symm
  | succ i ih =>
    have hdest : add64 dest i = dest + i := add64_of_lt (by omega)
    have hsrc : add64 src i = src + i := add64_of_lt (by omega)
    rw [copyDown, ih (by omega), hdest, hsrc]
    funext a
    by_cases hin : dest ≤ a ∧ a < dest + i
    · obtain ⟨j, rfl⟩ := Nat.exists_eq_add_of_le hin.1
      -- the byte at `src + j` is below everything that was written
      rw [simultaneous_in (by omega), simultaneous_in (by omega),
        Function.update_of_ne (by omega)]
    · rw [simultaneous_out (by omega)]
      by_cases ha : a = dest + i
      · rw [ha, Function.update_self, simultaneous_in (by omega)]
      · rw [Function.update_of_ne ha, simultaneous_out (by omega)]

theorem simultaneous_self (mem : ByteMem) (a n : Nat) : simultaneous mem a a n = mem := by
  funext b
  by_cases hb : a ≤ b ∧ b < a + n
  · obtain ⟨i, rfl⟩ := Nat.exists_eq_add_of_le hb.1
    exact simultaneous_in (by omega)
  · exact simultaneous_out (by omega)

theorem memmove_eq (hs : src + n ≤ 2 ^ 64) (hd : dest + n ≤ 2 ^ 64) :
    memmove mem dest src n = (dest, simultaneous mem dest src n) := by
  rcases Nat.lt_trichotomy src dest with h | rfl | h
  · rw [memmove, if_neg (by omega), if_pos h, copyDown_eq h hd]
  · rw [memmove, if_neg (Nat.lt_irrefl _), if_neg (Nat.lt_irrefl _), simultaneous_self]
  · rw [memmove, if_pos h, copyUp_eq h hs]

/-- **A simultaneous copy**: however the two ranges overlap, each byte of the destination is
the one that was in its place in the source, and all the rest of memory is as it was. -/
theorem memmove_simultaneous (mem : ByteMem) (dest src n : Nat) (hs : src + n ≤ 2 ^ 64)
    (hd : dest + n ≤ 2 ^ 64) :
    (memmove mem dest src n).1 = dest ∧
      (∀ i, i < n → (memmove mem dest src n).2 (dest + i) = mem (src + i)) ∧
      ∀ a, (a < dest ∨ dest + n ≤ a) → (memmove mem dest src n).2 a = mem a := by
  rw [memmove_eq hs hd]
  exact ⟨rfl, fun i hi => simultaneous_in hi, fun a ha => simultaneous_out ha⟩

/-- Two bytes up, and two bytes down, in ranges of four. -/
theorem memmove_overlaps :
    ((memmove id 102 100 4).2 104 = 102 ∧ (memmove id 102 100 4).2 106 = 106) ∧
      ((memmove id 100 102 4).2 101 = 103 ∧ (memmove id 100 102 4).2 99 = 99) := by
  have hup := memmove_simultaneous id 102 100 4 (by decide) (by decide)
  have hdown := memmove_simultaneous id 100 102 4 (by decide) (by decide)
  exact ⟨⟨hup.2.1 2 (by decide), hup.2.2 106 (by decide)⟩,
    ⟨hdown.2.1 1 (by decide), hdown.2.2 99 (by decide)⟩⟩

end GaOS.L0.Libc
