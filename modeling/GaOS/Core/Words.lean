import Mathlib.Data.Nat.Bitwise

/-!
# 64-bit words on naturals, and word-addressed memory

A `uint64_t` / `size_t` / pointer is a `Nat`; every addition, subtraction and
multiplication that the code does on one goes through `add64`, `sub64` and
`mul64`, which reduce modulo 2^64 as C does. The `_of_lt` lemmas take the
reduction away where nothing wraps.

`Mem` is memory as the kernel sees it: a 64-bit word at each (8-byte aligned)
address.
-/
namespace GaOS

def add64 (a b : Nat) : Nat := (a + b) % 2 ^ 64
def sub64 (a b : Nat) : Nat := (a + (2 ^ 64 - b % 2 ^ 64)) % 2 ^ 64
def mul64 (a b : Nat) : Nat := a * b % 2 ^ 64
/-- `~x` on 64 bits. -/
def not64 (x : Nat) : Nat := 2 ^ 64 - (x + 1)

theorem add64_of_lt {a b : Nat} (h : a + b < 2 ^ 64) : add64 a b = a + b := Nat.mod_eq_of_lt h

theorem mul64_of_lt {a b : Nat} (h : a * b < 2 ^ 64) : mul64 a b = a * b := Nat.mod_eq_of_lt h

theorem sub64_of_le {a b : Nat} (h : b ≤ a) (ha : a < 2 ^ 64) : sub64 a b = a - b := by
  unfold sub64; omega

theorem add64_lt (a b : Nat) : add64 a b < 2 ^ 64 := Nat.mod_lt _ (by decide)

theorem add64_sub64 {a b : Nat} (ha : a < 2 ^ 64) : add64 (sub64 a b) b = a := by
  unfold sub64 add64; omega

/-! ## Bits -/

/-- `x & (1 << b)` is non-zero exactly when bit `b` is set. -/
theorem and_bit_ne_zero (x b : Nat) : x &&& 1 <<< b ≠ 0 ↔ x.testBit b = true := by
  rw [Nat.one_shiftLeft, Nat.and_two_pow]
  cases x.testBit b <;> simp

theorem testBit_or_bit (x b i : Nat) :
    (x ||| 1 <<< b).testBit i = (x.testBit i || decide (b = i)) := by
  rw [Nat.testBit_or, Nat.one_shiftLeft, Nat.testBit_two_pow]

theorem testBit_and_not_bit {x b i : Nat} (hb : b < 64) (hi : i < 64) :
    (x &&& not64 (1 <<< b)).testBit i = (x.testBit i && !decide (b = i)) := by
  have h : 1 <<< b < 2 ^ 64 := by
    rw [Nat.one_shiftLeft]; exact Nat.pow_lt_pow_right (by decide) hb
  rw [Nat.testBit_and, not64, Nat.testBit_two_pow_sub_succ h, Nat.one_shiftLeft,
    Nat.testBit_two_pow, decide_eq_true hi, Bool.true_and]

/-! ## Memory -/

/-- Address of an aligned word to its value. -/
abbrev Mem := Nat → Nat

/-- `*(uint64_t *)a = v`. -/
def Mem.store (m : Mem) (a v : Nat) : Mem := fun x => if x = a then v else m x

theorem Mem.store_self (m : Mem) (a v : Nat) : m.store a v a = v := if_pos rfl

theorem Mem.store_ne (m : Mem) {a x : Nat} (v : Nat) (h : x ≠ a) : m.store a v x = m x := if_neg h

theorem Mem.store_same (m : Mem) (a : Nat) : m.store a (m a) = m := by
  funext x
  by_cases hx : x = a
  · rw [hx, Mem.store_self]
  · rw [Mem.store_ne _ _ hx]

/-- `n` bytes at `a` set to zero. -/
def Mem.zero (m : Mem) (a n : Nat) : Mem := fun x => if a ≤ x ∧ x < a + n then 0 else m x

theorem Mem.zero_in (m : Mem) {a n x : Nat} (h1 : a ≤ x) (h2 : x < a + n) : m.zero a n x = 0 :=
  if_pos ⟨h1, h2⟩

theorem Mem.zero_out (m : Mem) {a n x : Nat} (h : x < a ∨ a + n ≤ x) : m.zero a n x = m x :=
  if_neg (by omega)

/-- `memcpy(dst, src, n)`. -/
def Mem.copy (m : Mem) (dst src n : Nat) : Mem :=
  fun x => if dst ≤ x ∧ x < dst + n then m (src + (x - dst)) else m x

theorem Mem.copy_in (m : Mem) {dst src n x : Nat} (h : x < n) :
    m.copy dst src n (dst + x) = m (src + x) := by
  unfold Mem.copy
  rw [if_pos ⟨Nat.le_add_right _ _, Nat.add_lt_add_left h _⟩, Nat.add_sub_cancel_left]

theorem Mem.copy_out (m : Mem) {dst src n x : Nat} (h : x < dst ∨ dst + n ≤ x) :
    m.copy dst src n x = m x := if_neg (by omega)

end GaOS
