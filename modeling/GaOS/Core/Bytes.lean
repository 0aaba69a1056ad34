import GaOS.Core.Words

/-!
# Bytes of word-addressed memory

`byteAt` is a byte of the word that holds it, little-endian, and
`Mem.writeBytes` a `memcpy` from outside of memory to an aligned address: whole
words, and at the end the low bytes of one. `byteAt_writeBytes` is all that is
needed of it.

C's `int` and `ssize_t` come in here too: a value that is passed as one of them is
reduced to its low 32 or 64 bits, as a signed number.
-/
namespace GaOS

/-- The byte at `a`, little-endian. -/
def byteAt (mem : Mem) (a : Nat) : Nat := mem (a / 8 * 8) / 256 ^ (a % 8) % 256

/-- The word with the bytes `c 0`, ..., `c 7`. -/
def wordOf (c : Nat → Nat) : Nat :=
  c 0 + 256 * (c 1 + 256 * (c 2 + 256 * (c 3 + 256 * (c 4 + 256 * (c 5 + 256 * (c 6 + 256 * c 7))))))

/-- `memcpy(a, data, n)` for an aligned `a`. -/
def Mem.writeBytes (m : Mem) (a n : Nat) (data : Nat → Nat) : Mem := fun x =>
  if a ≤ x ∧ x < a + n then
    wordOf fun j => if x + j < a + n then data (x + j - a) else byteAt m (x + j)
  else m x

theorem byteAt_lt (mem : Mem) (a : Nat) : byteAt mem a < 256 := Nat.mod_lt _ (by decide)

theorem byte_wordOf {c : Nat → Nat} (hc : ∀ j, c j < 256) {k : Nat} (hk : k < 8) :
    wordOf c / 256 ^ k % 256 = c k := by
  have h0 := hc 0; have h1 := hc 1; have h2 := hc 2; have h3 := hc 3
  have h4 := hc 4; have h5 := hc 5; have h6 := hc 6; have h7 := hc 7
  unfold wordOf
  match k, hk with
  | 0, _ => omega
  | 1, _ => omega
  | 2, _ => omega
  | 3, _ => omega
  | 4, _ => omega
  | 5, _ => omega
  | 6, _ => omega
  | 7, _ => omega

theorem byteAt_congr {m m' : Mem} {a : Nat} (h : m' (a / 8 * 8) = m (a / 8 * 8)) :
    byteAt m' a = byteAt m a := by
  unfold byteAt; rw [h]

theorem byteAt_writeBytes (m : Mem) {a n : Nat} {data : Nat → Nat} (ha : a % 8 = 0)
    (hd : ∀ k, data k < 256) (y : Nat) :
    byteAt (m.writeBytes a n data) y =
      if a ≤ y ∧ y < a + n then data (y - a) else byteAt m y := by
  have hc : ∀ x j, (if x + j < a + n then data (x + j - a) else byteAt m (x + j)) < 256 := by
    intro x j
    split
    · exact hd _
    · exact byteAt_lt _ _
  by_cases hw : a ≤ y / 8 * 8 ∧ y / 8 * 8 < a + n
  · have hy : y / 8 * 8 + y % 8 = y := by omega
    rw [byteAt, Mem.writeBytes, if_pos hw, byte_wordOf (hc _) (Nat.mod_lt _ (by decide))]
    simp only [hy]
    by_cases hin : y < a + n
    · rw [if_pos hin, if_pos ⟨by omega, hin⟩]
    · rw [if_neg hin, if_neg fun h => hin h.2]
  · rw [byteAt, Mem.writeBytes, if_neg hw, if_neg fun h => hw (by omega)]
    rfl

theorem Mem.writeBytes_out (m : Mem) {a n x : Nat} (data : Nat → Nat) (h : x < a ∨ a + n ≤ x) :
    m.writeBytes a n data x = m x := if_neg (by omega)

/-! ## Signed numbers -/

/-- The conversion to `int`. -/
def toInt32 (x : Int) : Int := Int.bmod x (2 ^ 32)

theorem toInt32_of_lt {x : Int} (h1 : -2 ^ 31 ≤ x) (h2 : x < 2 ^ 31) : toInt32 x = x := by
  unfold toInt32; rw [Int.bmod_def]; omega

/-- The conversion to `int64_t` or `ssize_t`. -/
def toInt64 (x : Int) : Int := Int.bmod x (2 ^ 64)

theorem toInt64_nat {a : Nat} (h : a < 2 ^ 64) :
    toInt64 a = if a < 2 ^ 63 then (a : Int) else (a : Int) - 2 ^ 64 := by
  rw [toInt64, Int.bmod_def]
  split <;> split <;> omega

end GaOS
