import GaOS.Core.Bytes

/-!
# Reading files of the initial ramdisk

Model of `ustar_read` and `ustar_lseek` (kernel/src/filesystem/ustar.c:118-153).
A file is the bytes after its header in the archive. They are never written, so
`File.image` is a function; past `size` it goes on with what follows in the
archive, which `ustar_read` can reach.

`size_t` sizes are passed through `int min(int, int)`
(kernel/src/misc/libc.h:191-196), which cuts them to 32 bits. A negative result
is a huge `size_t` again, and `memcpy` then runs over all of memory: `none`.
-/
namespace GaOS.L4.Ustar

/-! ## The helpers
mirrors kernel/src/misc/libc.h:191-209 -/

/-- `int min(int a, int b)` -/
def minInt (a b : Int) : Int := if toInt32 a > toInt32 b then toInt32 b else toInt32 a

/-- `int abs(int a)`; `-INT_MIN` overflows. -/
def absInt (a : Int) : Option Int :=
  if toInt32 a = -2 ^ 31 then none
  else some (if toInt32 a < 0 then -toInt32 a else toInt32 a)

def EINVAL : Int := 22

def SEEK_SET : Int := 0
def SEEK_CUR : Int := 1
def SEEK_END : Int := 2

/-! ## Nodes -/

/-- A header of the archive and what comes after it. -/
structure File where
  /-- `parse_size_of(header)` -/
  size : Nat
  image : Nat → Nat
  byte : ∀ i, image i < 256

/-- Zeros are bytes. -/
theorem zero_byte : ∀ i : Nat, (fun _ => 0 : Nat → Nat) i < 256 := fun _ => Nat.succ_pos 255

/-- What reading and seeking use of a `ustar_node_t`. -/
structure Node where
  file : File
  seekPosition : Nat
  maxSeekPosition : Nat

/-- What a read copies: `count` bytes of the image from `position` on. -/
structure Copy where
  position : Nat
  count : Nat
  deriving DecidableEq, Repr

/-- The answer, the bytes that are copied to the buffer, and the node.
mirrors kernel/src/filesystem/ustar.c:118-139 -/
def ustarRead (node : Node) (size : Nat) : Option (Int × Copy × Node) :=
  let size := minInt node.file.size size
  if node.file.size ≤ node.seekPosition then some (-EINVAL, ⟨node.seekPosition, 0⟩, node)
  else if size < 0 then none
  else some (size, ⟨node.seekPosition, size.toNat⟩,
    { node with seekPosition := add64 node.seekPosition size.toNat })

/-- mirrors kernel/src/filesystem/ustar.c:141-153 -/
def ustarLseek (node : Node) (offset whence : Int) : Int × Node :=
  let seekPosition :=
    if whence = SEEK_SET then (offset % 2 ^ 64).toNat
    else if whence = SEEK_CUR then ((node.seekPosition + offset) % 2 ^ 64).toNat
    else if whence = SEEK_END then ((node.maxSeekPosition + offset) % 2 ^ 64).toNat
    else node.seekPosition
  let seekPosition :=
    if node.maxSeekPosition < seekPosition then node.maxSeekPosition else seekPosition
  (toInt64 seekPosition, { node with seekPosition := seekPosition })

/-! ## Reading at an offset -/

/-- `vfs_lseek(node, offset, SEEK_SET); vfs_read(node, ..., size)`. The position that
is left behind does not matter to the next one. -/
def readAt (node : Node) (offset size : Nat) : Option Copy :=
  (ustarRead (ustarLseek node offset SEEK_SET).2 size).map fun (_, copy, _) => copy

theorem toInt32_nat (a : Nat) :
    toInt32 a = if a % 2 ^ 32 < 2 ^ 31 then (a : Int) % 2 ^ 32 else (a : Int) % 2 ^ 32 - 2 ^ 32 := by
  rw [toInt32, Int.bmod_def]
  split <;> split <;> omega

theorem minInt_eq {a b : Nat} (ha : a % 2 ^ 32 < 2 ^ 31) (hb : b < 2 ^ 31) :
    minInt a b = (min (a % 2 ^ 32) b : Nat) := by
  unfold minInt
  rw [toInt32_nat, if_pos ha, toInt32_of_lt (by omega) (by omega)]
  split <;> omega

theorem seek_set {node : Node} {offset : Nat} (h : offset < 2 ^ 64) :
    (ustarLseek node offset SEEK_SET).2 =
      { node with seekPosition := min offset node.maxSeekPosition } := by
  have hmod : (((offset : Int)) % 2 ^ 64).toNat = offset := by omega
  unfold ustarLseek
  simp only [if_true, hmod]
  congr 1
  split <;> omega

theorem readAt_eq {node : Node} {offset size : Nat} (ho : offset < 2 ^ 64)
    (hf : node.file.size % 2 ^ 32 < 2 ^ 31) (hs : size < 2 ^ 31) :
    readAt node offset size = some ⟨min offset node.maxSeekPosition,
      if node.file.size ≤ min offset node.maxSeekPosition then 0
      else min (node.file.size % 2 ^ 32) size⟩ := by
  unfold readAt ustarRead
  rw [seek_set ho]
  simp only [minInt_eq hf hs]
  by_cases hend : node.file.size ≤ min offset node.maxSeekPosition
  · rw [if_pos hend, if_pos hend]
    rfl
  · rw [if_neg hend, if_neg hend, if_neg (by omega)]
    rfl

/-- A file whose size is negative as an `int` cannot be read. -/
theorem readAt_size {node : Node} {size : Nat} {copy : Copy} (hf : 0 < node.file.size)
    (h : readAt node 0 size = some copy) : node.file.size % 2 ^ 32 < 2 ^ 31 := by
  by_contra hneg
  have hint : toInt32 node.file.size = (node.file.size : Int) % 2 ^ 32 - 2 ^ 32 := by
    rw [toInt32_nat, if_neg hneg]
  have hmin : minInt node.file.size size < 0 := by
    unfold minInt
    split <;> omega
  have hseek := @seek_set node 0 (by decide)
  rw [readAt, ustarRead, hseek] at h
  simp only [Nat.zero_min] at h
  rw [if_neg (by omega), if_pos hmin] at h
  cases h

/-- At most `size` bytes are copied. -/
theorem readAt_count {node : Node} {offset size : Nat} {copy : Copy} (hs : size < 2 ^ 31)
    (h : readAt node offset size = some copy) : copy.count ≤ size := by
  unfold readAt at h
  rw [Option.map_eq_some_iff] at h
  obtain ⟨⟨answer, c, n⟩, hr, rfl⟩ := h
  generalize (ustarLseek node offset SEEK_SET).2 = n' at hr
  simp only [ustarRead] at hr
  split at hr
  · cases hr
    exact Nat.zero_le _
  · split at hr
    · cases hr
    · simp only [Option.some.injEq, Prod.mk.injEq] at hr
      obtain ⟨-, rfl, -⟩ := hr
      have hint : toInt32 (size : Int) = size := toInt32_of_lt (by omega) (by omega)
      simp only [minInt, hint]
      split <;> omega

end GaOS.L4.Ustar
