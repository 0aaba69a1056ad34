import GaOS.L4Files.Ustar

/-!
# Seeks to before the start of a file

`ustar_lseek` (kernel/src/filesystem/ustar.c:141-153) adds a signed offset to an
unsigned position and then only cuts the result at `max_seek_position`.

* A target before the start of the file wraps to a huge position, which the cut takes
  to the end of the file. The answer is the size of the file where it should be an
  error, and the position has moved. `ustar_read` answers an invalid position with
  `-EINVAL` (line 124); here there is no such answer.
* A target of 2^64 or more wraps to a small position, which the cut does not see.
* A position of 2^63 or more is negative as the `ssize_t` that is returned. The size
  field of an archive can give such a size.

`seek_right_iff` is the exact condition. For files below 2^63 bytes it says that the
target is not before the start of the file (`targetFits_iff_small`).

Counterexample: a file of 10 bytes, `lseek(fd, -1, SEEK_SET)`: the answer is 10.

Fix: compute the target as a signed number, answer `-EINVAL` if it is negative or
overflows, and store it only after that.
-/
namespace GaOS.Bugs.SeekTarget

open GaOS.L4.Ustar

/-! ## What should hold -/

/-- Where a seek counts from. -/
def base (node : Node) (whence : Int) : Nat :=
  if whence = SEEK_CUR then node.seekPosition
  else if whence = SEEK_END then node.maxSeekPosition
  else 0

/-- The target of a seek, as an exact integer. -/
def target (node : Node) (offset whence : Int) : Int := base node whence + offset

/-- The position for a target from 0 on. -/
def clamp (node : Node) (target : Int) : Nat := min target.toNat node.maxSeekPosition

/-- A seek goes to its target, or to the end of the file if that is nearer; for a
target before the start it is an error that changes nothing. -/
structure SeekRight (node : Node) (offset whence : Int) : Prop where
  reached : 0 ≤ target node offset whence →
    ustarLseek node offset whence = ((clamp node (target node offset whence) : Int),
      { node with seekPosition := clamp node (target node offset whence) })
  refused : target node offset whence < 0 →
    (ustarLseek node offset whence).1 < 0 ∧ (ustarLseek node offset whence).2 = node

/-! ## The condition -/

/-- The target is a `size_t` and the position an `ssize_t`; or the target is before
the start, and the position was already the one that the wrapped target is cut to,
in a file so large that this is negative as an `ssize_t`. -/
def TargetFits (node : Node) (target : Int) : Prop :=
  (0 ≤ target ∧ target < 2 ^ 64 ∧ clamp node target < 2 ^ 63) ∨
    (target < 0 ∧ 2 ^ 63 ≤ node.seekPosition ∧ node.seekPosition = clamp node (target + 2 ^ 64))

/-- In a file that an `ssize_t` can count, the target is all that matters. -/
theorem targetFits_iff_small {node : Node} {t : Int}
    (hseek : node.seekPosition ≤ node.maxSeekPosition) (hmax : node.maxSeekPosition < 2 ^ 63)
    (ht : t < 2 ^ 64) : TargetFits node t ↔ 0 ≤ t := by
  unfold TargetFits clamp
  omega

/-- Where a seek leaves the node: at the target modulo 2^64, cut at the end. -/
theorem ustarLseek_eq {node : Node} {offset whence : Int}
    (hwhence : whence ∈ [SEEK_SET, SEEK_CUR, SEEK_END]) :
    ustarLseek node offset whence =
      (toInt64 (clamp node (target node offset whence % 2 ^ 64)),
        { node with seekPosition := clamp node (target node offset whence % 2 ^ 64) }) := by
  have hcut : ∀ q max : Nat, (if max < q then max else q) = min q max := by
    intro q max
    split <;> omega
  simp only [List.mem_cons, List.not_mem_nil, or_false] at hwhence
  unfold ustarLseek clamp target base
  simp only [hcut]
  rcases hwhence with rfl | rfl | rfl
  · simp [SEEK_SET, SEEK_CUR, SEEK_END]
  · simp [SEEK_SET, SEEK_CUR]
  · simp [SEEK_SET, SEEK_CUR, SEEK_END]

/-- No target is further than 2^63 from the file. -/
theorem target_bounds {node : Node} {offset : Int} (whence : Int)
    (hseek : node.seekPosition ≤ node.maxSeekPosition)
    (hoff : -2 ^ 63 ≤ offset) (hoff' : offset < 2 ^ 63) :
    -2 ^ 63 ≤ target node offset whence ∧
      target node offset whence < node.maxSeekPosition + 2 ^ 63 := by
  have hbase : base node whence ≤ node.maxSeekPosition := by
    unfold base
    split
    · exact hseek
    · split <;> omega
  unfold target
  omega

/-- A target from 0 on is reached exactly if it and the position fit. -/
theorem reached_iff {node : Node} {offset whence : Int} (hmax : node.maxSeekPosition < 2 ^ 64)
    (hwhence : whence ∈ [SEEK_SET, SEEK_CUR, SEEK_END]) (h0 : 0 ≤ target node offset whence)
    (hlt : target node offset whence < node.maxSeekPosition + 2 ^ 63) :
    ustarLseek node offset whence = ((clamp node (target node offset whence) : Int),
        { node with seekPosition := clamp node (target node offset whence) }) ↔
      TargetFits node (target node offset whence) := by
  rw [ustarLseek_eq hwhence]
  generalize target node offset whence = t at h0 hlt
  have hle : clamp node (t % 2 ^ 64) < 2 ^ 64 := by
    unfold clamp
    omega
  rw [toInt64_nat hle]
  simp only [Prod.mk.injEq, Node.mk.injEq, true_and, and_true]
  unfold TargetFits
  by_cases hfits : t < 2 ^ 64
  · rw [Int.emod_eq_of_lt h0 hfits]
    split <;> omega
  · -- The target wraps to inside of the file, where it should be cut at the end.
    unfold clamp
    split <;> omega

/-- A target before the start is refused only by the accident of the condition. -/
theorem refused_iff {node : Node} {offset whence : Int} (hmax : node.maxSeekPosition < 2 ^ 64)
    (hwhence : whence ∈ [SEEK_SET, SEEK_CUR, SEEK_END]) (hneg : target node offset whence < 0)
    (hge : -2 ^ 63 ≤ target node offset whence) :
    ((ustarLseek node offset whence).1 < 0 ∧ (ustarLseek node offset whence).2 = node) ↔
      TargetFits node (target node offset whence) := by
  rw [ustarLseek_eq hwhence]
  generalize target node offset whence = t at hneg hge
  have hwrap : t % 2 ^ 64 = t + 2 ^ 64 := by omega
  have hle : clamp node (t + 2 ^ 64) < 2 ^ 64 := by
    unfold clamp
    omega
  have hnode : ∀ q, { node with seekPosition := q } = node ↔ q = node.seekPosition := by
    intro q
    exact ⟨fun h => by rw [← h], fun h => by rw [h]⟩
  rw [hwrap, toInt64_nat hle, hnode]
  unfold TargetFits
  split <;> omega

/-- **When seeking obeys its target.** For every node with its position inside of the
file, every `ssize_t` offset and each of the three values of `whence`. -/
theorem seek_right_iff {node : Node} {offset whence : Int}
    (hseek : node.seekPosition ≤ node.maxSeekPosition) (hmax : node.maxSeekPosition < 2 ^ 64)
    (hoff : -2 ^ 63 ≤ offset) (hoff' : offset < 2 ^ 63)
    (hwhence : whence ∈ [SEEK_SET, SEEK_CUR, SEEK_END]) :
    SeekRight node offset whence ↔ TargetFits node (target node offset whence) := by
  obtain ⟨hge, hlt⟩ := target_bounds whence hseek hoff hoff'
  by_cases h0 : 0 ≤ target node offset whence
  · rw [← reached_iff hmax hwhence h0 hlt]
    exact ⟨fun h => h.reached h0, fun h => ⟨fun _ => h, fun hneg => absurd h0 (by omega)⟩⟩
  · have hneg : target node offset whence < 0 := by omega
    rw [← refused_iff hmax hwhence hneg hge]
    exact ⟨fun h => h.refused hneg, fun h => ⟨fun hpos => absurd hpos h0, fun _ => h⟩⟩

/-! ## A file of ten bytes -/

/-- A file of zeros that was just opened. -/
def zeros : Node :=
  { file := { size := 10, image := fun _ => 0, byte := zero_byte }
    seekPosition := 0
    maxSeekPosition := 10 }

/-- Four bytes before the end. -/
theorem seek_right_zeros : SeekRight zeros (-4) SEEK_END := by
  apply (seek_right_iff _ _ _ _ _).mpr
  · exact (targetFits_iff_small (by decide) (by decide) (by decide)).mpr (by decide)
  · decide
  · decide
  · decide
  · decide
  · decide

/-- **Counterexample**: a seek to one byte before the start goes to the end of the
file and answers with its size. -/
theorem seek_before_start : (ustarLseek zeros (-1) SEEK_SET).1 = 10 ∧
    (ustarLseek zeros (-1) SEEK_SET).2.seekPosition = 10 ∧ ¬SeekRight zeros (-1) SEEK_SET := by
  have hanswer : (ustarLseek zeros (-1) SEEK_SET).1 = 10 := by decide
  refine ⟨hanswer, by decide, fun h => ?_⟩
  have hneg := (h.refused (by decide)).1
  rw [hanswer] at hneg
  exact absurd hneg (by decide)

end GaOS.Bugs.SeekTarget
