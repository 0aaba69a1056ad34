import GaOS.L4Files.Ustar

/-!
# Reads that go past the end of a file

`ustar_read` (kernel/src/filesystem/ustar.c:118-139) cuts the size it is asked for
to the size of the file, whatever the position is, and does so with
`int min(int, int)`, which takes both modulo 2^32 as signed numbers.

* The comment at line 130 says that the size is mapped to fit the file, but the test
  before it is the one of line 124, after which the function has returned. So a read
  that starts inside of the file and asks for more than is left copies what follows
  the file in the archive, and leaves the seek position behind `max_seek_position`.
* A size of 2^31 or more can come out negative or too small.

`reads_right_iff_fit` is the exact condition. For files and sizes below 2^31 it says
that every read starts at zero or asks for no more than is left (`readFits_iff_small`).

Counterexample: a file of 10 bytes, seek to 4, read 8: two bytes too many.

Fix: `size = size < left ? size : left` with `left = node_size - node->seek_position`,
in `size_t`.
-/
namespace GaOS.Bugs.UstarRead

open GaOS.L4.Ustar

/-! ## What should hold -/

/-- Reads one after the other: what each of them copies, and the node at the end. -/
def readSizes : Node → List Nat → Option (List Copy × Node)
  | node, [] => some ([], node)
  | node, size :: sizes => do
    let (_, copy, node) ← ustarRead node size
    let (copies, node) ← readSizes node sizes
    return (copy :: copies, node)

/-- What is in the buffer after a read. -/
def buffer (file : File) (copy : Copy) : List Nat :=
  (List.range copy.count).map fun i => file.image (copy.position + i)

/-- The bytes of the file from `p` on, up to `q`. -/
def slice (file : File) (p q : Nat) : List Nat :=
  (List.range (q - p)).map fun i => file.image (p + i)

/-- The bytes that a read of `size` bytes should copy. -/
def count (node : Node) (size : Nat) : Nat := min size (node.file.size - node.seekPosition)

/-- The node after such a read. -/
def moved (node : Node) (size : Nat) : Node :=
  { node with seekPosition := node.seekPosition + count node size }

/-- A read in the file copies as much as is asked for and left, answers with that
length and moves on by it. -/
def ReadRight (node : Node) (size : Nat) : Prop :=
  node.seekPosition < node.file.size →
    ustarRead node size =
      some ((count node size : Int), ⟨node.seekPosition, count node size⟩, moved node size)

structure ReadsRight (node : Node) (sizes : List Nat) : Prop where
  each : ∀ before size after copies node', sizes = before ++ size :: after →
    readSizes node before = some (copies, node') → ReadRight node' size
  whole : ∃ copies node', readSizes node sizes = some (copies, node') ∧
    copies.flatMap (buffer node.file) = slice node.file node.seekPosition node'.seekPosition ∧
    (∀ copy ∈ copies, copy.position + copy.count ≤ node.file.size) ∧
    node'.seekPosition ≤ node'.maxSeekPosition

/-! ## The condition -/

/-- A read of `size` bytes at `q` in a file of `total` bytes: neither size is negative
as an `int`, and

* the file has enough left, and neither size is cut, or
* the file has less left, and that is the lesser one of the cut sizes. -/
def ReadFits (total q size : Nat) : Prop :=
  total % 2 ^ 32 < 2 ^ 31 ∧ size % 2 ^ 32 < 2 ^ 31 ∧
    (size ≤ total - q ∧ size < 2 ^ 31 ∧ size ≤ total % 2 ^ 32 ∨
      total - q < size ∧ (total - q = total % 2 ^ 32 ∧ total % 2 ^ 32 ≤ size % 2 ^ 32 ∨
        total - q = size % 2 ^ 32 ∧ size % 2 ^ 32 ≤ total % 2 ^ 32))

/-- All reads that start in the file fit. -/
def AllFit (total : Nat) : Nat → List Nat → Prop
  | _, [] => True
  | q, size :: sizes =>
    (q < total → ReadFits total q size) ∧ AllFit total (q + min size (total - q)) sizes

/-- Below 2 GiB. -/
theorem readFits_iff_small {total q size : Nat} (ht : total < 2 ^ 31) (hs : size < 2 ^ 31)
    (hq : q < total) : ReadFits total q size ↔ size ≤ total - q ∨ q = 0 := by
  unfold ReadFits
  omega

theorem minInt_nat (a b : Nat) :
    minInt a b = if a % 2 ^ 32 < 2 ^ 31 ∧ b % 2 ^ 32 < 2 ^ 31 then
        ((min (a % 2 ^ 32) (b % 2 ^ 32) : Nat) : Int)
      else min (toInt32 a) (toInt32 b) := by
  unfold minInt
  rw [toInt32_nat, toInt32_nat]
  split <;> split <;> split <;> omega

/-- The clamped size is the right one exactly if the read fits. -/
theorem minInt_eq_iff {total q size : Nat} (hq : q < total) :
    minInt total size = ((min size (total - q) : Nat) : Int) ↔ ReadFits total q size := by
  unfold ReadFits
  rw [minInt_nat, toInt32_nat, toInt32_nat]
  split
  · omega
  · split <;> split <;> omega

/-- **Per read.** -/
theorem readRight_iff_fits {node : Node} {size : Nat} (hlt : node.file.size < 2 ^ 64)
    (hq : node.seekPosition < node.file.size) :
    ReadRight node size ↔ ReadFits node.file.size node.seekPosition size := by
  have hcount : node.seekPosition + count node size ≤ node.file.size := by
    unfold count
    omega
  rw [← minInt_eq_iff hq]
  change _ ↔ minInt node.file.size size = (count node size : Int)
  constructor
  · intro h
    have h := h hq
    unfold ustarRead at h
    rw [if_neg (by omega)] at h
    split at h
    · cases h
    · exact (Prod.mk.inj (Option.some.inj h)).1
  · intro h _
    unfold ustarRead
    simp only [h]
    rw [if_neg (by omega), if_neg (by omega), Int.toNat_natCast, add64_of_lt (by omega)]
    rfl

/-! ## Runs of reads -/

/-- At the end of the file nothing is copied. -/
theorem ustarRead_end {node : Node} (h : node.file.size ≤ node.seekPosition) (size : Nat) :
    ustarRead node size = some (-EINVAL, ⟨node.seekPosition, 0⟩, node) := by
  unfold ustarRead
  rw [if_pos h]

theorem moved_end {node : Node} (h : node.file.size ≤ node.seekPosition) (size : Nat) :
    moved node size = node := by
  unfold moved count
  rw [Nat.sub_eq_zero_of_le h, Nat.min_zero, Nat.add_zero]

/-- A right read, in the file or at its end. -/
theorem ReadRight.step {node : Node} {size : Nat} (h : ReadRight node size) :
    ∃ answer, ustarRead node size =
      some (answer, ⟨node.seekPosition, count node size⟩, moved node size) := by
  rcases Nat.lt_or_ge node.seekPosition node.file.size with hq | hq
  · exact ⟨_, h hq⟩
  · refine ⟨-EINVAL, ?_⟩
    rw [ustarRead_end hq, moved_end hq]
    unfold count
    rw [Nat.sub_eq_zero_of_le hq, Nat.min_zero]

theorem slice_append {file : File} {p q r : Nat} (h1 : p ≤ q) (h2 : q ≤ r) :
    slice file p q ++ slice file q r = slice file p r := by
  unfold slice
  rw [show r - p = (q - p) + (r - q) by omega, List.range_add, List.map_append, List.map_map]
  congr 1
  apply List.map_congr_left
  intro i _
  rw [Function.comp, ← Nat.add_assoc, Nat.add_sub_cancel' h1]

theorem readSizes_cons {node : Node} {size : Nat} (h : ReadRight node size) (sizes : List Nat) :
    readSizes node (size :: sizes) = (readSizes (moved node size) sizes).map
      fun r => (⟨node.seekPosition, count node size⟩ :: r.1, r.2) := by
  obtain ⟨answer, hread⟩ := h.step
  rw [readSizes, hread]
  simp only [Option.bind_eq_bind, Option.bind_some]
  cases readSizes (moved node size) sizes with
  | none => rfl
  | some r => rfl

/-- Reads that all fit give the file. -/
theorem reads_whole {sizes : List Nat} : ∀ node : Node, node.file.size < 2 ^ 64 →
    node.maxSeekPosition = node.file.size → node.seekPosition ≤ node.file.size →
    AllFit node.file.size node.seekPosition sizes →
    ∃ copies node', readSizes node sizes = some (copies, node') ∧
      copies.flatMap (buffer node.file) = slice node.file node.seekPosition node'.seekPosition ∧
      (∀ copy ∈ copies, copy.position + copy.count ≤ node.file.size) ∧
      node.seekPosition ≤ node'.seekPosition ∧ node'.seekPosition ≤ node'.maxSeekPosition := by
  induction sizes with
  | nil =>
    intro node _ hmax hq _
    refine ⟨[], node, rfl, ?_, nofun, Nat.le_refl _, hmax ▸ hq⟩
    rw [slice, Nat.sub_self]
    rfl
  | cons size sizes ih =>
    intro node hlt hmax hq hfit
    have hright : ReadRight node size := fun h => (readRight_iff_fits hlt h).mpr (hfit.1 h) h
    have hcount : node.seekPosition + count node size ≤ node.file.size := by
      unfold count
      omega
    obtain ⟨copies, node', hread, hbytes, hin, h1, h2⟩ :=
      ih (moved node size) hlt hmax hcount hfit.2
    refine ⟨⟨node.seekPosition, count node size⟩ :: copies, node', ?_, ?_, ?_, ?_, h2⟩
    · rw [readSizes_cons hright, hread]
      rfl
    · have hhead : buffer node.file ⟨node.seekPosition, count node size⟩ =
          slice node.file node.seekPosition (moved node size).seekPosition := by
        unfold buffer slice moved
        simp only [Nat.add_sub_cancel_left]
      rw [List.flatMap_cons, hhead]
      rw [show (moved node size).file = node.file from rfl] at hbytes
      rw [hbytes]
      exact slice_append (Nat.le_add_right _ _) h1
    · intro copy hmem
      rcases List.mem_cons.mp hmem with rfl | hmem
      · exact hcount
      · exact hin copy hmem
    · exact Nat.le_trans (Nat.le_add_right _ _) h1

/-- What a run of reads that fit so far leaves behind. -/
theorem each_of_allFit {before : List Nat} : ∀ (node : Node) {node' : Node} {size : Nat}
    {after : List Nat} {copies : List Copy}, node.file.size < 2 ^ 64 →
    AllFit node.file.size node.seekPosition (before ++ size :: after) →
    readSizes node before = some (copies, node') → ReadRight node' size := by
  induction before with
  | nil =>
    intro node node' size after copies hlt hfit hread h
    cases hread
    exact (readRight_iff_fits hlt h).mpr (hfit.1 h) h
  | cons first before ih =>
    intro node node' size after copies hlt hfit hread
    have hright : ReadRight node first := fun h => (readRight_iff_fits hlt h).mpr (hfit.1 h) h
    rw [readSizes_cons hright, Option.map_eq_some_iff] at hread
    obtain ⟨⟨copies', node''⟩, hread, he⟩ := hread
    cases he
    exact ih (moved node first) hlt hfit.2 hread

theorem allFit_of_each {sizes : List Nat} : ∀ node : Node, node.file.size < 2 ^ 64 →
    (∀ before size after copies node', sizes = before ++ size :: after →
      readSizes node before = some (copies, node') → ReadRight node' size) →
    AllFit node.file.size node.seekPosition sizes := by
  induction sizes with
  | nil =>
    intro node _ _
    trivial
  | cons size sizes ih =>
    intro node hlt heach
    have hright : ReadRight node size := heach [] size sizes [] node rfl rfl
    refine ⟨fun h => (readRight_iff_fits hlt h).mp hright, ?_⟩
    apply ih (moved node size) hlt
    intro before size' after copies node' hsizes hread
    refine heach (size :: before) size' after (⟨node.seekPosition, count node size⟩ :: copies) node'
      (by rw [hsizes]; rfl) ?_
    rw [readSizes_cons hright, hread]
    rfl

/-- **When sequential reads return the file.** For every file, every position in it
that a seek starts from and every list of sizes: the reads copy the file from there
on, stay in it, answer with the lengths and leave the position in the file exactly if
every read that starts in the file fits. -/
theorem reads_right_iff_fit {node : Node} (hmax : node.maxSeekPosition = node.file.size)
    (hlt : node.file.size < 2 ^ 64) {p : Nat} (hp : p < node.file.size) (sizes : List Nat) :
    ReadsRight (ustarLseek node p SEEK_SET).2 sizes ↔ AllFit node.file.size p sizes := by
  have hseek : (ustarLseek node p SEEK_SET).2 = { node with seekPosition := p } := by
    rw [seek_set (Nat.lt_trans hp hlt), hmax, Nat.min_eq_left (Nat.le_of_lt hp)]
  rw [hseek]
  constructor
  · intro h
    exact allFit_of_each { node with seekPosition := p } hlt h.each
  · intro h
    refine ⟨fun before size after copies node' hsizes hread => ?_, ?_⟩
    · subst hsizes
      exact each_of_allFit { node with seekPosition := p } hlt h hread
    · obtain ⟨copies, node', hread, hbytes, hin, -, hend⟩ :=
        reads_whole { node with seekPosition := p } hlt hmax (Nat.le_of_lt hp) h
      exact ⟨copies, node', hread, hbytes, hin, hend⟩

/-! ## Counterexample -/

/-- Ten bytes, with others behind them. -/
def tenBytes : File where
  size := 10
  image i := i % 256
  byte i := Nat.mod_lt _ (by decide)

def tenNode : Node := ⟨tenBytes, 0, 10⟩

/-- Reads of 4 and 3 bytes from the third byte on. -/
theorem reads_right_ten : ReadsRight (ustarLseek tenNode 3 SEEK_SET).2 [4, 3] := by
  apply (reads_right_iff_fit rfl (by decide) (by decide) [4, 3]).mpr
  refine ⟨fun _ => ?_, fun _ => ?_, trivial⟩
  · exact (readFits_iff_small (by decide) (by decide) (by decide)).mpr (.inl (by decide))
  · exact (readFits_iff_small (by decide) (by decide) (by decide)).mpr (.inl (by decide))

theorem tenNode_read : ustarRead (ustarLseek tenNode 4 SEEK_SET).2 8 =
    some (8, ⟨4, 8⟩, { tenNode with seekPosition := 12 }) := by
  have hseek : (ustarLseek tenNode 4 SEEK_SET).2 = { tenNode with seekPosition := 4 } :=
    @seek_set tenNode 4 (by decide)
  have hmin : minInt 10 8 = 8 := by decide
  rw [hseek]
  simp [ustarRead, tenNode, tenBytes, hmin, add64]

/-- **A read past the end.** Of a file of ten bytes, from position 4 on, eight bytes
are copied where six are left, and the position ends up at 12. -/
theorem read_past_end : ustarRead (ustarLseek tenNode 4 SEEK_SET).2 8 =
      some (8, ⟨4, 8⟩, { tenNode with seekPosition := 12 }) ∧
    ¬ReadsRight (ustarLseek tenNode 4 SEEK_SET).2 [8] := by
  refine ⟨tenNode_read, fun h => ?_⟩
  obtain ⟨copies, node', hread, -, -, hend⟩ := h.whole
  rw [readSizes, tenNode_read] at hread
  cases hread
  exact absurd hend (by decide)

end GaOS.Bugs.UstarRead
