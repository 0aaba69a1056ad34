import GaOS.L4Files.PathParts

/-!
# Directory and base name in large buffers

`vfs_dirname` and `vfs_basename` (kernel/src/filesystem/vfs.c:212-239) find the last delimiter
each on its own, and at the same place: what the one writes, a delimiter and what the other one
writes is the path, also when the delimiter is the first or the last byte. Without a delimiter
the directory is empty.

But what is copied is `min(max_len, ...)` bytes, and `min` (kernel/src/misc/libc.h:191-196) takes
and gives `int`. A buffer of 2^31 bytes is a negative number of bytes, and `memcpy` then runs over
all of memory; one of 2^32 + 1 bytes gets no more than one byte.

`recombines_iff_partsFit` is the exact condition: as an `int`, the size of the buffers is not less
than the length of either part. Below 2^31 bytes it always holds (`partsFit_small`).

Counterexample: /a and buffers of 2^31 bytes.

Fix: compare the sizes as `size_t`.
-/
namespace GaOS.Bugs.PathSplit

open GaOS.L4.Files
open GaOS.L4.Devices

/-- Both are strings in buffers of `max_len` zeros, there is no delimiter in the base name, and
the path is put together from them. -/
def Recombines (path : List Nat) (maxLen : Nat) : Prop :=
  ∃ dirname basename, vfsDirname path maxLen = some dirname ∧
    vfsBasename path maxLen = some basename ∧
    dirname.length < maxLen ∧ basename.length < maxLen ∧ SLASH ∉ basename ∧
    (SLASH ∈ path → dirname ++ SLASH :: basename = path) ∧
    (SLASH ∉ path → dirname = [] ∧ basename = path)

/-- There is room for what is before the last delimiter, and for what is behind it. -/
def PartsFit (path : List Nat) (maxLen : Nat) : Prop :=
  ∃ dir base, Parts path dir base ∧ Copied dir maxLen ∧ Copied base maxLen

variable {path dir base : List Nat} {maxLen : Nat}

theorem Parts.length_le (h : Parts path dir base) :
    dir.length ≤ path.length ∧ base.length ≤ path.length := by
  cases h with
  | last _ =>
    rw [List.length_append, List.length_cons]
    omega
  | none _ => exact ⟨Nat.zero_le _, Nat.le_refl _⟩

theorem partsFit_small (hmax : path.length + 1 ≤ maxLen) (hsmall : maxLen < 2 ^ 31) :
    PartsFit path maxLen := by
  obtain ⟨dir, base, h⟩ := parts_exist path
  have hle := Parts.length_le h
  refine ⟨dir, base, h, ?_, ?_⟩
  · unfold Copied
    omega
  · unfold Copied
    omega

/-- The parts of a path are what puts it together. -/
theorem parts_of_recombined (hbase : SLASH ∉ base) (hin : SLASH ∈ path → dir ++ SLASH :: base = path)
    (hout : SLASH ∉ path → dir = [] ∧ base = path) : Parts path dir base := by
  by_cases h : SLASH ∈ path
  · rw [← hin h]
    exact .last hbase
  · obtain ⟨rfl, rfl⟩ := hout h
    exact .none h

theorem Parts.recombined (h : Parts path dir base) : SLASH ∉ base ∧
    (SLASH ∈ path → dir ++ SLASH :: base = path) ∧ (SLASH ∉ path → dir = [] ∧ base = path) := by
  cases h with
  | last hbase =>
    refine ⟨hbase, fun _ => rfl, fun h => absurd ?_ h⟩
    exact List.mem_append_right _ List.mem_cons_self
  | none hpath => exact ⟨hpath, fun h => absurd h hpath, fun _ => ⟨rfl, rfl⟩⟩

/-- **The condition**: as an `int`, the size of the buffers is not less than either part. -/
theorem recombines_iff_partsFit (path : List Nat) (maxLen : Nat)
    (hmax : path.length + 1 ≤ maxLen) : Recombines path maxLen ↔ PartsFit path maxLen := by
  constructor
  · rintro ⟨dir, base, hdir, hbase, -, -, hslash, hin, hout⟩
    have h := parts_of_recombined hslash hin hout
    rw [vfsDirname_eq h] at hdir
    rw [vfsBasename_parts h] at hbase
    exact ⟨dir, base, h, copyMin_eq_iff.mp hdir, copyMin_eq_iff.mp hbase⟩
  · rintro ⟨dir, base, h, hdir, hbase⟩
    have hle := Parts.length_le h
    refine ⟨dir, base, ?_, ?_, by omega, by omega, Parts.recombined h⟩
    · rw [vfsDirname_eq h, copyMin_eq_iff.mpr hdir]
    · rw [vfsBasename_parts h, copyMin_eq_iff.mpr hbase]

/-- "/a/" -/
theorem recombines_trailing : Recombines [0x2F, 0x61, 0x2F] 4 :=
  (recombines_iff_partsFit _ 4 (by decide)).mpr (partsFit_small (by decide) (by decide))

/-- **Counterexample.** -/
theorem a_in_two_gib : NoNull [0x2F, 0x61] ∧ [0x2F, 0x61].length + 1 ≤ 2 ^ 31 ∧
    ¬Recombines [0x2F, 0x61] (2 ^ 31) := by
  refine ⟨by decide, by decide, ?_⟩
  rintro ⟨dirname, -, hdir, -⟩
  have hnone : vfsDirname [0x2F, 0x61] (2 ^ 31) = none := by decide
  rw [hnone] at hdir
  cases hdir

/-- Of the directory of "/abc/d", one byte is left. -/
example : vfsDirname [0x2F, 0x61, 0x62, 0x63, 0x2F, 0x64] (2 ^ 32 + 1) = some [0x2F] := by decide

end GaOS.Bugs.PathSplit
