import GaOS.L4Files.BootModules

/-!
# Directory and base name of a path

Model of `vfs_dirname` (kernel/src/filesystem/vfs.c:212-224), next to `vfsBasename`. Both count
down from the null to the last delimiter, with loops of their own, and stop at the same offset
(`dirOffset_eq_baseOffset`). So one copies what is before that delimiter and the other one what
is behind it, as far as `min(max_len, ...)` lets them.
-/
namespace GaOS.L4.Devices

open GaOS.L4.Files
open GaOS.L4.Ustar (minInt toInt32_nat)

/-- `max_offset`, counted down.
mirrors kernel/src/filesystem/vfs.c:220-221 -/
def dirOffset (path : List Nat) : Nat → Nat
  | 0 => 0
  | offset + 1 => if cstr path (offset + 1) ≠ SLASH then dirOffset path offset else offset + 1

/-- What is copied to `dirname`, a buffer with nothing in it. A negative count is a copy of all
of memory.
mirrors kernel/src/filesystem/vfs.c:212-224 -/
def vfsDirname (path : List Nat) (maxLen : Nat) : Option (List Nat) :=
  let offset := path.length
  -- not for a directory: the byte is the null
  let offset := if cstr path offset = SLASH then offset - 1 else offset
  let offset := dirOffset path offset
  let count := minInt maxLen offset
  if count < 0 then none else some (path.take count.toNat)

/-- `memcpy(buffer, s, min(max_len, strlen(s)))` -/
def copyMin (maxLen : Nat) (s : List Nat) : Option (List Nat) :=
  let count := minInt maxLen s.length
  if count < 0 then none else some (s.take count.toNat)

/-- What is before the last delimiter, and what is behind it. -/
inductive Parts : List Nat → List Nat → List Nat → Prop
  | last {dir base : List Nat} : SLASH ∉ base → Parts (dir ++ SLASH :: base) dir base
  | none {path : List Nat} : SLASH ∉ path → Parts path [] path

variable {path dir base : List Nat} {maxLen : Nat}

theorem parts_exist (path : List Nat) : ∃ dir base, Parts path dir base := by
  induction path with
  | nil => exact ⟨[], [], .none (List.not_mem_nil)⟩
  | cons c path ih =>
    obtain ⟨dir, base, h⟩ := ih
    cases h with
    | last hbase => exact ⟨c :: dir, base, @Parts.last (c :: dir) base hbase⟩
    | none hpath =>
      by_cases hc : c = SLASH
      · subst hc
        exact ⟨[], path, @Parts.last [] path hpath⟩
      · exact ⟨[], c :: path, .none (by simp [hpath, Ne.symm hc])⟩

/-- The two conditions are written the other way around, and stop at the same offset. -/
theorem dirOffset_eq_baseOffset (path : List Nat) (offset : Nat) :
    dirOffset path offset = baseOffset path offset := by
  induction offset with
  | zero => rfl
  | succ offset ih =>
    rw [dirOffset, baseOffset, ih]
    by_cases h : cstr path (offset + 1) = SLASH
    · rw [if_neg (not_not_intro h), if_pos h]
    · rw [if_pos h, if_neg h]

theorem cstr_length (s : List Nat) : cstr s s.length = 0 := List.getD_eq_default _ _ (Nat.le_refl _)

theorem cstr_ne_slash (h : SLASH ∉ path) (i : Nat) : cstr path i ≠ SLASH := by
  intro hi
  by_cases hlt : i < path.length
  · rw [cstr, List.getD_eq_getElem _ _ hlt] at hi
    exact h (hi ▸ List.getElem_mem hlt)
  · rw [cstr, List.getD_eq_default _ _ (Nat.le_of_not_lt hlt)] at hi
    cases hi

theorem baseOffset_none (h : SLASH ∉ path) (offset : Nat) : baseOffset path offset = 0 := by
  induction offset with
  | zero => rfl
  | succ offset ih => rw [baseOffset, if_neg (cstr_ne_slash h _), ih]

theorem minInt_le_right (a : Int) (b : Nat) : minInt a b ≤ b := by
  have hb := toInt32_nat b
  unfold minInt
  split at hb <;> split <;> omega

/-- No more than the part itself. -/
theorem take_part (dir rest : List Nat) (maxLen : Nat) :
    (dir ++ rest).take (minInt maxLen dir.length).toNat =
      dir.take (minInt maxLen dir.length).toNat := by
  have hle := minInt_le_right maxLen dir.length
  exact List.take_append_of_le_length (by omega)

/-- The part before the last delimiter is copied. -/
theorem vfsDirname_eq (h : Parts path dir base) : vfsDirname path maxLen = copyMin maxLen dir := by
  have hnull : cstr path path.length ≠ SLASH := by
    rw [cstr_length]
    decide
  unfold vfsDirname copyMin
  simp only [if_neg hnull, dirOffset_eq_baseOffset]
  cases h with
  | last hbase =>
    simp only [baseOffset_last _ hbase, take_part]
  | none hpath =>
    have htake := take_part [] path maxLen
    rw [List.nil_append, List.length_nil] at htake
    simp only [baseOffset_none hpath, List.length_nil, htake]

/-- The part behind it is copied. -/
theorem vfsBasename_parts (h : Parts path dir base) :
    vfsBasename path maxLen = copyMin maxLen base := by
  unfold vfsBasename copyMin
  cases h with
  | last hbase =>
    have hlength : (dir ++ SLASH :: base).length - (dir.length + 1) = base.length := by
      rw [List.length_append, List.length_cons]
      omega
    simp only [baseOffset_last _ hbase, cstr_delimiter, if_true, hlength, drop_delimiter]
  | none hpath =>
    simp only [baseOffset_none hpath, if_neg (cstr_ne_slash hpath 0), Nat.sub_zero, List.drop_zero]

/-! ## What is copied -/

variable {s : List Nat}

theorem minInt_comm (a b : Int) : minInt a b = minInt b a := by
  unfold minInt
  split <;> split <;> omega

/-- All of the part is copied exactly if there is room for it, as an `int`. -/
theorem copyMin_eq_iff : copyMin maxLen s = some s ↔ Copied s maxLen := by
  simp only [copyMin, minInt_comm maxLen]
  constructor
  · intro h
    by_contra hcopied
    have hlt := minInt_of_not_copied hcopied
    split at h
    · cases h
    · have hlength := congrArg List.length (Option.some.inj h)
      rw [List.length_take] at hlength
      omega
  · intro h
    rw [minInt_of_copied h, if_neg (by omega), Int.toNat_natCast, List.take_length]

end GaOS.L4.Devices
