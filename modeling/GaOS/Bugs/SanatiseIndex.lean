import GaOS.L4Files.Sanatise

/-!
# Sanitising paths that an `int` does not count

`vfs_sanatise_path` (kernel/src/filesystem/vfs.c:241-261) leaves one delimiter of each run, in
place, and answers the new length, which is a `size_t`. It comes to an end although its index
stays where it is when a delimiter is taken out, it needs no byte behind the null of the string,
and another call changes nothing.

But the index of the outer loop and the one of the inner loop are of type `int`, while `strlen`
counts with `size_t`. In a string of 2^31 bytes or more one of them overflows: the inner one with
the first delimiter that is taken out, and when there is none the outer one.

`collapsesInPlace_iff` is the exact condition: the string has less than 2^31 bytes.

Counterexample: 2^31 times 'a'.

Fix: `size_t` for both indices.
-/
namespace GaOS.Bugs.SanatiseIndex

open GaOS.L4.Files

/-- Whatever is behind the string, nothing included: the call ends, with the collapsed string and
its null in the place of the string, zeros up to where its null was, and the rest as it was. The
answer is the new length, and the same call on what is there now leaves it so. -/
def CollapsesInPlace (s : List Nat) : Prop :=
  ∃ t, Collapses s t ∧ t.length ≤ s.length ∧ ∀ rest rounds, s.length < rounds →
    let path := t ++ 0 :: (List.replicate (s.length - t.length) 0 ++ rest)
    vfsSanatisePath rounds (s ++ 0 :: rest) = some (t.length, path) ∧
      vfsSanatisePath rounds path = some (t.length, path)

variable {s : List Nat}

theorem collapsesInPlace_of_lt (hnull : NoNull s) (hlen : s.length < 2 ^ 31) :
    CollapsesInPlace s := by
  have hle := length_sanatisePath_le s
  refine ⟨sanatisePath s, collapses_sanatisePath s, hle, fun rest rounds hr => ?_⟩
  have hagain := vfsSanatisePath_eq (sanatisePath s)
    (List.replicate (s.length - (sanatisePath s).length) 0 ++ rest) (noNull_sanatisePath hnull)
    (Nat.lt_of_le_of_lt hle hlen) (Nat.lt_of_le_of_lt hle hr)
  rw [sanatisePath_idem, Nat.sub_self, List.replicate_zero, List.nil_append] at hagain
  exact ⟨vfsSanatisePath_eq s rest hnull hlen hr, hagain⟩

theorem not_collapsesInPlace (hnull : NoNull s) (hlen : 2 ^ 31 ≤ s.length) :
    ¬CollapsesInPlace s := by
  rintro ⟨t, -, -, h⟩
  have hcall := (h [] (s.length + 1) (Nat.lt_succ_self _)).1
  rw [vfsSanatisePath_overlong hnull hlen] at hcall
  cases hcall

/-- **The condition**: the string has less than 2^31 bytes. -/
theorem collapsesInPlace_iff (s : List Nat) (hnull : NoNull s) :
    CollapsesInPlace s ↔ s.length < 2 ^ 31 := by
  constructor
  · intro h
    by_contra hlen
    exact not_collapsesInPlace hnull (Nat.le_of_not_lt hlen) h
  · exact collapsesInPlace_of_lt hnull

/-- "//a///" -/
theorem collapses_slashes : CollapsesInPlace [0x2F, 0x2F, 0x61, 0x2F, 0x2F, 0x2F] :=
  (collapsesInPlace_iff _ (by decide)).mpr (by decide)

theorem noNull_replicate (n : Nat) : NoNull (List.replicate n 0x61) :=
  fun h => absurd (List.eq_of_mem_replicate h) (by decide)

theorem not_collapsesInPlace_replicate {n : Nat} (hn : 2 ^ 31 ≤ n) :
    ¬CollapsesInPlace (List.replicate n 0x61) :=
  not_collapsesInPlace (noNull_replicate n) (by rwa [List.length_replicate])

/-- **Counterexample.** -/
theorem two_gib_of_a : NoNull (List.replicate (2 ^ 31) 0x61) ∧
    ¬CollapsesInPlace (List.replicate (2 ^ 31) 0x61) :=
  ⟨noNull_replicate _, not_collapsesInPlace_replicate (Nat.le_refl _)⟩

example : vfsSanatisePath 7 [0x2F, 0x2F, 0x61, 0x2F, 0x2F, 0x2F, 0, 7] =
    some (3, [0x2F, 0x61, 0x2F, 0, 0, 0, 0, 7]) := by decide

end GaOS.Bugs.SanatiseIndex
