import Mathlib.Data.List.GetD
import Mathlib.Data.Nat.Init

/-!
# C strings

A `char *` is the function from offsets to bytes, and `cstr` the string with the bytes
of a list and the null behind them. `strncmp` is the loop of the C library;
`strncmp_eq_zero_iff` says what its answer zero means for any two pointers, and the two
lemmas after it what that is when the bound is the length of one of the strings.
-/
namespace GaOS

/-- The string with these bytes. -/
def cstr (s : List Nat) : Nat → Nat := fun i => s.getD i 0

/-- A list of bytes that can be a string. -/
def NoNull (s : List Nat) : Prop := 0 ∉ s

instance (s : List Nat) : Decidable (NoNull s) := inferInstanceAs (Decidable (¬_))

theorem NoNull.head {c : Nat} {s : List Nat} (h : NoNull (c :: s)) : c ≠ 0 :=
  fun h0 => h (h0 ▸ List.mem_cons_self)

theorem NoNull.tail {c : Nat} {s : List Nat} (h : NoNull (c :: s)) : NoNull s :=
  fun h0 => h (List.mem_cons_of_mem c h0)

/-- Both pointers advance together. -/
def strncmp (s1 s2 : Nat → Nat) : Nat → Int
  | 0 => 0
  | n + 1 =>
    if s1 0 ≠ 0 ∧ s1 0 = s2 0 then strncmp (fun i => s1 (i + 1)) (fun i => s2 (i + 1)) n
    else (s1 0 : Int) - s2 0

/-- The answer is zero when the strings agree up to the bound or the end of the
first one. -/
theorem strncmp_eq_zero_iff {s1 s2 : Nat → Nat} {n : Nat} :
    strncmp s1 s2 n = 0 ↔ ∀ i, i < n → (∀ j, j < i → s1 j ≠ 0) → s1 i = s2 i := by
  induction n generalizing s1 s2 with
  | zero => simp [strncmp]
  | succ n ih =>
    rw [strncmp]
    split
    · rename_i h
      rw [ih]
      constructor
      · intro hs i hi hj
        cases i with
        | zero => exact h.2
        | succ i => exact hs i (by omega) fun j hji => hj (j + 1) (by omega)
      · intro hs i hi hj
        apply hs (i + 1) (by omega)
        intro j hji
        cases j with
        | zero => exact h.1
        | succ j => exact hj j (by omega)
    · rename_i h
      constructor
      · intro hs i hi hj
        have heq : s1 0 = s2 0 := by omega
        cases i with
        | zero => exact heq
        | succ i => exact absurd ⟨hj 0 (by omega), heq⟩ h
      · intro hs
        have heq := hs 0 (by omega) fun j hj => absurd hj (by omega)
        omega

theorem cstr_ne_zero {s : List Nat} (h : NoNull s) {i : Nat} (hi : i < s.length) :
    cstr s i ≠ 0 := by
  intro h0
  rw [cstr, List.getD_eq_getElem _ _ hi] at h0
  exact h (h0 ▸ List.getElem_mem hi)

/-- Bounded by the length of the first string. -/
theorem strncmp_length_left {s : List Nat} (h : NoNull s) (s2 : Nat → Nat) :
    strncmp (cstr s) s2 s.length = 0 ↔ ∀ i, i < s.length → cstr s i = s2 i := by
  rw [strncmp_eq_zero_iff]
  exact ⟨fun hs i hi => hs i hi fun j hj => cstr_ne_zero h (by omega), fun hs i hi _ => hs i hi⟩

/-- Bounded by the length of the second one. -/
theorem strncmp_length_right {s : List Nat} (h : NoNull s) (s1 : Nat → Nat) :
    strncmp s1 (cstr s) s.length = 0 ↔ ∀ i, i < s.length → s1 i = cstr s i := by
  rw [strncmp_eq_zero_iff]
  constructor
  · intro hs i
    induction i using Nat.strong_induction_on with
    | _ i ih =>
      intro hi
      refine hs i hi fun j hj => ?_
      rw [ih j hj (by omega)]
      exact cstr_ne_zero h (by omega)
  · exact fun hs i hi _ => hs i hi

/-- Agreement on the length of a string is a prefix. -/
theorem cstr_agree_iff {s t : List Nat} (h : NoNull s) :
    (∀ i, i < s.length → cstr s i = cstr t i) ↔ s <+: t := by
  constructor
  · intro hs
    rw [List.prefix_iff_getElem?]
    intro i hi
    have hne := cstr_ne_zero h hi
    have heq := hs i hi
    have hlt : i < t.length := by
      refine Nat.lt_of_not_le fun hge => hne ?_
      rw [heq, cstr, List.getD_eq_default _ _ hge]
    rw [cstr, cstr, List.getD_eq_getElem _ _ hi, List.getD_eq_getElem _ _ hlt] at heq
    rw [List.getElem?_eq_getElem hlt, heq]
  · intro ⟨r, hr⟩ i hi
    subst hr
    rw [cstr, cstr, List.getD_append _ _ _ _ hi]

end GaOS
