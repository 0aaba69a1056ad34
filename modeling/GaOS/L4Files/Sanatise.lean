import GaOS.Core.Buffer
import GaOS.Core.CString
import GaOS.L4Files.Paths

/-!
# Sanitising a path in place

Model of `vfs_sanatise_path` (kernel/src/filesystem/vfs.c:241-261) on the buffer with the path.
A delimiter behind a delimiter is removed by moving the rest of the string, and the null behind
it, one byte to the left; the outer loop then looks at the same index again. Both indices are of
type `int`.

`vfsSanatisePath_eq` relates the loops to `sanatisePath`, which the other modules use: every
round of the outer loop passes over or takes out one byte of the string, so there are no more
rounds than bytes. The bytes that become free at the end are zero. `vfsSanatisePath_long` is
about strings that are longer than an `int` can count.

`Collapses` says of two strings that they differ in the lengths of runs of delimiters, and that
these have length one in the second string.
-/
namespace GaOS.L4.Files

/-- `for (int i = index; path[i] != 0; i++) path[i] = path[i + 1];`
mirrors kernel/src/filesystem/vfs.c:254-255 -/
def shiftLeft : Nat → Nat → List Nat → Option (List Nat)
  | 0, _, _ => none
  | rounds + 1, i, path => do
    let c ← path[i]?
    if c = 0 then some path
    else
      let next ← incr i
      let d ← path[next]?
      let path ← store path i d
      shiftLeft rounds next path

/-- mirrors kernel/src/filesystem/vfs.c:249-259 -/
def sanatiseLoop : Nat → Nat → List Nat → Option (Nat × List Nat)
  | 0, _, _ => none
  | rounds + 1, index, path => do
    let c ← path[index]?
    if c = 0 then some (index, path)
    else
      let prev ← path[index - 1]?
      if prev = SLASH ∧ c = SLASH then
        let path ← shiftLeft (rounds + 1) index path
        sanatiseLoop rounds index path
      else
        let index ← incr index
        sanatiseLoop rounds index path

/-- The new length of the string, and the buffer.
mirrors kernel/src/filesystem/vfs.c:241-261 -/
def vfsSanatisePath (rounds : Nat) (path : List Nat) : Option (Nat × List Nat) := do
  let c ← path[0]?
  if c = 0 then some (0, path)
  else sanatiseLoop rounds 1 path

/-! ## Moving the rest of the string -/

variable {s r rest : List Nat} {c d e prev rounds i index : Nat}

theorem shiftLeft_step (w : List Nat) (hd : d ≠ 0) (hlen : w.length + 1 < 2 ^ 31) :
    shiftLeft (rounds + 1) w.length (w ++ d :: e :: r) =
      shiftLeft rounds (w.length + 1) (w ++ e :: e :: r) := by
  have hnext : (w ++ d :: e :: r)[w.length + 1]? = some e := by simp
  rw [shiftLeft, getElem?_append_length]
  simp only [Option.bind_eq_bind, Option.bind_some, if_neg hd, incr_of_lt hlen, hnext,
    store_append]

theorem shiftLeft_done (w : List Nat) :
    shiftLeft (rounds + 1) w.length (w ++ 0 :: r) = some (w ++ 0 :: r) := by
  rw [shiftLeft, getElem?_append_length]
  rfl

/-- One byte is taken out, and its place is behind the null now. -/
theorem shiftLeft_eq (w r rest : List Nat) (hd : d ≠ 0) (hnull : NoNull r)
    (hlen : w.length + r.length + 1 < 2 ^ 31) (hr : r.length + 1 < rounds) :
    shiftLeft rounds w.length (w ++ d :: (r ++ 0 :: rest)) = some (w ++ (r ++ 0 :: 0 :: rest)) := by
  obtain ⟨k, rfl⟩ := Nat.exists_eq_add_of_lt hr
  induction r generalizing w d k with
  | nil =>
    have hdone := @shiftLeft_done rest k (w ++ [0])
    rw [List.length_append, List.length_singleton, List.append_assoc, Nat.add_comm k] at hdone
    exact (shiftLeft_step w hd (by simpa using hlen)).trans hdone
  | cons e r ih =>
    rw [List.length_cons] at hlen
    have hnext := ih (w ++ [e]) hnull.head hnull.tail
      (by rw [List.length_append, List.length_singleton]; omega) k (by omega)
    rw [List.length_append, List.length_singleton, List.append_assoc, List.append_assoc] at hnext
    have hrounds : (e :: r).length + 1 + k + 1 = r.length + 1 + k + 1 + 1 := by
      rw [List.length_cons]
      omega
    rw [hrounds]
    exact (shiftLeft_step w hd (by omega)).trans hnext

/-! ## The loop over the string -/

theorem length_squeeze_le (prev : Nat) (s : List Nat) : (squeeze prev s).length ≤ s.length := by
  induction s generalizing prev with
  | nil => exact Nat.le_refl 0
  | cons c s ih =>
    rw [squeeze]
    split
    · exact Nat.le_succ_of_le (ih prev)
    · exact Nat.succ_le_succ (ih c)

theorem mem_squeeze (h : c ∈ squeeze prev s) : c ∈ s := by
  induction s generalizing prev with
  | nil => exact h
  | cons b s ih =>
    rw [squeeze] at h
    split at h
    · exact List.mem_cons_of_mem b (ih h)
    · rcases List.mem_cons.mp h with rfl | h
      · exact List.mem_cons_self
      · exact List.mem_cons_of_mem b (ih h)

theorem sanatiseLoop_done (u : List Nat) :
    sanatiseLoop (rounds + 1) (u.length + 1) (u ++ prev :: 0 :: rest) =
      some (u.length + 1, u ++ prev :: 0 :: rest) := by
  have hread : (u ++ prev :: 0 :: rest)[u.length + 1]? = some 0 := by simp
  rw [sanatiseLoop, hread]
  rfl

/-- A byte that stays. -/
theorem sanatiseLoop_keep (u : List Nat) (hc : c ≠ 0) (h : ¬(prev = SLASH ∧ c = SLASH))
    (hlen : u.length + 2 < 2 ^ 31) :
    sanatiseLoop (rounds + 1) (u.length + 1) (u ++ prev :: c :: r) =
      sanatiseLoop rounds (u.length + 2) (u ++ prev :: c :: r) := by
  have hread : (u ++ prev :: c :: r)[u.length + 1]? = some c := by simp
  rw [sanatiseLoop, hread]
  simp only [Option.bind_eq_bind, Option.bind_some, if_neg hc, Nat.add_sub_cancel,
    getElem?_append_length, if_neg h, incr_of_lt hlen]

/-- A delimiter that is taken out. -/
theorem sanatiseLoop_remove (u r rest : List Nat) (hnull : NoNull r)
    (hlen : u.length + r.length + 2 < 2 ^ 31) (hr : r.length < rounds) :
    sanatiseLoop (rounds + 1) (u.length + 1) (u ++ SLASH :: SLASH :: (r ++ 0 :: rest)) =
      sanatiseLoop rounds (u.length + 1) (u ++ SLASH :: (r ++ 0 :: 0 :: rest)) := by
  have hread : (u ++ SLASH :: SLASH :: (r ++ 0 :: rest))[u.length + 1]? = some SLASH := by simp
  have hshift := shiftLeft_eq (d := SLASH) (u ++ [SLASH]) r rest (by decide) hnull
    (by rw [List.length_append, List.length_singleton]; omega) (Nat.succ_lt_succ hr)
  rw [List.length_append, List.length_singleton, List.append_assoc, List.append_assoc] at hshift
  simp only [List.cons_append, List.nil_append] at hshift
  rw [sanatiseLoop, hread]
  simp only [Option.bind_eq_bind, Option.bind_some, if_neg (show SLASH ≠ 0 by decide),
    Nat.add_sub_cancel, getElem?_append_length, and_self, if_true, hshift]

/-- Behind `u` and `prev` the string becomes what `squeeze` leaves of it. -/
theorem sanatiseLoop_eq (u v rest : List Nat) (prev : Nat) (hnull : NoNull v)
    (hlen : u.length + v.length + 1 < 2 ^ 31) (hr : v.length < rounds) :
    sanatiseLoop rounds (u.length + 1) (u ++ prev :: (v ++ 0 :: rest)) =
      some (u.length + 1 + (squeeze prev v).length,
        u ++ prev :: (squeeze prev v ++
          0 :: (List.replicate (v.length - (squeeze prev v).length) 0 ++ rest))) := by
  induction rounds generalizing u v rest prev with
  | zero => omega
  | succ rounds ih =>
    cases v with
    | nil => exact sanatiseLoop_done u
    | cons c v =>
      have hv := hnull.tail
      rw [List.length_cons] at hlen hr
      by_cases h : prev = SLASH ∧ c = SLASH
      · obtain ⟨rfl, rfl⟩ := h
        have hle := length_squeeze_le SLASH v
        have hzeros : List.replicate ((SLASH :: v).length - (squeeze SLASH v).length) 0 ++ rest =
            List.replicate (v.length - (squeeze SLASH v).length) 0 ++ 0 :: rest := by
          rw [List.length_cons, Nat.succ_sub hle, List.replicate_succ', List.append_assoc]
          rfl
        rw [squeeze, if_pos ⟨rfl, rfl⟩, hzeros]
        exact (sanatiseLoop_remove u v rest hv (by omega) (by omega)).trans
          (ih u v (0 :: rest) SLASH hv (by omega) (by omega))
      · have hnext := ih (u ++ [prev]) v rest c hv
          (by rw [List.length_append, List.length_singleton]; omega) (by omega)
        rw [squeeze, if_neg h]
        simp only [List.length_append, List.length_cons, List.length_nil, List.append_assoc,
          List.cons_append, List.nil_append, Nat.add_sub_add_right] at hnext ⊢
        refine (sanatiseLoop_keep u hnull.head h (by omega)).trans (hnext.trans ?_)
        congr 2
        omega

/-- **The loops compute `sanatisePath`**, for a string that an `int` can count, in a buffer with
anything behind it. -/
theorem vfsSanatisePath_eq (s rest : List Nat) (hnull : NoNull s) (hlen : s.length < 2 ^ 31)
    (hr : s.length < rounds) :
    vfsSanatisePath rounds (s ++ 0 :: rest) =
      some ((sanatisePath s).length, sanatisePath s ++
        0 :: (List.replicate (s.length - (sanatisePath s).length) 0 ++ rest)) := by
  cases s with
  | nil => rfl
  | cons c s =>
    rw [List.length_cons] at hlen hr
    have hloop := sanatiseLoop_eq [] s rest c hnull.tail (by rw [List.length_nil]; omega)
      (Nat.lt_of_succ_lt hr)
    rw [List.length_nil, Nat.zero_add, Nat.add_comm 1] at hloop
    rw [vfsSanatisePath, sanatisePath, List.length_cons, List.length_cons, Nat.add_sub_add_right]
    exact (if_neg hnull.head).trans hloop

/-! ## Strings that an `int` does not count -/

/-- Up to the largest `int` there is no null. -/
def Overlong (i : Nat) (path : List Nat) : Prop :=
  i < 2 ^ 31 ∧ ∀ j, i ≤ j → j < 2 ^ 31 → path[j]? ≠ some 0

theorem Overlong.set {path : List Nat} (h : Overlong i path) (hi : i + 1 < 2 ^ 31) :
    Overlong (i + 1) (path.set i d) := by
  refine ⟨hi, fun j hj hlt => ?_⟩
  rw [List.getElem?_set_ne (by omega)]
  exact h.2 j (by omega) hlt

theorem shiftLeft_overlong {path : List Nat} (h : Overlong i path) :
    shiftLeft rounds i path = none := by
  induction rounds generalizing i path with
  | zero => rfl
  | succ rounds ih =>
    rw [shiftLeft]
    cases hc : path[i]? with
    | none => rfl
    | some c =>
      have hne : c ≠ 0 := fun h0 => h.2 i (Nat.le_refl i) h.1 (h0 ▸ hc)
      by_cases hi : i + 1 < 2 ^ 31
      · simp only [Option.bind_eq_bind, Option.bind_some, if_neg hne, incr_of_lt hi]
        cases path[i + 1]? with
        | none => rfl
        | some d =>
          rw [Option.bind_some, store]
          split
          · exact ih (h.set hi)
          · rfl
      · simp only [Option.bind_eq_bind, Option.bind_some, if_neg hne, incr, if_neg hi]
        rfl

/-- Either the first removal or the index itself is an overflow. -/
theorem sanatiseLoop_overlong {path : List Nat} (h : Overlong index path) :
    sanatiseLoop rounds index path = none := by
  induction rounds generalizing index with
  | zero => rfl
  | succ rounds ih =>
    rw [sanatiseLoop]
    cases hc : path[index]? with
    | none => rfl
    | some c =>
      have hne : c ≠ 0 := fun h0 => h.2 index (Nat.le_refl index) h.1 (h0 ▸ hc)
      simp only [Option.bind_eq_bind, Option.bind_some, if_neg hne]
      cases path[index - 1]? with
      | none => rfl
      | some prev =>
        rw [Option.bind_some]
        split
        · rw [shiftLeft_overlong h]
          rfl
        · by_cases hi : index + 1 < 2 ^ 31
          · rw [incr_of_lt hi]
            exact ih ⟨hi, fun j hj => h.2 j (by omega)⟩
          · rw [incr, if_neg hi]
            rfl

theorem vfsSanatisePath_overlong (hnull : NoNull s) (hlen : 2 ^ 31 ≤ s.length) :
    vfsSanatisePath rounds (s ++ rest) = none := by
  have hread : ∀ j, j < 2 ^ 31 → (s ++ rest)[j]? ≠ some 0 := by
    intro j hj h0
    rw [List.getElem?_append_left (by omega)] at h0
    exact hnull (List.mem_of_getElem? h0)
  rw [vfsSanatisePath]
  cases hc : (s ++ rest)[0]? with
  | none => rfl
  | some c =>
    have hne : c ≠ 0 := fun h0 => hread 0 (by decide) (h0 ▸ hc)
    rw [Option.bind_eq_bind, Option.bind_some, if_neg hne]
    exact sanatiseLoop_overlong ⟨by decide, fun j _ => hread j⟩

/-! ## Runs of delimiters -/

/-- Of each run of delimiters one is left, and all other characters stay in their order. The
run is maximal: there is no delimiter behind it. -/
inductive Collapses : List Nat → List Nat → Prop
  | nil : Collapses [] []
  | other {c : Nat} {s t : List Nat} : c ≠ SLASH → Collapses s t → Collapses (c :: s) (c :: t)
  | run (more : Nat) {s t : List Nat} : s.head? ≠ some SLASH → Collapses s t →
      Collapses (SLASH :: (List.replicate more SLASH ++ s)) (SLASH :: t)

/-- One more delimiter in the first run. -/
theorem Collapses.longer {t : List Nat} (h : Collapses (SLASH :: s) t) :
    Collapses (SLASH :: SLASH :: s) t := by
  cases h with
  | other hc _ => exact absurd rfl hc
  | run more hhead h => exact .run (more + 1) hhead h

theorem squeeze_of_ne (h : c ≠ SLASH ∨ s.head? ≠ some SLASH) : squeeze c s = sanatisePath s := by
  cases s with
  | nil => rfl
  | cons b s =>
    rw [squeeze, sanatisePath]
    refine if_neg fun hslash => ?_
    rcases h with h | h
    · exact h hslash.1
    · exact h (congrArg some hslash.2)

theorem collapses_sanatisePath (s : List Nat) : Collapses s (sanatisePath s) := by
  induction s with
  | nil => exact .nil
  | cons c s ih =>
    rw [sanatisePath]
    by_cases hc : c = SLASH
    · subst hc
      by_cases hs : s.head? = some SLASH
      · obtain ⟨s, rfl⟩ := List.head?_eq_some_iff.mp hs
        rw [squeeze, if_pos ⟨rfl, rfl⟩]
        exact ih.longer
      · rw [squeeze_of_ne (.inr hs)]
        exact .run 0 hs ih
    · rw [squeeze_of_ne (.inl hc)]
      exact .other hc ih

theorem squeeze_of_sanitised (h : Sanitised (prev :: s)) : squeeze prev s = s := by
  induction s generalizing prev with
  | nil => rfl
  | cons c s ih => rw [squeeze, if_neg h.1, ih h.2]

theorem sanatisePath_idem (s : List Nat) : sanatisePath (sanatisePath s) = sanatisePath s := by
  cases s with
  | nil => rfl
  | cons c s =>
    rw [sanatisePath, sanatisePath, squeeze_of_sanitised (sanitised_squeeze c s)]

theorem length_sanatisePath_le (s : List Nat) : (sanatisePath s).length ≤ s.length := by
  cases s with
  | nil => exact Nat.le_refl 0
  | cons c s => exact Nat.succ_le_succ (length_squeeze_le c s)

theorem noNull_sanatisePath (h : NoNull s) : NoNull (sanatisePath s) := by
  cases s with
  | nil => exact h
  | cons c s =>
    intro h0
    rcases List.mem_cons.mp h0 with h0 | h0
    · exact h.head h0.symm
    · exact h.tail (mem_squeeze h0)

end GaOS.L4.Files
