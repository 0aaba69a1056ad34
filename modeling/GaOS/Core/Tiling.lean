import Mathlib.Data.List.Nodup

/-!
# Tilings of an interval

`Tiles len a e l`: the pieces `[b, b + len b)` for `b` in `l`, in this order,
fill `[a, e)` without gap or overlap. A tiling can be extended at its end and a
piece can be cut in two; from it follow the bounds of each piece and that
different pieces are apart.
-/
namespace GaOS

def Tiles (len : Nat → Nat) : Nat → Nat → List Nat → Prop
  | a, e, [] => a = e
  | a, e, b :: l => a = b ∧ Tiles len (b + len b) e l

variable {len len' : Nat → Nat} {a e : Nat} {l : List Nat}

theorem Tiles.congr (hl : ∀ x ∈ l, len' x = len x) (h : Tiles len a e l) : Tiles len' a e l := by
  induction l generalizing a with
  | nil => exact h
  | cons b l ih =>
    refine ⟨h.1, ?_⟩
    rw [hl b (by simp)]
    exact ih (fun x hx => hl x (by simp [hx])) h.2

theorem Tiles.le (h : Tiles len a e l) : a ≤ e := by
  induction l generalizing a with
  | nil => exact Nat.le_of_eq h
  | cons b l ih =>
    have := ih h.2
    have := h.1
    omega

theorem Tiles.bounds (h : Tiles len a e l) {b : Nat} (hb : b ∈ l) : a ≤ b ∧ b + len b ≤ e := by
  induction l generalizing a with
  | nil => cases hb
  | cons c l ih =>
    obtain ⟨rfl, h2⟩ := h
    cases hb with
    | head => exact ⟨Nat.le_refl _, h2.le⟩
    | tail _ hb =>
      have := ih h2 hb
      omega

/-- Different pieces do not overlap. -/
theorem Tiles.apart (h : Tiles len a e l) {b c : Nat} (hb : b ∈ l) (hc : c ∈ l) :
    b = c ∨ b + len b ≤ c ∨ c + len c ≤ b := by
  induction l generalizing a with
  | nil => cases hb
  | cons d l ih =>
    obtain ⟨rfl, h2⟩ := h
    cases hb with
    | head =>
      cases hc with
      | head => exact .inl rfl
      | tail _ hc => exact .inr (.inl (h2.bounds hc).1)
    | tail _ hb =>
      cases hc with
      | head => exact .inr (.inr (h2.bounds hb).1)
      | tail _ hc => exact ih h2 hb hc

/-- A piece ends at the end or where another one begins. -/
theorem Tiles.end_mem (h : Tiles len a e l) {b : Nat} (hb : b ∈ l) :
    b + len b = e ∨ b + len b ∈ l := by
  induction l generalizing a with
  | nil => cases hb
  | cons c l ih =>
    obtain ⟨rfl, h2⟩ := h
    cases hb with
    | head =>
      cases l with
      | nil => exact .inl h2
      | cons d l =>
        rw [h2.1]
        exact .inr (by simp)
    | tail _ hb => exact (ih h2 hb).imp_right (List.mem_cons_of_mem _)

theorem Tiles.nodup (h : Tiles len a e l) (hpos : ∀ b ∈ l, 0 < len b) : l.Nodup := by
  induction l generalizing a with
  | nil => exact List.nodup_nil
  | cons b l ih =>
    refine List.nodup_cons.mpr ⟨fun hb => ?_, ih h.2 fun x hx => hpos x (by simp [hx])⟩
    have h1 := (h.2.bounds hb).1
    have h2 := hpos b (by simp)
    omega

/-- Pieces of at least `k` fill at least `k` times their number. -/
theorem Tiles.length {k : Nat} (h : Tiles len a e l) (hk : ∀ b ∈ l, k ≤ len b) :
    a + l.length * k ≤ e := by
  induction l generalizing a with
  | nil => simpa using Nat.le_of_eq h
  | cons b l ih =>
    have h1 := ih h.2 fun x hx => hk x (by simp [hx])
    have h2 := hk b (by simp)
    have h3 := h.1
    rw [List.length_cons, Nat.succ_mul]
    omega

/-- One more piece at the end. -/
theorem Tiles.snoc (h : Tiles len a e l) : Tiles len a (e + len e) (l ++ [e]) := by
  induction l generalizing a with
  | nil => exact ⟨h, rfl⟩
  | cons b l ih => exact ⟨h.1, ih h.2⟩

/-- Piece `c` cut in two, the second part at `n`. -/
theorem Tiles.cut {xs ys : List Nat} {c n : Nat} (h : Tiles len a e (xs ++ c :: ys))
    (hn : n = c + len' c) (hlen : len' c + len' n = len c)
    (hl : ∀ x ∈ xs ++ ys, len' x = len x) : Tiles len' a e (xs ++ c :: n :: ys) := by
  induction xs generalizing a with
  | nil =>
    refine ⟨h.1, hn.symm, ?_⟩
    rw [show n + len' n = c + len c by omega]
    exact h.2.congr hl
  | cons b xs ih =>
    refine ⟨h.1, ?_⟩
    rw [hl b (by simp)]
    exact ih h.2 fun x hx => hl x (by simp [List.mem_append.mp hx])

end GaOS
