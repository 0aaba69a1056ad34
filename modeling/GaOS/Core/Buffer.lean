import Mathlib.Data.List.Induction
import Mathlib.Data.Nat.Bitwise

/-!
# Buffers

A buffer is the list of its elements. A read or a write outside of it is undefined, and `none`:
that a program stays inside of its buffer is that its run on the buffer comes to an end.

Indices into a buffer that are of C's type `int` count with `incr`: an overflow is undefined
as well. `swapEnds` is the loop of two indices that run towards each other and exchange what
they are at; `swapEnds_eq` says that it reverses what is between them.
-/
namespace GaOS

/-- `buffer[i] = v`. -/
def store {α : Type} (buffer : List α) (i : Nat) (v : α) : Option (List α) :=
  if i < buffer.length then some (buffer.set i v) else none

/-- `i + 1` of an `int` that is not negative. -/
def incr (i : Nat) : Option Nat := if i + 1 < 2 ^ 31 then some (i + 1) else none

/-- `for (; i < j; i++, j--)` exchanging `buffer[i]` and `buffer[j]`. -/
def swapEnds {α : Type} : Nat → Int → Int → List α → Option (List α)
  | 0, _, _, _ => none
  | rounds + 1, i, j, buffer =>
    if i < j then do
      let a ← buffer[i.toNat]?
      let b ← buffer[j.toNat]?
      let buffer ← store buffer i.toNat b
      let buffer ← store buffer j.toNat a
      swapEnds rounds (i + 1) (j - 1) buffer
    else some buffer

variable {α : Type}

theorem getElem?_append_length (w : List α) (d : α) (r : List α) :
    (w ++ d :: r)[w.length]? = some d := by
  simp

theorem store_append (w : List α) (d e : α) (r : List α) :
    store (w ++ d :: r) w.length e = some (w ++ e :: r) := by
  simp [store]

theorem incr_of_lt {i : Nat} (h : i + 1 < 2 ^ 31) : incr i = some (i + 1) := if_pos h

/-- One round: the outermost elements of what is between the indices are exchanged. -/
theorem swapEnds_step (rounds : Nat) (w m r : List α) (a b : α) {i j : Int}
    (hi : i = w.length) (hj : j = w.length + m.length + 1) :
    swapEnds (rounds + 1) i j (w ++ a :: (m ++ b :: r)) =
      swapEnds rounds (i + 1) (j - 1) (w ++ b :: (m ++ a :: r)) := by
  have hleft : i.toNat = w.length := by omega
  have hright : j.toNat = (w ++ b :: m).length := by
    simp only [List.length_append, List.length_cons]
    omega
  have hassoc : ∀ c : α, w ++ b :: (m ++ c :: r) = (w ++ b :: m) ++ c :: r := by simp
  have hb : (w ++ a :: (m ++ b :: r))[j.toNat]? = some b := by
    rw [hright]
    simp
  rw [swapEnds, if_pos (by omega)]
  simp only [hb, hleft, getElem?_append_length, store_append, Option.bind_eq_bind,
    Option.bind_some]
  rw [hassoc, hright, store_append, ← hassoc, Option.bind_some]

/-- What is between the indices is reversed, and nothing else changes. -/
theorem swapEnds_eq {rounds : Nat} (w s r : List α) {i j : Int} (hi : i = w.length)
    (hj : j = w.length + s.length - 1) (hr : s.length < rounds) :
    swapEnds rounds i j (w ++ (s ++ r)) = some (w ++ (s.reverse ++ r)) := by
  obtain ⟨rounds, rfl⟩ := Nat.exists_eq_add_of_lt hr
  induction s using List.bidirectionalRec generalizing rounds w r i j with
  | nil =>
    simp only [List.length_nil] at hj
    exact if_neg (by omega)
  | singleton a =>
    simp only [List.length_singleton] at hj
    exact if_neg (by omega)
  | cons_append a m b ih =>
    simp only [List.length_cons, List.length_append, List.length_nil] at hj ih ⊢
    have hgoal := ih (w ++ [b]) (a :: r) (i := i + 1) (j := j - 1) (by simp; omega) (by simp; omega)
      (rounds + 1) (by omega)
    have hrounds : m.length + (0 + 1) + 1 + rounds = m.length + (rounds + 1) + 1 := by omega
    simp only [List.append_assoc, List.cons_append, List.nil_append, List.reverse_cons,
      List.reverse_append, List.reverse_nil] at hgoal ⊢
    rw [hrounds, swapEnds_step _ w m r a b hi (by omega)]
    exact hgoal

end GaOS
