import Mathlib.Data.List.Basic

/-!
# Changing the first element with a property

Lists are searched from the front, and what is found is changed in place. Where that is,
and what stays around it, does not depend on the change (`updateFirst_split`).
-/
namespace GaOS

variable {α β : Type}

def updateFirst (p : α → Bool) (f : α → α) : List α → List α
  | [] => []
  | x :: l => if p x then f x :: l else x :: updateFirst p f l

variable {p : α → Bool} {f : α → α} {l : List α} {x : α}

theorem updateFirst_split (h : l.find? p = some x) : ∃ before after,
    l = before ++ x :: after ∧ p x = true ∧ (∀ y ∈ before, p y = false) ∧
      ∀ f, updateFirst p f l = before ++ f x :: after := by
  obtain ⟨hx, before, after, rfl, hb⟩ := List.find?_eq_some_iff_append.mp h
  have hbefore : ∀ y ∈ before, p y = false := fun y hy => by simpa using hb y hy
  refine ⟨before, after, rfl, hx, hbefore, fun f => ?_⟩
  clear hb h
  induction before with
  | nil => simp [updateFirst, hx]
  | cons y before ih =>
    have hy := hbefore y (List.mem_cons_self ..)
    have hrest := ih fun z hz => hbefore z (List.mem_cons_of_mem _ hz)
    simp [updateFirst, hy, hrest]

theorem updateFirst_append_left (h : l.find? p = some x) (l' : List α) :
    updateFirst p f (l ++ l') = updateFirst p f l ++ l' := by
  induction l with
  | nil => cases h
  | cons y l ih =>
    cases hy : p y with
    | true => simp [updateFirst, hy]
    | false =>
      rw [List.find?_cons, hy] at h
      simp [updateFirst, hy, ih h]

theorem updateFirst_append_right (h : l.find? p = none) (l' : List α) :
    updateFirst p f (l ++ l') = l ++ updateFirst p f l' := by
  induction l with
  | nil => rfl
  | cons y l ih =>
    rw [List.find?_cons] at h
    cases hy : p y with
    | true => simp [hy] at h
    | false =>
      rw [hy] at h
      simp [updateFirst, hy, ih h]

theorem updateFirst_snoc (h : l.find? p = none) (hx : p x = true) :
    updateFirst p f (l ++ [x]) = l ++ [f x] := by
  rw [updateFirst_append_right h]
  simp [updateFirst, hx]

theorem map_updateFirst {q : β → Bool} {g : α → β} {k : β → β} (hp : ∀ x, q (g x) = p x)
    (hf : ∀ x, g (f x) = k (g x)) : (updateFirst p f l).map g = updateFirst q k (l.map g) := by
  induction l with
  | nil => rfl
  | cons y l ih =>
    cases hy : p y with
    | true => simp [updateFirst, hy, hp, hf]
    | false => simp [updateFirst, hy, hp, ih]

end GaOS
