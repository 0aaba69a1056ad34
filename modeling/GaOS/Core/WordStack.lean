import GaOS.Core.Words

/-!
# Words in a row, and a stack of them

`mem.At a ws`: the words from address `a` up are `ws`. A stack grows down from its top,
so what a push puts before the words is the head of the list. Only the words on the
stack are specified; what lies below the pointer is anything.
-/
namespace GaOS

def Mem.At (mem : Mem) : Nat → List Nat → Prop
  | _, [] => True
  | a, w :: ws => mem a = w ∧ mem.At (a + 8) ws

variable {mem mem' : Mem} {a : Nat} {ws vs : List Nat}

theorem Mem.At.congr (h : mem.At a ws)
    (hs : ∀ x, a ≤ x → x < a + 8 * ws.length → mem' x = mem x) : mem'.At a ws := by
  induction ws generalizing a with
  | nil => trivial
  | cons w ws ih =>
    refine ⟨?_, ih h.2 fun x h1 h2 => hs x (by omega) (by simp only [List.length_cons]; omega)⟩
    rw [hs a (Nat.le_refl a) (by simp only [List.length_cons]; omega)]
    exact h.1

theorem Mem.At.push (h : mem.At a ws) (ha : 8 ≤ a) (v : Nat) :
    (mem.store (a - 8) v).At (a - 8) (v :: ws) := by
  refine ⟨Mem.store_self _ _ _, ?_⟩
  rw [Nat.sub_add_cancel ha]
  exact h.congr fun x h1 _ => Mem.store_ne _ _ (by omega)

theorem Mem.At.left (h : mem.At a (ws ++ vs)) : mem.At a ws := by
  induction ws generalizing a with
  | nil => trivial
  | cons w ws ih => exact ⟨h.1, ih h.2⟩

/-- A copy of the words. -/
theorem Mem.At.copy (h : mem.At a ws) (dst : Nat) :
    (mem.copy dst a (8 * ws.length)).At dst ws := by
  suffices ∀ (done : Nat) (vs : List Nat), done + 8 * vs.length = 8 * ws.length →
      mem.At (a + done) vs → (mem.copy dst a (8 * ws.length)).At (dst + done) vs from
    this 0 ws (Nat.zero_add _) h
  intro done vs hlen hat
  induction vs generalizing done with
  | nil => trivial
  | cons v vs ih =>
    simp only [List.length_cons] at hlen
    refine ⟨?_, ih (done + 8) (by omega) hat.2⟩
    rw [Mem.copy_in mem (by omega)]
    exact hat.1

end GaOS
