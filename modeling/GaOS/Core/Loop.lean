/-!
# Counted loops

`for (i = 0; i < n; i++) body(i)` over a state, in code that may stop (panic)
in any round, and the invariant rule for it.
-/
namespace GaOS

def forUpto {S : Type} (body : Nat → S → Option S) : Nat → S → Option S
  | 0, s => some s
  | n + 1, s => (forUpto body n s).bind (body n)

/-- An invariant that every round carries from `i` to `i + 1` holds at the end. -/
theorem forUpto_inv {S : Type} {body : Nat → S → Option S} {I : Nat → S → Prop} {n : Nat}
    {s s' : S} (h : forUpto body n s = some s') (h0 : I 0 s)
    (hstep : ∀ i t t', i < n → I i t → body i t = some t' → I (i + 1) t') : I n s' := by
  induction n generalizing s' with
  | zero => cases h; exact h0
  | succ n ih =>
    rw [forUpto, Option.bind_eq_some_iff] at h
    obtain ⟨t, ht, hb⟩ := h
    have hI := ih ht fun i t t' hi => hstep i t t' (Nat.lt_succ_of_lt hi)
    exact hstep n t s' (Nat.lt_succ_self n) hI hb

/-- A counted loop is a fold over its indices. -/
theorem forUpto_eq_foldlM {S : Type} (body : Nat → S → Option S) (n : Nat) (s : S) :
    forUpto body n s = (List.range n).foldlM (fun s i => body i s) s := by
  induction n with
  | zero => rfl
  | succ n ih =>
    rw [forUpto, ih, List.range_succ, List.foldlM_append]
    simp

end GaOS
