/-!
# Who holds a spinlock

A lock word says that the lock is taken, not by whom. `Held word holds` relates the
word to the owners that the program counters of the threads name (`holds`): there is at
most one, and the word is set exactly when there is one. A thread that takes a free
lock becomes its owner, one that clears the word must be the owner, and an owner may
pass the lock on to another thread that clears it later.
-/
namespace GaOS

variable {ι : Type} {word : Bool} {holds holds' : ι → Prop} {p q : ι}

structure Held (word : Bool) (holds : ι → Prop) : Prop where
  unique : ∀ p q, holds p → holds q → p = q
  set : word = true ↔ ∃ p, holds p

theorem Held.congr (h : Held word holds) (hh : ∀ p, holds' p ↔ holds p) : Held word holds' := by
  have he : holds' = holds := funext fun p => propext (hh p)
  exact he ▸ h

theorem Held.free (h : Held false holds) (p : ι) : ¬holds p := by
  intro hp
  have hset := h.set.mpr ⟨p, hp⟩
  contradiction

theorem Held.taken (h : Held word holds) (hp : holds p) : word = true := h.set.mpr ⟨p, hp⟩

theorem Held.none (h : ∀ p, ¬holds p) : Held false holds :=
  ⟨fun p _ hp => absurd hp (h p), by simp [h]⟩

/-- A successful test-and-set. -/
theorem Held.acquire (hh : ∀ q, holds' q ↔ q = p) : Held true holds' := by
  refine ⟨fun a b ha hb => ?_, ?_⟩
  · rw [(hh a).mp ha, (hh b).mp hb]
  · exact ⟨fun _ => ⟨p, (hh p).mpr rfl⟩, fun _ => rfl⟩

/-- The owner clears the word. -/
theorem Held.release (h : Held word holds) (hp : holds p)
    (hh : ∀ q, holds' q ↔ holds q ∧ q ≠ p) : Held false holds' := by
  refine .none fun q hq => ?_
  obtain ⟨hold, hne⟩ := (hh q).mp hq
  exact hne (h.unique q p hold hp)

/-- The owner passes the lock on, the word stays set. -/
theorem Held.transfer (h : Held word holds) (hp : holds p) (hh : ∀ r, holds' r ↔ r = q) :
    Held word holds' := by
  refine ⟨fun a b ha hb => ?_, ?_⟩
  · rw [(hh a).mp ha, (hh b).mp hb]
  · exact ⟨fun _ => ⟨q, (hh q).mpr rfl⟩, fun _ => h.taken hp⟩

end GaOS
