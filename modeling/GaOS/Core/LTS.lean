/-!
# Labelled transition systems and inductive invariants

The subsystems below are state machines: an initial condition and a labelled
step relation. `Inductive.reachable` is the one place where the induction over
a run is done; a module that wants a property of every reachable state shows
that it holds initially and that one step keeps it. `Run.history` is the same for
a property of the state and of what the run did so far.
-/
namespace GaOS

structure LTS (S L : Type) where
  init : S → Prop
  step : S → L → S → Prop

namespace LTS

variable {S L : Type} {M : LTS S L}

/-- `Run M s ls t`: the steps labelled `ls` lead from `s` to `t`. -/
inductive Run (M : LTS S L) : S → List L → S → Prop
  | nil (s : S) : Run M s [] s
  | cons {s t u : S} {l : L} {ls : List L} : M.step s l t → Run M t ls u → Run M s (l :: ls) u

def Reachable (M : LTS S L) (s : S) : Prop := ∃ s₀ ls, M.init s₀ ∧ M.Run s₀ ls s

/-- `I` holds initially and is kept by every step. -/
structure Inductive (M : LTS S L) (I : S → Prop) : Prop where
  init : ∀ s, M.init s → I s
  step : ∀ s l t, I s → M.step s l t → I t

theorem Inductive.run {I : S → Prop} (h : M.Inductive I) {s t : S} {ls : List L}
    (hr : M.Run s ls t) (hs : I s) : I t := by
  induction hr with
  | nil _ => exact hs
  | cons hst _ ih => exact ih (h.step _ _ _ hs hst)

theorem Inductive.reachable {I : S → Prop} (h : M.Inductive I) {s : S} (hr : M.Reachable s) :
    I s := by
  obtain ⟨s₀, ls, h0, hrun⟩ := hr
  exact h.run hrun (h.init s₀ h0)

theorem Reachable.init {s : S} (h : M.init s) : M.Reachable s := ⟨s, [], h, .nil s⟩

theorem Run.snoc {s t u : S} {ls : List L} {l : L} (h : M.Run s ls t) (hst : M.step t l u) :
    M.Run s (ls ++ [l]) u := by
  induction h with
  | nil s => exact .cons hst (.nil u)
  | cons h1 _ ih => exact .cons h1 (ih hst)

theorem Run.append {s t u : S} {ls ms : List L} (h : M.Run s ls t) (h' : M.Run t ms u) :
    M.Run s (ls ++ ms) u := by
  induction h with
  | nil _ => exact h'
  | cons h1 _ ih => exact .cons h1 (ih h')

theorem Run.of_append {s u : S} {ls ms : List L} (h : M.Run s (ls ++ ms) u) :
    ∃ t, M.Run s ls t ∧ M.Run t ms u := by
  induction ls generalizing s with
  | nil => exact ⟨s, .nil s, h⟩
  | cons l ls ih =>
    cases h with
    | cons h1 h2 =>
      obtain ⟨t, h3, h4⟩ := ih h2
      exact ⟨t, .cons h1 h3, h4⟩

theorem Reachable.step {s t : S} {l : L} (h : M.Reachable s) (hst : M.step s l t) :
    M.Reachable t := by
  obtain ⟨s₀, ls, h0, hrun⟩ := h
  exact ⟨s₀, ls ++ [l], h0, hrun.snoc hst⟩

/-- A system with fewer steps reaches less. -/
theorem Reachable.mono {N : LTS S L} {s : S} (h : M.Reachable s)
    (hi : ∀ s, M.init s → N.init s) (hs : ∀ s l t, M.step s l t → N.step s l t) :
    N.Reachable s := by
  have hind : M.Inductive N.Reachable :=
    ⟨fun s h0 => .init (hi s h0), fun s l t hr hst => hr.step (hs s l t hst)⟩
  exact hind.reachable h

/-- Induction over a run from its end: a property of the state and of the labels
that led to it. -/
theorem Run.history {I : List L → S → Prop} {s₀ s : S} {ls : List L} (hr : M.Run s₀ ls s)
    (h₀ : I [] s₀) (hstep : ∀ ls s l t, I ls s → M.step s l t → I (ls ++ [l]) t) : I ls s := by
  suffices ∀ {s t ms}, M.Run s ms t → ∀ ls, I ls s → I (ls ++ ms) t from this hr [] h₀
  intro s t ms hr
  induction hr with
  | nil _ => intro ls h; rwa [List.append_nil]
  | @cons s t u l ms hst _ ih =>
    intro ls h
    rw [← List.singleton_append, ← List.append_assoc]
    exact ih _ (hstep ls s l t h hst)

/-- A measure that no step raises and the labels in `P` lower bounds how often those occur. -/
theorem Inductive.countP_le {I : S → Prop} (h : M.Inductive I) {P : L → Bool} {μ : S → Nat}
    (hle : ∀ s l t, I s → M.step s l t → μ t + [l].countP P ≤ μ s) {s t : S} {ls : List L}
    (hr : M.Run s ls t) (hs : I s) : ls.countP P + μ t ≤ μ s := by
  induction hr with
  | nil _ => simp
  | @cons s t u l ls hst _ ih =>
    have h1 := hle s l t hs hst
    have h2 := ih (h.step s l t hs hst)
    have hsplit : ([l] ++ ls).countP P = [l].countP P + ls.countP P := List.countP_append
    rw [List.singleton_append] at hsplit
    omega

/-- Where some step lowers the measure unless the goal is reached, a run reaches it. -/
theorem Inductive.leads {I F : S → Prop} (h : M.Inductive I) {μ : S → Nat} {P : L → Prop}
    (hstep : ∀ s, I s → F s ∨ ∃ l t, P l ∧ M.step s l t ∧ μ t < μ s) {s : S} (hs : I s) :
    ∃ ls t, M.Run s ls t ∧ F t ∧ ∀ l ∈ ls, P l := by
  induction hn : μ s using Nat.strongRecOn generalizing s with
  | ind n ih =>
    rcases hstep s hs with hF | ⟨l, t, hP, hst, hlt⟩
    · exact ⟨[], s, .nil s, hF, by simp⟩
    · obtain ⟨ls, u, hrun, hF, hall⟩ := ih (μ t) (hn ▸ hlt) (h.step s l t hs hst) rfl
      exact ⟨l :: ls, u, .cons hst hrun, hF, by simpa using ⟨hP, hall⟩⟩

end LTS

end GaOS
