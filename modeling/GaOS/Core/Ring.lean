import Mathlib.Data.List.Chain
import Mathlib.Data.List.Iterate
import Mathlib.Data.List.Nodup

/-!
# Singly linked queues that may be closed into a ring

`Ring null next head last l`: following `next` from `head` visits the nodes `l`,
each once, and ends at `last`, whose own link is `null` (an open chain) or goes
back to `head` (a closed ring). `Ring.push` appends a node and leaves the chain
open; `Ring.rotate` moves the first node to the end and closes the ring.
`Ring.iterate` reads the nodes back from the links.
-/
namespace GaOS

variable {α : Type} {null : α} {next next' : α → α}

structure Ring (null : α) (next : α → α) (head last : α) (l : List α) : Prop where
  chain : l.IsChain fun a b => next a = b
  nodup : l.Nodup
  front : l.head? = some head
  back : l.getLast? = some last
  close : next last = null ∨ next last = head

theorem Ring.head_mem {head last : α} {l : List α} (h : Ring null next head last l) : head ∈ l :=
  List.mem_of_head? h.front

theorem Ring.last_mem {head last : α} {l : List α} (h : Ring null next head last l) : last ∈ l :=
  List.mem_of_getLast? h.back

/-- Links outside of the queue do not matter. -/
theorem Ring.congr {head last : α} {l : List α} (h : Ring null next head last l)
    (hl : ∀ x ∈ l, next' x = next x) : Ring null next' head last l where
  chain := h.chain.imp_of_mem_imp fun a _ ha _ hab => (hl a ha).trans hab
  nodup := h.nodup
  front := h.front
  back := h.back
  close := by rw [hl last h.last_mem]; exact h.close

theorem Ring.single {a : α} (h : next a = null) : Ring null next a a [a] where
  chain := .singleton a
  nodup := List.nodup_singleton a
  front := rfl
  back := rfl
  close := .inl h

theorem iterate_of_isChain {l : List α} {a : α} (h : (a :: l).IsChain fun a b => next a = b) :
    a :: l = List.iterate next a (l.length + 1) := by
  induction l generalizing a with
  | nil => rfl
  | cons b l ih =>
    obtain ⟨hab, hbl⟩ := List.isChain_cons_cons.mp h
    rw [List.length_cons, List.iterate, hab, ← ih hbl]

/-- The nodes are what a walk along the links visits. -/
theorem Ring.iterate {head last : α} {l : List α} (h : Ring null next head last l) :
    l = List.iterate next head l.length := by
  cases l with
  | nil => cases h.front
  | cons a l =>
    have hf := h.front
    cases hf
    exact iterate_of_isChain h.chain

/-- The end of a chain is linked to a further node. -/
theorem isChain_extend {m : List α} {b c : α} (h : (m ++ [b]).IsChain fun a b => next a = b)
    (hm : ∀ x ∈ m, next' x = next x) (hb : next' b = c) :
    (m ++ [b, c]).IsChain fun a b => next' a = b := by
  obtain ⟨h1, -, h3⟩ := List.isChain_append.mp h
  refine List.isChain_append.mpr ⟨?_, List.isChain_pair.mpr hb, ?_⟩
  · exact h1.imp_of_mem_imp fun a _ ha _ hab => (hm a ha).trans hab
  · intro x hx y hy
    rw [hm x (List.mem_of_getLast? hx)]
    exact h3 x hx y hy

theorem Ring.exists_back {head last : α} {l : List α} (h : Ring null next head last l) :
    ∃ m, l = m ++ [last] := List.getLast?_eq_some_iff.mp h.back

theorem not_mem_init {m : List α} {b x : α} (h : (m ++ [b]).Nodup) (hx : x ∈ m) : x ≠ b :=
  fun he => (List.nodup_append.mp h).2.2 x hx b (by simp) he

/-- A new node at the end. -/
theorem Ring.push {head last t : α} {l : List α} (h : Ring null next head last l) (ht : t ∉ l)
    (hlast : next' last = t) (hnull : next' t = null)
    (hrest : ∀ x ∈ l, x ≠ last → next' x = next x) :
    Ring null next' head t (l ++ [t]) := by
  obtain ⟨m, rfl⟩ := h.exists_back
  refine ⟨?_, ?_, ?_, by simp, .inl hnull⟩
  · rw [List.append_assoc]
    exact isChain_extend h.chain
      (fun x hx => hrest x (by simp [hx]) (not_mem_init h.nodup hx)) hlast
  · exact (List.perm_append_singleton _ _).nodup_iff.mpr (List.nodup_cons.mpr ⟨ht, h.nodup⟩)
  · rw [List.head?_append, h.front]
    rfl

/-- The first of several nodes goes to the end. -/
theorem Ring.rotate {head last : α} {m : List α} (h : Ring null next head last (head :: m))
    (hm : m ≠ []) (hlast : next' last = head) (hhead : next' head = next head)
    (hrest : ∀ x ∈ m, x ≠ last → next' x = next x) :
    Ring null next' (next head) head (m ++ [head]) := by
  have hback : m.getLast? = some last := by
    rw [← h.back, List.getLast?_cons_of_ne_nil hm]
  have hnd := h.nodup
  obtain ⟨n, rfl⟩ := List.getLast?_eq_some_iff.mp hback
  obtain ⟨hfirst, hchain⟩ := List.isChain_cons.mp h.chain
  obtain ⟨hnot, htail⟩ := List.nodup_cons.mp hnd
  refine ⟨?_, ?_, ?_, by simp, .inr hhead⟩
  · rw [List.append_assoc]
    exact isChain_extend hchain
      (fun x hx => hrest x (by simp [hx]) (not_mem_init htail hx)) hlast
  · exact (List.perm_append_singleton _ _).nodup_iff.mpr hnd
  · cases hd : (n ++ [last]).head? with
    | none => simp at hd
    | some y => rw [List.head?_append, hd, hfirst y hd]; rfl

end GaOS
