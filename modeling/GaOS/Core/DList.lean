import Mathlib.Data.List.Nodup

/-!
# Doubly linked lists in memory

`DList null next prev s l`: following `next` from `s` visits exactly the nodes
`l`, each once, and ends at `null`; `prev` goes back along the same way. The
three lemmas `DList.push`, `DList.remove` and `DList.insertAfter` say what the
usual pointer updates do to such a list, in terms of the link functions
afterwards; `DList.congr` is the frame rule.
-/
namespace GaOS

variable {α : Type} {null : α} {next prev next' prev' : α → α}

/-- The nodes `l` from `s` on; `p` comes before `s`. -/
def Seg (null : α) (next prev : α → α) : α → α → List α → Prop
  | _, s, [] => s = null
  | p, s, b :: l => s = b ∧ b ≠ null ∧ prev b = p ∧ Seg null next prev b (next b) l

structure DList (null : α) (next prev : α → α) (s : α) (l : List α) : Prop where
  seg : Seg null next prev null s l
  nodup : l.Nodup

theorem Seg.congr {l : List α} (hl : ∀ x ∈ l, next' x = next x ∧ prev' x = prev x) {p s : α}
    (h : Seg null next prev p s l) : Seg null next' prev' p s l := by
  induction l generalizing p s with
  | nil => exact h
  | cons b l ih =>
    obtain ⟨h1, h2, h3, h4⟩ := h
    have hb := hl b (by simp)
    exact ⟨h1, h2, hb.2.trans h3, hb.1 ▸ ih (fun x hx => hl x (by simp [hx])) h4⟩

theorem Seg.ne_null {l : List α} {p s b : α} (h : Seg null next prev p s l) (hb : b ∈ l) :
    b ≠ null := by
  induction l generalizing p s with
  | nil => cases hb
  | cons c l ih =>
    cases hb with
    | head => exact h.2.1
    | tail _ hb => exact ih h.2.2.2 hb

/-- The neighbours of a node. -/
theorem Seg.neighbours {xs ys : List α} {p s b : α} (h : Seg null next prev p s (xs ++ b :: ys)) :
    ((xs = [] ∧ s = b ∧ prev b = p) ∨ (xs ≠ [] ∧ s ∈ xs ∧ prev b ∈ xs)) ∧
      Seg null next prev b (next b) ys := by
  induction xs generalizing p s with
  | nil =>
    obtain ⟨h1, -, h3, h4⟩ := h
    exact ⟨.inl ⟨rfl, h1, h3⟩, h4⟩
  | cons c xs ih =>
    obtain ⟨h1, -, -, h4⟩ := h
    obtain ⟨hc, hrest⟩ := ih h4
    refine ⟨.inr ⟨by simp, by simp [h1], ?_⟩, hrest⟩
    rcases hc with ⟨rfl, -, hp⟩ | ⟨-, -, hp⟩
    · simp [hp]
    · simp [hp]

theorem Seg.start {l : List α} {p s : α} (h : Seg null next prev p s l) : s = null ∨ s ∈ l := by
  cases l with
  | nil => exact .inl h
  | cons b l => exact .inr (by simp [h.1])

theorem DList.congr {s : α} {l : List α} (h : DList null next prev s l)
    (hl : ∀ x ∈ l, next' x = next x ∧ prev' x = prev x) : DList null next' prev' s l :=
  ⟨h.seg.congr hl, h.nodup⟩

theorem DList.ne_null {s b : α} {l : List α} (h : DList null next prev s l) (hb : b ∈ l) :
    b ≠ null := h.seg.ne_null hb

/-- The links determine the nodes. -/
theorem Seg.unique {l l' : List α} {p s : α} (h : Seg null next prev p s l)
    (h' : Seg null next prev p s l') : l = l' := by
  induction l generalizing p s l' with
  | nil =>
    cases l' with
    | nil => rfl
    | cons b l' => exact absurd (h'.1.symm.trans h) h'.2.1
  | cons b l ih =>
    obtain ⟨rfl, hb, -, hrest⟩ := h
    cases l' with
    | nil => exact absurd h' hb
    | cons c l' =>
      obtain ⟨rfl, -, -, hrest'⟩ := h'
      rw [ih hrest hrest']

theorem DList.unique {s : α} {l l' : List α} (h : DList null next prev s l)
    (h' : DList null next prev s l') : l = l' := h.seg.unique h'.seg

theorem DList.nil : DList null next prev null [] := ⟨rfl, List.nodup_nil⟩

/-! ## The updates -/

variable [DecidableEq α]

/-- A new node in front. -/
theorem DList.push {s b : α} {l : List α} (h : DList null next prev s l) (hb : b ≠ null)
    (hbl : b ∉ l) (hself : next' b = s ∧ prev' b = null)
    (hn : ∀ x ∈ l, next' x = next x) (hp : ∀ x ∈ l, prev' x = if x = s then b else prev x) :
    DList null next' prev' b (b :: l) := by
  refine ⟨⟨rfl, hb, hself.2, ?_⟩, List.nodup_cons.mpr ⟨hbl, h.nodup⟩⟩
  rw [hself.1]
  have hseg := h.seg
  have hnd := h.nodup
  cases l with
  | nil => exact hseg
  | cons c l =>
    obtain ⟨rfl, h2, -, h4⟩ := hseg
    refine ⟨rfl, h2, by rw [hp s (by simp), if_pos rfl], ?_⟩
    rw [hn s (by simp)]
    refine h4.congr fun x hx => ⟨hn x (by simp [hx]), ?_⟩
    have hne : x ≠ s := fun he => (List.nodup_cons.mp hnd).1 (he ▸ hx)
    rw [hp x (by simp [hx]), if_neg hne]

theorem Seg.remove {xs ys : List α} {p s b : α} (h : Seg null next prev p s (xs ++ b :: ys))
    (hnd : (xs ++ b :: ys).Nodup) (hpl : p ∉ xs ++ b :: ys)
    (hn : ∀ x ∈ xs ++ ys, next' x = if x = prev b then next b else next x)
    (hp : ∀ x ∈ xs ++ ys, prev' x = if x = next b then prev b else prev x) :
    Seg null next' prev' p (if b = s then next b else s) (xs ++ ys) := by
  induction xs generalizing p s with
  | nil =>
    obtain ⟨rfl, -, hpb, hys⟩ := h
    rw [if_pos rfl]
    cases ys with
    | nil => exact hys
    | cons c ys =>
      obtain ⟨hc, hc0, -, hrest⟩ := hys
      simp only [List.nil_append, List.nodup_cons, List.mem_cons, not_or] at hnd hpl
      have hold : ∀ x ∈ c :: ys, next' x = next x := by
        intro x hx
        refine (hn x hx).trans (if_neg fun he => ?_)
        rw [hpb] at he
        cases hx with
        | head => exact hpl.2.1 he.symm
        | tail _ hx => exact hpl.2.2 (he ▸ hx)
      refine ⟨hc, hc0, by rw [hp c (by simp), if_pos hc.symm, hpb], ?_⟩
      rw [hold c (by simp)]
      refine hrest.congr fun x hx => ⟨hold x (by simp [hx]), ?_⟩
      have hne : x ≠ next s := fun he => hnd.2.1 (hc ▸ he ▸ hx)
      rw [hp x (by simp [hx]), if_neg hne]
  | cons c xs ih =>
    obtain ⟨hs, hc0, hpc, hrest⟩ := h
    rw [List.cons_append, List.nodup_cons] at hnd
    have hbc : b ≠ c := fun he => hnd.1 (by simp [he])
    obtain ⟨hneigh, hys⟩ := hrest.neighbours
    rw [hs, if_neg hbc]
    refine ⟨rfl, hc0, ?_, ?_⟩
    · have hne : c ≠ next b := by
        intro he
        rcases hys.start with h0 | hin
        · exact hc0 (he.trans h0)
        · exact hnd.1 (by simp [he, hin])
      rw [hp c (by simp), if_neg hne, hpc]
    · have hstart : next' c = if b = next c then next b else next c := by
        rw [hn c (by simp)]
        rcases hneigh with ⟨-, h1, h2⟩ | ⟨-, h1, h2⟩
        · rw [if_pos h2.symm, if_pos h1.symm]
        · have e1 : c ≠ prev b := fun he => hnd.1 (by simp [he, h2])
          have e2 : b ≠ next c := by
            intro he
            have := List.nodup_append.mp hnd.2
            exact this.2.2 _ h1 b (by simp) he.symm
          rw [if_neg e1, if_neg e2]
      rw [hstart]
      exact ih hrest hnd.2 hnd.1 (fun x hx => hn x (by simp [hx])) fun x hx => hp x (by simp [hx])

/-- A node unlinked. -/
theorem DList.remove {xs ys : List α} {s b : α} (h : DList null next prev s (xs ++ b :: ys))
    (hn : ∀ x ∈ xs ++ ys, next' x = if x = prev b then next b else next x)
    (hp : ∀ x ∈ xs ++ ys, prev' x = if x = next b then prev b else prev x) :
    DList null next' prev' (if b = s then next b else s) (xs ++ ys) :=
  ⟨h.seg.remove h.nodup (fun hc => h.ne_null hc rfl) hn hp,
    h.nodup.sublist (List.Sublist.append_left (List.sublist_cons_self b ys) xs)⟩

theorem Seg.insertAfter {xs ys : List α} {p s c b : α} (h : Seg null next prev p s (xs ++ c :: ys))
    (hnd : (xs ++ c :: ys).Nodup) (hb : b ≠ null) (hbl : b ∉ xs ++ c :: ys)
    (hn : ∀ x ∈ xs ++ c :: b :: ys,
      next' x = if x = c then b else if x = b then next c else next x)
    (hp : ∀ x ∈ xs ++ c :: b :: ys,
      prev' x = if x = b then c else if x = next c then b else prev x) :
    Seg null next' prev' p s (xs ++ c :: b :: ys) := by
  induction xs generalizing p s with
  | nil =>
    obtain ⟨hs, hc0, hpc, hys⟩ := h
    simp only [List.nil_append, List.nodup_cons, List.mem_cons, not_or] at hnd hbl
    have hcn : c ≠ next c := by
      intro he
      rcases hys.start with h0 | hin
      · exact hc0 (he.trans h0)
      · exact hnd.1 (he ▸ hin)
    refine ⟨hs, hc0, ?_, ?_⟩
    · rw [hp c (by simp), if_neg (fun he => hbl.1 he.symm), if_neg hcn, hpc]
    · rw [hn c (by simp), if_pos rfl]
      refine ⟨rfl, hb, by rw [hp b (by simp), if_pos rfl], ?_⟩
      rw [hn b (by simp), if_neg hbl.1, if_pos rfl]
      cases ys with
      | nil => exact hys
      | cons d ys =>
        obtain ⟨hd, hd0, -, hrest⟩ := hys
        have hnext : ∀ x ∈ d :: ys, next' x = next x := by
          intro x hx
          have e1 : x ≠ c := fun he => hnd.1 (he ▸ hx)
          have e2 : x ≠ b := fun he => hbl.2 (he ▸ hx)
          rw [hn x (by simp [hx]), if_neg e1, if_neg e2]
        have hdb : d ≠ b := fun he => hbl.2 (by simp [he])
        refine ⟨hd, hd0, by rw [hp d (by simp), if_neg hdb, if_pos hd.symm], ?_⟩
        rw [hnext d (by simp)]
        refine hrest.congr fun x hx => ⟨hnext x (by simp [hx]), ?_⟩
        have e1 : x ≠ b := fun he => hbl.2 (by simp [← he, hx])
        have e2 : x ≠ next c := fun he => (List.nodup_cons.mp hnd.2).1 (hd ▸ he ▸ hx)
        rw [hp x (by simp [hx]), if_neg e1, if_neg e2]
  | cons a xs ih =>
    obtain ⟨hs, ha0, hpa, hrest⟩ := h
    rw [List.cons_append, List.nodup_cons] at hnd
    rw [List.cons_append, List.mem_cons, not_or] at hbl
    obtain ⟨-, hys⟩ := hrest.neighbours
    have e1 : a ≠ b := fun he => hbl.1 he.symm
    have e2 : a ≠ c := fun he => hnd.1 (by simp [he])
    have e3 : a ≠ next c := by
      intro he
      rcases hys.start with h0 | hin
      · exact ha0 (he.trans h0)
      · exact hnd.1 (by simp [he, hin])
    refine ⟨hs, ha0, by rw [hp a (by simp), if_neg e1, if_neg e3, hpa], ?_⟩
    rw [hn a (by simp), if_neg e2, if_neg e1]
    exact ih hrest hnd.2 hbl.2 (fun x hx => hn x (by simp at hx ⊢; tauto))
      fun x hx => hp x (by simp at hx ⊢; tauto)

theorem perm_insertAfter {α : Type} (us vs : List α) (c b : α) :
    (us ++ c :: b :: vs).Perm (b :: (us ++ c :: vs)) := by
  have : us ++ c :: b :: vs = (us ++ [c]) ++ b :: vs := by simp
  rw [this]
  exact List.perm_middle.trans (by simp)

/-- A new node `b` after `c`. -/
theorem DList.insertAfter {xs ys : List α} {s c b : α} (h : DList null next prev s (xs ++ c :: ys))
    (hb : b ≠ null) (hbl : b ∉ xs ++ c :: ys)
    (hn : ∀ x ∈ xs ++ c :: b :: ys,
      next' x = if x = c then b else if x = b then next c else next x)
    (hp : ∀ x ∈ xs ++ c :: b :: ys,
      prev' x = if x = b then c else if x = next c then b else prev x) :
    DList null next' prev' s (xs ++ c :: b :: ys) := by
  refine ⟨h.seg.insertAfter h.nodup hb hbl hn hp, ?_⟩
  exact (perm_insertAfter xs ys c b).nodup_iff.mpr (List.nodup_cons.mpr ⟨hbl, h.nodup⟩)

end GaOS
