import GaOS.Core.DList
import GaOS.L3Heap.BlockAllocator

/-!
# Headers in memory

The list operations write single words of block headers. `Fields` tracks what
the four fields of a set of headers are after some writes, and that nothing
outside these headers has changed; each setter updates one of the four
functions (`Fields.setNext` and its siblings), provided that the headers do not
overlap (`Headers`).

`pushBlock_lists` and `removeBlock_lists` are what the code's list operations
do to the two lists of the heap.
-/
namespace GaOS.L3.BlockAllocator

open GaOS.L1 GaOS.L1.PageAllocator GaOS.L2.TableManager

/-- Headers at these addresses do not overlap, and none is at the null
pointer. -/
structure Headers (B : List Nat) : Prop where
  apart : ∀ a ∈ B, ∀ b ∈ B, a = b ∨ a + HEADER ≤ b ∨ b + HEADER ≤ a
  ne_zero : ∀ b ∈ B, b ≠ 0

/-- A further header that is apart from the others. -/
theorem Headers.insert {B B' : List Nat} {b : Nat} (hB : Headers B)
    (hmem : ∀ x ∈ B', x = b ∨ x ∈ B) (hfar : ∀ x ∈ B, x + HEADER ≤ b ∨ b + HEADER ≤ x)
    (hb : b ≠ 0) : Headers B' := by
  refine ⟨fun x hx y hy => ?_, fun x hx => ?_⟩
  · rcases hmem x hx with rfl | hx <;> rcases hmem y hy with rfl | hy
    · exact .inl rfl
    · have := hfar y hy
      omega
    · have := hfar x hx
      omega
    · exact hB.apart x hx y hy
  · rcases hmem x hx with rfl | hx
    · exact hb
    · exact hB.ne_zero x hx

/-- `y` is in none of the headers. -/
def Outside (B : List Nat) (y : Nat) : Prop := ∀ x ∈ B, y < x ∨ x + HEADER ≤ y

/-- The fields of the headers `B` in `mem'`, which is `mem` elsewhere. -/
structure Fields (B : List Nat) (mem mem' : Mem) (n p z g : Nat → Nat) : Prop where
  next_eq : ∀ x ∈ B, next mem' x = n x
  previous_eq : ∀ x ∈ B, previous mem' x = p x
  size_eq : ∀ x ∈ B, size mem' x = z x
  signature_eq : ∀ x ∈ B, signature mem' x = g x
  frame : ∀ y, Outside B y → mem' y = mem y

variable {B : List Nat} {mem mem' : Mem} {n p z g : Nat → Nat} {b : Nat}

theorem Fields.refl (B : List Nat) (mem : Mem) :
    Fields B mem mem (next mem) (previous mem) (size mem) (signature mem) :=
  ⟨fun _ _ => rfl, fun _ _ => rfl, fun _ _ => rfl, fun _ _ => rfl, fun _ _ => rfl⟩

/-- A store into one header does not reach another word of any header. -/
theorem Headers.store (hB : Headers B) (hb : b ∈ B) (o o' v : Nat) (hne : o ≠ o')
    (ho : o < HEADER) (ho' : o' < HEADER) {x : Nat} (hx : x ∈ B) :
    mem.store (b + o') v (x + o) = mem (x + o) := by
  refine Mem.store_ne _ _ fun he => ?_
  rcases hB.apart x hx b hb with h | h | h <;> simp only [HEADER] at * <;> omega

theorem store_outside (hb : b ∈ B) (o v : Nat) (ho : o < HEADER) {y : Nat} (hy : Outside B y) :
    mem.store (b + o) v y = mem y := by
  refine Mem.store_ne _ _ fun he => ?_
  have := hy b hb
  omega

theorem store_update (f : Nat → Nat) (o v : Nat) {x : Nat} (hf : mem (x + o) = f x) :
    mem.store (b + o) v (x + o) = Function.update f b v x := by
  by_cases hx : x = b
  · rw [hx, Mem.store_self, Function.update_self]
  · rw [Mem.store_ne _ _ (by omega), Function.update_of_ne hx, hf]

theorem Fields.setNext (hB : Headers B) (h : Fields B mem mem' n p z g) (hb : b ∈ B) (v : Nat) :
    Fields B mem (setNext mem' b v) (Function.update n b v) p z g where
  next_eq x hx := store_update n 16 v (h.next_eq x hx)
  previous_eq x hx :=
    (hB.store hb 32 16 v (by decide) (by decide) (by decide) hx).trans (h.previous_eq x hx)
  size_eq x hx :=
    (hB.store hb 8 16 v (by decide) (by decide) (by decide) hx).trans (h.size_eq x hx)
  signature_eq x hx :=
    (hB.store hb 0 16 v (by decide) (by decide) (by decide) hx).trans (h.signature_eq x hx)
  frame y hy := (store_outside hb 16 v (by decide) hy).trans (h.frame y hy)

theorem Fields.setPrevious (hB : Headers B) (h : Fields B mem mem' n p z g) (hb : b ∈ B) (v : Nat) :
    Fields B mem (setPrevious mem' b v) n (Function.update p b v) z g where
  next_eq x hx :=
    (hB.store hb 16 32 v (by decide) (by decide) (by decide) hx).trans (h.next_eq x hx)
  previous_eq x hx := store_update p 32 v (h.previous_eq x hx)
  size_eq x hx :=
    (hB.store hb 8 32 v (by decide) (by decide) (by decide) hx).trans (h.size_eq x hx)
  signature_eq x hx :=
    (hB.store hb 0 32 v (by decide) (by decide) (by decide) hx).trans (h.signature_eq x hx)
  frame y hy := (store_outside hb 32 v (by decide) hy).trans (h.frame y hy)

theorem Fields.setSize (hB : Headers B) (h : Fields B mem mem' n p z g) (hb : b ∈ B) (v : Nat) :
    Fields B mem (setSize mem' b v) n p (Function.update z b v) g where
  next_eq x hx :=
    (hB.store hb 16 8 v (by decide) (by decide) (by decide) hx).trans (h.next_eq x hx)
  previous_eq x hx :=
    (hB.store hb 32 8 v (by decide) (by decide) (by decide) hx).trans (h.previous_eq x hx)
  size_eq x hx := store_update z 8 v (h.size_eq x hx)
  signature_eq x hx :=
    (hB.store hb 0 8 v (by decide) (by decide) (by decide) hx).trans (h.signature_eq x hx)
  frame y hy := (store_outside hb 8 v (by decide) hy).trans (h.frame y hy)

theorem Fields.setSignature (hB : Headers B) (h : Fields B mem mem' n p z g) (hb : b ∈ B)
    (v : Nat) :
    Fields B mem (setSignature mem' b v) n p z (Function.update g b v) where
  next_eq x hx :=
    (hB.store hb 16 0 v (by decide) (by decide) (by decide) hx).trans (h.next_eq x hx)
  previous_eq x hx :=
    (hB.store hb 32 0 v (by decide) (by decide) (by decide) hx).trans (h.previous_eq x hx)
  size_eq x hx :=
    (hB.store hb 8 0 v (by decide) (by decide) (by decide) hx).trans (h.size_eq x hx)
  signature_eq x hx := store_update g 0 v (h.signature_eq x hx)
  frame y hy := (store_outside hb 0 v (by decide) hy).trans (h.frame y hy)

/-! ## The two lists -/

variable {σ : Type} {h : Heap σ} {L : BlockList → List Nat}

/-- The heap's lists are well-formed and share no block. -/
structure Lists (h : Heap σ) (L : BlockList → List Nat) : Prop where
  dlist : ∀ k, DList 0 (next h.mem) (previous h.mem) (h.start k) (L k)
  disjoint : ∀ x j k, x ∈ L j → x ∈ L k → j = k

theorem Heap.setStart_mem (h : Heap σ) (k : BlockList) (b : Nat) :
    (h.setStart k b).mem = h.mem := by
  cases k <;> rfl

theorem Heap.setStart_start (h : Heap σ) (j k : BlockList) (b : Nat) :
    (h.setStart k b).start j = if j = k then b else h.start j := by
  cases j <;> cases k <;> rfl

theorem pushBlock_start (k : BlockList) (b : Nat) (h : Heap σ) (j : BlockList) :
    (pushBlock k b h).start j = if j = k then b else h.start j := by
  rw [pushBlock, Heap.setStart_start]
  cases j <;> rfl

theorem pushBlock_fields (hB : Headers B) (hb : b ∈ B) {k : BlockList}
    (hs : h.start k = 0 ∨ h.start k ∈ B) :
    ∃ p, Fields B h.mem (pushBlock k b h).mem (Function.update (next h.mem) b (h.start k)) p
        (size h.mem) (signature h.mem) ∧
      ∀ x ∈ B, p x = if x = h.start k then b else if x = b then 0 else previous h.mem x := by
  have hf := ((Fields.refl B h.mem).setNext hB hb (h.start k)).setPrevious hB hb 0
  rw [pushBlock, Heap.setStart_mem]
  by_cases h0 : h.start k = 0
  · refine ⟨_, by simpa only [h0, ne_eq, not_true_eq_false, if_false] using hf, fun x hx => ?_⟩
    rw [h0, if_neg (hB.ne_zero x hx), Function.update_apply]
  · have hf' := hf.setPrevious hB (hs.resolve_left h0) b
    refine ⟨_, by simpa only [h0, ne_eq, not_false_eq_true, if_true] using hf', fun x _ => ?_⟩
    rw [Function.update_apply, Function.update_apply]

theorem Lists.start_mem (hL : Lists h L) (hsub : ∀ k, ∀ x ∈ L k, x ∈ B) (k : BlockList) :
    h.start k = 0 ∨ h.start k ∈ B := by
  cases (hL.dlist k).seg.start with
  | inl h0 => exact .inl h0
  | inr hm => exact .inr (hsub k _ hm)

/-- Pushing a block that is on neither list. -/
theorem pushBlock_lists (hB : Headers B) (hL : Lists h L) (hsub : ∀ k, ∀ x ∈ L k, x ∈ B)
    (hb : b ∈ B) (hnew : ∀ k, b ∉ L k) (k : BlockList) :
    Lists (pushBlock k b h) (Function.update L k (b :: L k)) := by
  obtain ⟨p, hf, hp⟩ := pushBlock_fields hB hb (hL.start_mem hsub k)
  have hne : ∀ j, ∀ x ∈ L j, x ≠ b := fun j x hx he => hnew j (he ▸ hx)
  have hnext : ∀ j, ∀ x ∈ L j, next (pushBlock k b h).mem x = next h.mem x := by
    intro j x hx
    rw [hf.next_eq x (hsub j x hx), Function.update_of_ne (hne j x hx)]
  have hprev : ∀ j, ∀ x ∈ L j, previous (pushBlock k b h).mem x =
      if x = h.start k then b else previous h.mem x := by
    intro j x hx
    rw [hf.previous_eq x (hsub j x hx), hp x (hsub j x hx), if_neg (hne j x hx)]
  refine ⟨fun j => ?_, fun x i j hi hj => ?_⟩
  · rw [pushBlock_start]
    by_cases hj : j = k
    · subst hj
      rw [if_pos rfl, Function.update_self]
      refine (hL.dlist j).push (hB.ne_zero b hb) (hnew j) ⟨?_, ?_⟩ (hnext j) (hprev j)
      · rw [hf.next_eq b hb, Function.update_self]
      · have hbs : b ≠ h.start j := by
          intro he
          cases (hL.dlist j).seg.start with
          | inl h0 => exact hB.ne_zero b hb (he.trans h0)
          | inr hm => exact hnew j (he ▸ hm)
        rw [hf.previous_eq b hb, hp b hb, if_neg hbs, if_pos rfl]
    · rw [if_neg hj, Function.update_of_ne hj]
      refine (hL.dlist j).congr fun x hx => ⟨hnext j x hx, ?_⟩
      have hxs : x ≠ h.start k := by
        intro he
        cases (hL.dlist k).seg.start with
        | inl h0 => exact hB.ne_zero x (hsub j x hx) (he.trans h0)
        | inr hm => exact hj (hL.disjoint x j k hx (he ▸ hm))
      rw [hprev j x hx, if_neg hxs]
  · -- `b` is new, so only on the list it was pushed to
    have hold : ∀ j, x ∈ Function.update L k (b :: L k) j → x = b ∧ j = k ∨ x ∈ L j := by
      intro j hj
      rw [Function.update_apply] at hj
      split at hj
      · rename_i hjk
        cases hj with
        | head => exact .inl ⟨rfl, hjk⟩
        | tail _ hj => exact .inr (hjk ▸ hj)
      · exact .inr hj
    rcases hold i hi with ⟨e1, e2⟩ | hi' <;> rcases hold j hj with ⟨e3, e4⟩ | hj'
    · rw [e2, e4]
    · exact absurd (e1 ▸ hj') (hnew j)
    · exact absurd (e3 ▸ hi') (hnew i)
    · exact hL.disjoint x i j hi' hj'

/-- The neighbours of `b` skip it. -/
theorem unlink_fields (hB : Headers B) (hb : b ∈ B)
    (hpb : previous mem b = 0 ∨ previous mem b ∈ B) (hnb : next mem b = 0 ∨ next mem b ∈ B)
    (hpne : previous mem b ≠ b) :
    ∃ n p, Fields B mem (unlink mem b) n p (size mem) (signature mem) ∧
      (∀ x ∈ B, n x = if x = previous mem b then next mem b else next mem x) ∧
      ∀ x ∈ B, p x = if x = next mem b then previous mem b else previous mem x := by
  -- first the link of the predecessor
  obtain ⟨m₁, n, hm₁, hf, hn⟩ : ∃ m₁ n,
      m₁ = (if previous mem b ≠ 0 then setNext mem (previous mem b) (next mem b) else mem) ∧
      Fields B mem m₁ n (previous mem) (size mem) (signature mem) ∧
      ∀ x ∈ B, n x = if x = previous mem b then next mem b else next mem x := by
    by_cases h0 : previous mem b = 0
    · refine ⟨_, _, rfl, by simpa [h0] using Fields.refl B mem, fun x hx => ?_⟩
      rw [h0, if_neg (hB.ne_zero x hx)]
    · refine ⟨_, _, rfl, ?_, fun x _ => Function.update_apply _ _ _ x⟩
      simpa [h0] using (Fields.refl B mem).setNext hB (hpb.resolve_left h0) (next mem b)
  have hnext : next m₁ b = next mem b := by
    rw [hf.next_eq b hb, hn b hb, if_neg (Ne.symm hpne)]
  have hprev : previous m₁ b = previous mem b := hf.previous_eq b hb
  -- then the link of the successor
  simp only [unlink, ← hm₁, hnext, hprev]
  by_cases h0 : next mem b = 0
  · refine ⟨n, _, by simpa [h0] using hf, hn, fun x hx => ?_⟩
    rw [h0, if_neg (hB.ne_zero x hx)]
  · refine ⟨n, _, ?_, hn, fun x _ => Function.update_apply _ _ _ x⟩
    simpa [h0] using hf.setPrevious hB (hnb.resolve_left h0) (previous mem b)

theorem removeBlock_fields (hB : Headers B) (hb : b ∈ B)
    (hpb : previous h.mem b = 0 ∨ previous h.mem b ∈ B)
    (hnb : next h.mem b = 0 ∨ next h.mem b ∈ B)
    (hpne : previous h.mem b ≠ b) :
    (∃ n p, Fields B h.mem (removeBlockFromList b h).mem n p (size h.mem) (signature h.mem) ∧
      (∀ x ∈ B, x ≠ b → n x = if x = previous h.mem b then next h.mem b else next h.mem x) ∧
      ∀ x ∈ B, x ≠ b → p x = if x = next h.mem b then previous h.mem b else previous h.mem x) ∧
    ∀ k, (removeBlockFromList b h).start k = if b = h.start k then next h.mem b else h.start k := by
  obtain ⟨n, p, hf, hn, hp⟩ := unlink_fields hB hb hpb hnb hpne
  have hnext : next (unlink h.mem b) b = next h.mem b := by
    rw [hf.next_eq b hb, hn b hb, if_neg (Ne.symm hpne)]
  refine ⟨⟨_, _, (hf.setPrevious hB hb 0).setNext hB hb 0, fun x hx hne => ?_,
    fun x hx hne => ?_⟩, fun k => ?_⟩
  · rw [Function.update_of_ne hne, hn x hx]
  · rw [Function.update_of_ne hne, hp x hx]
  · cases k <;> simp only [removeBlockFromList, Heap.start, hnext] <;> rfl

/-- A block and its neighbours are on no other list. -/
theorem Lists.other (hL : Lists h L) (hB : Headers B) (hsub : ∀ k, ∀ x ∈ L k, x ∈ B)
    {j k : BlockList} (hb : b ∈ L k) (hp : previous h.mem b = 0 ∨ previous h.mem b ∈ L k)
    (hn : next h.mem b = 0 ∨ next h.mem b ∈ L k) (hj : j ≠ k) :
    ∀ x ∈ L j, x ≠ b ∧ x ≠ previous h.mem b ∧ x ≠ next h.mem b := by
  intro x hx
  have hx0 := hB.ne_zero x (hsub j x hx)
  refine ⟨fun he => hj (hL.disjoint x j k hx (he ▸ hb)), fun he => ?_, fun he => ?_⟩
  · rcases hp with h0 | hin
    · exact hx0 (he.trans h0)
    · exact hj (hL.disjoint x j k hx (he ▸ hin))
  · rcases hn with h0 | hin
    · exact hx0 (he.trans h0)
    · exact hj (hL.disjoint x j k hx (he ▸ hin))

/-- Removing a block from the list that it is on; the other list is not
touched. -/
theorem removeBlock_lists (hB : Headers B) (hL : Lists h L) (hsub : ∀ k, ∀ x ∈ L k, x ∈ B)
    {k : BlockList} {xs ys : List Nat} (hk : L k = xs ++ b :: ys) :
    Lists (removeBlockFromList b h) (Function.update L k (xs ++ ys)) ∧
      ∃ n p, Fields B h.mem (removeBlockFromList b h).mem n p (size h.mem) (signature h.mem) := by
  have hd := hL.dlist k
  rw [hk] at hd
  have hbk : b ∈ L k := by rw [hk]; simp
  have hmemk : ∀ x, x ∈ xs ∨ x ∈ ys → x ∈ L k := by
    intro x hx
    rw [hk, List.mem_append, List.mem_cons]
    rcases hx with hx | hx
    · exact .inl hx
    · exact .inr (.inr hx)
  have hnd := List.nodup_append.mp hd.nodup
  have hbxs : b ∉ xs := fun hc => hnd.2.2 b hc b (by simp) rfl
  have hbys : b ∉ ys := (List.nodup_cons.mp hnd.2.1).1
  obtain ⟨hprev, hys⟩ := hd.seg.neighbours
  have hpb : previous h.mem b = 0 ∨ previous h.mem b ∈ xs := by
    rcases hprev with ⟨-, -, h0⟩ | ⟨-, -, hx⟩
    · exact .inl h0
    · exact .inr hx
  have hnb : next h.mem b = 0 ∨ next h.mem b ∈ ys := hys.start
  have hb0 := hB.ne_zero b (hsub k b hbk)
  obtain ⟨⟨n, p, hf, hn, hp⟩, hstart⟩ := removeBlock_fields (h := h) hB (hsub k b hbk)
    (hpb.imp_right fun hx => hsub k _ (hmemk _ (.inl hx)))
    (hnb.imp_right fun hx => hsub k _ (hmemk _ (.inr hx)))
    (by
      intro he
      rcases hpb with h0 | hx
      · exact hb0 (he ▸ h0)
      · exact hbxs (he ▸ hx))
  refine ⟨⟨fun j => ?_, fun x i j hi hj => ?_⟩, n, p, hf⟩
  · rw [hstart]
    by_cases hj : j = k
    · subst hj
      rw [Function.update_self]
      have hne : ∀ x ∈ xs ++ ys, x ∈ B ∧ x ≠ b := by
        intro x hx
        rw [List.mem_append] at hx
        refine ⟨hsub j x (hmemk x hx), fun he => ?_⟩
        rcases hx with hx | hx
        · exact hbxs (he ▸ hx)
        · exact hbys (he ▸ hx)
      refine hd.remove (fun x hx => ?_) fun x hx => ?_
      · obtain ⟨hxB, hxb⟩ := hne x hx
        rw [hf.next_eq x hxB, hn x hxB hxb]
      · obtain ⟨hxB, hxb⟩ := hne x hx
        rw [hf.previous_eq x hxB, hp x hxB hxb]
    · -- no neighbour of `b` is on the other list
      have hother := hL.other hB hsub hbk (hpb.imp_right fun hx => hmemk _ (.inl hx))
        (hnb.imp_right fun hx => hmemk _ (.inr hx)) hj
      have hbs : b ≠ h.start j := by
        intro he
        cases (hL.dlist j).seg.start with
        | inl h0 => exact hb0 (he.trans h0)
        | inr hm => exact (hother _ hm).1 he.symm
      rw [if_neg hbs, Function.update_of_ne hj]
      refine (hL.dlist j).congr fun x hx => ?_
      obtain ⟨h1, h2, h3⟩ := hother x hx
      have hxB := hsub j x hx
      rw [hf.next_eq x hxB, hn x hxB h1, if_neg h2, hf.previous_eq x hxB, hp x hxB h1, if_neg h3]
      exact ⟨rfl, rfl⟩
  · have hold : ∀ j, x ∈ Function.update L k (xs ++ ys) j → x ∈ L j := by
      intro j hj
      rw [Function.update_apply] at hj
      split at hj
      · rename_i hjk
        rw [hjk]
        exact hmemk x (List.mem_append.mp hj)
      · exact hj
    exact hL.disjoint x i j (hold i hi) (hold j hj)

end GaOS.L3.BlockAllocator
