import GaOS.L4Files.Mount

/-!
# Components of a path

Model of `vfs_sanatise_path` (kernel/src/filesystem/vfs.c:241-261), and the components
of a path: what is between its slashes and not empty (`components`). The walks through
the tree of devices take a path apart from the left; the lemmas at the end say what one
step of that does to the components.
-/
namespace GaOS.L4.Files

/-- The rest of a path behind the byte `prev`. -/
def squeeze : Nat → List Nat → List Nat
  | _, [] => []
  | prev, c :: s => if prev = SLASH ∧ c = SLASH then squeeze prev s else c :: squeeze c s

/-- Of delimiters in a row the first one stays.
mirrors kernel/src/filesystem/vfs.c:241-261 -/
def sanatisePath : List Nat → List Nat
  | [] => []
  | c :: s => c :: squeeze c s

/-- The bytes up to the first slash, and the components behind it. -/
def splitPath : List Nat → List Nat × List (List Nat)
  | [] => ([], [])
  | c :: s =>
    let (word, words) := splitPath s
    if c = SLASH then ([], if word = [] then words else word :: words) else (c :: word, words)

def components (path : List Nat) : List (List Nat) :=
  let (word, words) := splitPath path
  if word = [] then words else word :: words

/-- The path ends with a delimiter. -/
def trailing (path : List Nat) : Bool := path.getLast? = some SLASH

/-- A name that can stand between slashes. -/
def Word (w : List Nat) : Prop := w ≠ [] ∧ SLASH ∉ w

/-! ## Components -/

variable {path w s : List Nat}

@[simp] theorem components_nil : components [] = [] := rfl

@[simp] theorem components_slash (s : List Nat) : components (SLASH :: s) = components s := by
  simp [components, splitPath]

theorem splitPath_word (h : SLASH ∉ w) (s : List Nat) :
    splitPath (w ++ SLASH :: s) = (w, components s) := by
  induction w with
  | nil => simp [splitPath, components]
  | cons c w ih =>
    rw [List.mem_cons, not_or] at h
    simp [splitPath, ih h.2, Ne.symm h.1]

theorem components_word (h : Word w) (s : List Nat) :
    components (w ++ SLASH :: s) = w :: components s := by
  rw [components, splitPath_word h.2]
  exact if_neg h.1

theorem splitPath_last (h : SLASH ∉ w) : splitPath w = (w, []) := by
  induction w with
  | nil => rfl
  | cons c w ih =>
    rw [List.mem_cons, not_or] at h
    simp [splitPath, ih h.2, Ne.symm h.1]

theorem components_last (h : Word w) : components w = [w] := by
  rw [components, splitPath_last h.2]
  exact if_neg h.1

/-- Components are words made of bytes of the path. -/
theorem splitPath_words (path : List Nat) :
    (SLASH ∉ (splitPath path).1 ∧ ∀ c ∈ (splitPath path).1, c ∈ path) ∧
      ∀ w ∈ (splitPath path).2, Word w ∧ ∀ c ∈ w, c ∈ path := by
  induction path with
  | nil => simp [splitPath]
  | cons b s ih =>
    obtain ⟨⟨h1, h2⟩, h3⟩ := ih
    have hwords : ∀ w ∈ (splitPath s).2, Word w ∧ ∀ c ∈ w, c ∈ b :: s :=
      fun w hw => ⟨(h3 w hw).1, fun c hc => List.mem_cons_of_mem _ ((h3 w hw).2 c hc)⟩
    by_cases hb : b = SLASH
    · simp only [splitPath, if_pos hb]
      refine ⟨by simp, fun w hw => ?_⟩
      split at hw
      · exact hwords w hw
      · rename_i hne
        rcases List.mem_cons.mp hw with rfl | hw
        · exact ⟨⟨hne, h1⟩, fun c hc => List.mem_cons_of_mem _ (h2 c hc)⟩
        · exact hwords w hw
    · simp only [splitPath, if_neg hb]
      refine ⟨⟨by simp [h1, Ne.symm hb], fun c hc => ?_⟩, hwords⟩
      rcases List.mem_cons.mp hc with rfl | hc
      · exact List.mem_cons_self ..
      · exact List.mem_cons_of_mem _ (h2 c hc)

theorem mem_components (hw : w ∈ components path) : Word w ∧ ∀ c ∈ w, c ∈ path := by
  obtain ⟨⟨h1, h2⟩, h3⟩ := splitPath_words path
  unfold components at hw
  simp only at hw
  split at hw
  · exact h3 w hw
  · rename_i hne
    rcases List.mem_cons.mp hw with rfl | hw
    · exact ⟨⟨hne, h1⟩, h2⟩
    · exact h3 w hw

/-! ## One step of a walk -/

/-- The first component of a path. -/
def dirOf (path : List Nat) : List Nat := path.takeWhile (· ≠ SLASH)

/-- What is behind it. -/
def restOf (path : List Nat) : List Nat := path.drop (dirOf path).length

@[simp] theorem dirOf_slash (s : List Nat) : dirOf (SLASH :: s) = [] := by simp [dirOf]

theorem dirOf_cons {c : Nat} (h : c ≠ SLASH) (s : List Nat) : dirOf (c :: s) = c :: dirOf s := by
  simp [dirOf, h]

theorem restOf_cons {c : Nat} (h : c ≠ SLASH) (s : List Nat) : restOf (c :: s) = restOf s := by
  simp [restOf, dirOf_cons h]

theorem slash_notMem_dirOf (path : List Nat) : SLASH ∉ dirOf path := by
  induction path with
  | nil => simp [dirOf]
  | cons c s ih =>
    by_cases h : c = SLASH
    · rw [h, dirOf_slash]
      simp
    · rw [dirOf_cons h]
      simp [ih, Ne.symm h]

/-- Behind the first component there is a slash, or nothing. -/
theorem path_cases (path : List Nat) :
    (restOf path = [] ∧ path = dirOf path) ∨
      ∃ s, restOf path = SLASH :: s ∧ path = dirOf path ++ SLASH :: s := by
  induction path with
  | nil => exact .inl ⟨rfl, rfl⟩
  | cons c s ih =>
    by_cases h : c = SLASH
    · subst h
      exact .inr ⟨s, by simp [restOf], by simp⟩
    · rw [dirOf_cons h, restOf_cons h]
      rcases ih with ⟨h1, h2⟩ | ⟨r, h1, h2⟩
      · exact .inl ⟨h1, by rw [← h2]⟩
      · exact .inr ⟨r, h1, by rw [List.cons_append, ← h2]⟩

theorem trailing_cons (c b : Nat) (s : List Nat) : trailing (c :: b :: s) = trailing (b :: s) := by
  simp [trailing, List.getLast?_cons_cons]

theorem trailing_append (w : List Nat) {s : List Nat} (h : s ≠ []) :
    trailing (w ++ s) = trailing s := by
  obtain ⟨c, s, rfl⟩ := List.exists_cons_of_ne_nil h
  induction w with
  | nil => rfl
  | cons b w ih =>
    cases w with
    | nil => exact trailing_cons b c s
    | cons d w => exact (trailing_cons b d (w ++ c :: s)).trans ih

theorem trailing_word (h : SLASH ∉ w) : trailing w = false := by
  unfold trailing
  rw [decide_eq_false_iff_not]
  exact fun hl => h (List.mem_of_getLast? hl)

theorem components_cons_ne {c : Nat} (h : c ≠ SLASH) (s : List Nat) : components (c :: s) ≠ [] := by
  simp [components, splitPath, h]

theorem components_ne_nil (hs : s ≠ []) (ht : trailing s = false) : components s ≠ [] := by
  induction s with
  | nil => exact absurd rfl hs
  | cons c s ih =>
    by_cases hc : c = SLASH
    · subst hc
      rw [components_slash]
      cases s with
      | nil => simp [trailing] at ht
      | cons b s => exact ih (by simp) (trailing_cons SLASH b s ▸ ht)
    · exact components_cons_ne hc s

theorem ne_nil_of_dirOf (hd : dirOf path ≠ []) : path ≠ [] := by
  rintro rfl
  exact hd rfl

/-- A walk at a delimiter. -/
theorem slash_step (hp : path ≠ []) (hd : dirOf path = []) : ∃ s, path = SLASH :: s := by
  rcases path_cases path with ⟨-, h⟩ | ⟨s, -, h⟩
  · exact absurd (h.trans hd) hp
  · rw [hd, List.nil_append] at h
    exact ⟨s, h⟩

/-- A walk at a component: it is the last one, or a delimiter is behind it. -/
theorem word_step (hd : dirOf path ≠ []) :
    (restOf path = [] ∧ path = dirOf path ∧ components path = [dirOf path] ∧
        trailing path = false) ∨
      ∃ s, restOf path = SLASH :: s ∧ path = dirOf path ++ SLASH :: s ∧
        components path = dirOf path :: components s ∧ trailing path = trailing (SLASH :: s) ∧
        s.length + 2 ≤ path.length := by
  have hword : Word (dirOf path) := ⟨hd, slash_notMem_dirOf path⟩
  rcases path_cases path with ⟨h0, h⟩ | ⟨s, h0, h⟩
  · refine .inl ⟨h0, h, (congrArg components h).trans (components_last hword), ?_⟩
    exact (congrArg trailing h).trans (trailing_word hword.2)
  · refine .inr ⟨s, h0, h, (congrArg components h).trans (components_word hword s),
      (congrArg trailing h).trans (trailing_append _ (by simp)), ?_⟩
    have hlen := congrArg List.length h
    have hpos := List.length_pos_iff.mpr hd
    simp only [List.length_append, List.length_cons] at hlen
    omega

/-! ## Sanitised paths -/

/-- No two delimiters in a row. -/
def Sanitised : List Nat → Prop
  | a :: b :: s => ¬(a = SLASH ∧ b = SLASH) ∧ Sanitised (b :: s)
  | _ => True

theorem sanitised_squeeze (prev : Nat) (s : List Nat) : Sanitised (prev :: squeeze prev s) := by
  induction s generalizing prev with
  | nil => trivial
  | cons c s ih =>
    rw [squeeze]
    split
    · exact ih prev
    · rename_i h
      exact ⟨h, ih c⟩

theorem sanitised_sanatisePath (path : List Nat) : Sanitised (sanatisePath path) := by
  cases path with
  | nil => trivial
  | cons c s => exact sanitised_squeeze c s

theorem Sanitised.tail {c : Nat} (h : Sanitised (c :: s)) : Sanitised s := by
  cases s with
  | nil => trivial
  | cons b s => exact h.2

theorem Sanitised.right (h : Sanitised (w ++ s)) : Sanitised s := by
  induction w with
  | nil => exact h
  | cons c w ih => exact ih h.tail

/-- The way of a walk down a path, for the inductions over it: past a delimiter; to the last
component; to one with a delimiter behind it and nothing more; or past a component and its
delimiter. -/
inductive Walk : Nat → List Nat → Prop
  | done (rounds : Nat) : Walk (rounds + 1) []
  | slash {rounds : Nat} {r : List Nat} : Walk rounds r → Walk (rounds + 1) (SLASH :: r)
  | last {rounds : Nat} {path : List Nat} : dirOf path ≠ [] → restOf path = [] →
      path = dirOf path → components path = [dirOf path] → trailing path = false →
      Walk (rounds + 1) path
  | ended {rounds : Nat} {path : List Nat} : dirOf path ≠ [] → restOf path = [SLASH] →
      path = dirOf path ++ [SLASH] → components path = [dirOf path] → trailing path = true →
      Walk (rounds + 1) path
  | dir {rounds : Nat} {path : List Nat} {b : Nat} {r : List Nat} : dirOf path ≠ [] →
      restOf path = SLASH :: b :: r → components path = dirOf path :: components (b :: r) →
      trailing path = trailing (b :: r) → components (b :: r) ≠ [] → Walk rounds (b :: r) →
      Walk (rounds + 1) path

theorem walk_of {rounds : Nat} (h : Sanitised path ∨ trailing path = false)
    (hr : path.length < rounds) : Walk rounds path := by
  induction rounds generalizing path with
  | zero => omega
  | succ rounds ih =>
    by_cases hp : path = []
    · rw [hp]
      exact .done rounds
    by_cases hd : dirOf path = []
    · obtain ⟨r, rfl⟩ := slash_step hp hd
      refine .slash (ih ?_ (by simpa using hr))
      cases r with
      | nil => exact .inl trivial
      | cons b r => exact h.imp Sanitised.tail fun ht => trailing_cons SLASH b r ▸ ht
    rcases word_step hd with ⟨h0, hpath, hc, ht⟩ | ⟨r, h0, hpath, hc, ht, hlen⟩
    · exact .last hd h0 hpath hc ht
    cases r with
    | nil => exact .ended hd h0 hpath hc ht
    | cons b r =>
      rw [trailing_cons] at ht
      rcases h with hs | hf
      · have hsr : Sanitised (SLASH :: b :: r) := by
          rw [hpath] at hs
          exact hs.right
        have hb : b ≠ SLASH := fun hb => hsr.1 ⟨rfl, hb⟩
        exact .dir hd h0 hc ht (components_cons_ne hb r) (ih (.inl hsr.tail) (by omega))
      · rw [ht] at hf
        exact .dir hd h0 hc ht (components_ne_nil (by simp) hf) (ih (.inr hf) (by omega))

/-- Taking delimiters out leaves the components as they are. -/
theorem components_cons_congr {s' : List Nat} (h : components s' = components s)
    (hw : (splitPath s').1 = (splitPath s).1) (c : Nat) :
    components (c :: s') = components (c :: s) := by
  by_cases hc : c = SLASH
  · simp [hc, h]
  · have hwords : (splitPath s').2 = (splitPath s).2 := by
      unfold components at h
      simp only [hw] at h
      split at h
      · exact h
      · exact (List.cons.inj h).2
    simp [components, splitPath, hc, hw, hwords]

theorem squeeze_split (prev : Nat) (s : List Nat) :
    components (squeeze prev s) = components s ∧
      (prev ≠ SLASH → (splitPath (squeeze prev s)).1 = (splitPath s).1) := by
  induction s generalizing prev with
  | nil => exact ⟨rfl, fun _ => rfl⟩
  | cons c s ih =>
    rw [squeeze]
    split
    · rename_i h
      rw [h.2, components_slash]
      exact ⟨(ih prev).1, fun hne => absurd h.1 hne⟩
    · by_cases hc : c = SLASH
      · subst hc
        refine ⟨?_, fun _ => by simp [splitPath]⟩
        rw [components_slash, components_slash]
        exact (ih SLASH).1
      · obtain ⟨h1, h2⟩ := ih c
        refine ⟨components_cons_congr h1 (h2 hc) c, fun _ => ?_⟩
        simp [splitPath, hc, h2 hc]

theorem components_sanatisePath (path : List Nat) :
    components (sanatisePath path) = components path := by
  cases path with
  | nil => rfl
  | cons c s =>
    rw [sanatisePath]
    by_cases hc : c = SLASH
    · rw [hc, components_slash, components_slash]
      exact (squeeze_split SLASH s).1
    · obtain ⟨h1, h2⟩ := squeeze_split c s
      exact components_cons_congr h1 (h2 hc) c

theorem trailing_squeeze (prev : Nat) (s : List Nat) :
    trailing (prev :: squeeze prev s) = trailing (prev :: s) := by
  induction s generalizing prev with
  | nil => rfl
  | cons c s ih =>
    rw [squeeze]
    split
    · rename_i h
      rw [ih prev, trailing_cons, h.1, h.2]
    · rw [trailing_cons, trailing_cons]
      exact ih c

theorem trailing_sanatisePath (path : List Nat) : trailing (sanatisePath path) = trailing path := by
  cases path with
  | nil => rfl
  | cons c s => exact trailing_squeeze c s

end GaOS.L4.Files
