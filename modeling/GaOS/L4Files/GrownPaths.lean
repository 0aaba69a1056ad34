import GaOS.L4Files.Shapes

/-!
# Trees of paths

What a tree of names becomes when paths are added to it one after another. `Fits` says that
it has the names of the paths and nothing else. A path is added without an access through a
null pointer when each of its names that is a prefix of a sibling's name is there already
(`Clear`, `grow_fits`). Then only that path is new (`grow_paths`), and it is new behind every
name that stands before its own (`grow_front`).
-/
namespace GaOS.L4.Devices

open GaOS.L4.Files

/-! ## Trees of paths -/

/-- One of the paths starts with this name. -/
def Heads (ms : List (List (List Nat))) (c : List Nat) : Prop := ∃ m ∈ ms, m.head? = some c

/-- What is behind a name in the paths that go on. -/
def inside (c : List Nat) (ms : List (List (List Nat))) : List (List (List Nat)) :=
  ms.filterMap fun
    | d :: e :: m => if d = c then some (e :: m) else none
    | _ => none

/-- A list has the names that the paths start with, and the dot, each once; and so on
below. -/
inductive Fits : List Shape → List (List (List Nat)) → Prop
  | mk {l : List Shape} {ms : List (List (List Nat))} :
      (∃ s ∈ l, s.name = [DOT]) → (∀ s ∈ l, s.name = [DOT] ∨ Heads ms s.name) →
      (∀ c, Heads ms c → ∃ s ∈ l, s.name = c) → (l.map Shape.name).Nodup →
      (∀ s ∈ l, s.children = [] → inside s.name ms = []) →
      (∀ s ∈ l, s.children ≠ [] → Fits s.children (inside s.name ms)) → Fits l ms

/-- A name of the path that is a prefix of a sibling's name is there already. -/
def Clear (ms : List (List (List Nat))) (cs : List (List Nat)) : Prop :=
  ∀ ds x y, ds ++ [y] <+: cs → (∃ m ∈ ms, ds ++ [x] <+: m) → y <+: x →
    y = [DOT] ∨ ∃ m ∈ ms, ds ++ [y] <+: m

variable {type : DeviceType} {l l' : List Shape} {ms : List (List (List Nat))} {s : Shape}
  {c : List Nat} {cs : List (List Nat)}

theorem mem_inside {m : List (List Nat)} : m ∈ inside c ms ↔ m ≠ [] ∧ c :: m ∈ ms := by
  unfold inside
  rw [List.mem_filterMap]
  constructor
  · intro ⟨a, ha, h⟩
    match a with
    | [] => cases h
    | [d] => cases h
    | d :: e :: a =>
      simp only [Option.ite_none_right_eq_some, Option.some.injEq] at h
      rw [← h.2]
      exact ⟨by simp, by rw [← h.1]; exact ha⟩
  · intro ⟨hne, h⟩
    obtain ⟨e, m, rfl⟩ := List.exists_cons_of_ne_nil hne
    exact ⟨_, h, by simp⟩

theorem inside_append (ms ms' : List (List (List Nat))) :
    inside c (ms ++ ms') = inside c ms ++ inside c ms' := by simp [inside]

theorem inside_one (cs : List (List Nat)) (hcs : cs ≠ []) : inside c [c :: cs] = [cs] := by
  obtain ⟨e, m, rfl⟩ := List.exists_cons_of_ne_nil hcs
  simp [inside]

theorem inside_other {d : List Nat} (h : d ≠ c) (cs : List (List Nat)) :
    inside c [d :: cs] = [] := by
  cases cs with
  | nil => rfl
  | cons e m => simp [inside, h]

theorem inside_nil (h : ¬Heads ms c) : inside c ms = [] := by
  rw [List.eq_nil_iff_forall_not_mem]
  intro m hm
  exact h ⟨c :: m, (mem_inside.mp hm).2, rfl⟩

theorem heads_append {m : List (List Nat)} :
    Heads (ms ++ [m]) c ↔ Heads ms c ∨ m.head? = some c := by
  unfold Heads
  constructor
  · intro ⟨m', hm', h⟩
    rcases List.mem_append.mp hm' with hm' | hm'
    · exact .inl ⟨m', hm', h⟩
    · rw [List.mem_singleton.mp hm'] at h
      exact .inr h
  · rintro (⟨m', hm', h⟩ | h)
    · exact ⟨m', List.mem_append_left _ hm', h⟩
    · exact ⟨m, by simp, h⟩

theorem fits_dot : Fits [dot] [] := by
  refine .mk ⟨dot, by simp, rfl⟩ ?_ ?_ (List.nodup_singleton _) ?_ ?_
  · intro s hs
    rw [List.mem_singleton.mp hs]
    exact .inl rfl
  · intro c ⟨m, hm, _⟩
    cases hm
  · intro s _ _
    rfl
  · intro s hs hne
    rw [List.mem_singleton.mp hs] at hne
    exact absurd rfl hne

theorem Fits.child (h : Fits l ms) (hs : s ∈ l) : Fits s.child (inside s.name ms) := by
  cases h with
  | mk _ _ _ _ hleaf hbelow =>
    unfold Shape.child
    split
    · rename_i hnil
      rw [hleaf s hs hnil]
      exact fits_dot
    · rename_i hcons
      rw [← hcons]
      exact hbelow s hs (by rw [hcons]; simp)

theorem Clear.inside (h : Clear ms (c :: cs)) : Clear (inside c ms) cs := by
  intro ds x y hy ⟨m, hm, hx⟩ hyx
  have hold := h (c :: ds) x y (by simpa using hy)
    ⟨c :: m, (mem_inside.mp hm).2, by simpa using hx⟩ hyx
  rcases hold with hdot | ⟨m', hm', hy'⟩
  · exact .inl hdot
  · obtain ⟨r, rfl⟩ := hy'
    exact .inr ⟨ds ++ [y] ++ r, mem_inside.mpr ⟨by simp, by simpa using hm'⟩,
      List.prefix_append _ _⟩

theorem Clear.head (h : Clear ms (c :: cs)) {x : List Nat} (hx : Heads ms x) (hc : c <+: x) :
    c = [DOT] ∨ Heads ms c := by
  obtain ⟨m, hm, hhead⟩ := hx
  have hold := h [] x c (by simp) ⟨m, hm, ?_⟩ hc
  · rcases hold with hdot | ⟨m', hm', r, rfl⟩
    · exact .inl hdot
    · exact .inr ⟨_, hm', rfl⟩
  · obtain ⟨tail, rfl⟩ := List.head?_eq_some_iff.mp hhead
    simp

/-- A name that clashes is there already. -/
theorem Fits.clash (h : Fits l ms) (hclear : Clear ms (c :: cs)) (hc : c ≠ [])
    (hclash : ∃ s ∈ l, c <+: s.name) : ∃ s ∈ l, s.name = c := by
  cases h with
  | mk hdot hnames hheads _ _ _ =>
    obtain ⟨s, hs, hp⟩ := hclash
    rcases hnames s hs with hname | hhead
    · rw [hname] at hp
      rw [hp.eq_of_length_le (List.length_pos_iff.mpr hc)]
      exact hdot
    · rcases hclear.head hhead hp with rfl | hc
      · exact hdot
      · exact hheads c hc

/-- Another path to a name that is there. -/
theorem Fits.again (h : Fits l ms) (hc : ∃ s ∈ l, s.name = c) : Fits l (ms ++ [[c]]) := by
  have hinside : ∀ d, inside d (ms ++ [[c]]) = inside d ms := fun d => by
    rw [inside_append, show inside d [[c]] = [] from rfl, List.append_nil]
  cases h with
  | mk hdot hnames hheads hnodup hleaf hbelow =>
    refine .mk hdot (fun s hs => ?_) (fun d hd => ?_) hnodup (fun s hs hnil => ?_)
      (fun s hs hne => ?_)
    · rcases hnames s hs with hname | hhead
      · exact .inl hname
      · exact .inr (heads_append.mpr (.inl hhead))
    · rcases heads_append.mp hd with hd | hd
      · exact hheads d hd
      · simp only [List.head?_cons, Option.some.injEq] at hd
        exact hd ▸ hc
    · rw [hinside]
      exact hleaf s hs hnil
    · rw [hinside]
      exact hbelow s hs hne

/-- A new name at the end of a list, with the path behind it. -/
theorem Fits.snoc (h : Fits l ms) (hc : ∀ s ∈ l, s.name ≠ c) (hname : s.name = c)
    (hleaf : s.children = [] → cs = [])
    (hbelow : s.children ≠ [] → cs ≠ [] ∧ Fits s.children [cs]) :
    Fits (l ++ [s]) (ms ++ [c :: cs]) := by
  cases h with
  | mk hdot hnames hheads hnodup hleaf' hbelow' =>
    have hnew : ¬Heads ms c := fun hh => by
      obtain ⟨d, hd, he⟩ := hheads c hh
      exact hc d hd he
    have hself : inside c (ms ++ [c :: cs]) = inside c [c :: cs] := by
      rw [inside_append, inside_nil hnew, List.nil_append]
    have hold : ∀ d ∈ l, inside d.name (ms ++ [c :: cs]) = inside d.name ms := fun d hd => by
      rw [inside_append, inside_other (Ne.symm (hc d hd)), List.append_nil]
    refine .mk ?_ (fun d hd => ?_) (fun x hx => ?_) ?_ (fun d hd hnil => ?_) (fun d hd hne => ?_)
    · obtain ⟨d, hd, he⟩ := hdot
      exact ⟨d, List.mem_append_left _ hd, he⟩
    · rcases List.mem_append.mp hd with hd | hd
      · rcases hnames d hd with hdn | hdn
        · exact .inl hdn
        · exact .inr (heads_append.mpr (.inl hdn))
      · rw [List.mem_singleton.mp hd, hname]
        exact .inr (heads_append.mpr (.inr rfl))
    · rcases heads_append.mp hx with hx | hx
      · obtain ⟨d, hd, he⟩ := hheads x hx
        exact ⟨d, List.mem_append_left _ hd, he⟩
      · simp only [List.head?_cons, Option.some.injEq] at hx
        exact ⟨s, by simp, hname.trans hx⟩
    · rw [List.map_append, List.nodup_append]
      refine ⟨hnodup, List.nodup_singleton _, fun a ha b hb hab => ?_⟩
      obtain ⟨d, hd, rfl⟩ := List.mem_map.mp ha
      simp only [List.map_cons, List.map_nil, List.mem_singleton] at hb
      exact hc d hd (hab.trans (hb.trans hname))
    · rcases List.mem_append.mp hd with hd | hd
      · rw [hold d hd]
        exact hleaf' d hd hnil
      · rw [List.mem_singleton.mp hd] at hnil ⊢
        rw [hname, hself, hleaf hnil]
        rfl
    · rcases List.mem_append.mp hd with hd | hd
      · rw [hold d hd]
        exact hbelow' d hd hne
      · rw [List.mem_singleton.mp hd] at hne ⊢
        rw [hname, hself, inside_one cs (hbelow hne).1]
        exact (hbelow hne).2

/-- A path below a name that is there. -/
theorem Fits.graft {child : List Shape} (h : Fits l ms) (hf : l.find? (·.name = c) = some s)
    (hcs : cs ≠ []) (hne : child ≠ []) (hc : Fits child (inside c ms ++ [cs])) :
    Fits (graft c child l) (ms ++ [c :: cs]) := by
  obtain ⟨before, after, rfl, hname, hb, hupdate⟩ := updateFirst_split hf
  have hname : s.name = c := by simpa using hname
  rw [Devices.graft, hupdate]
  cases h with
  | mk hdot hnames hheads hnodup hleaf hbelow =>
    have hmem : ∀ d, d ∈ before ++ Shape.mk s.name s.type child :: after →
        d = .mk s.name s.type child ∨ d ∈ before ++ s :: after ∧ d.name ≠ c := by
      intro d hd
      rw [List.map_append, List.map_cons, List.nodup_append, List.nodup_cons] at hnodup
      rcases List.mem_append.mp hd with hd | hd
      · exact .inr ⟨List.mem_append_left _ hd, by simpa using hb d hd⟩
      · rcases List.mem_cons.mp hd with hd | hd
        · exact .inl hd
        · refine .inr ⟨by simp [hd], fun he => hnodup.2.1.1 ?_⟩
          rw [hname, ← he]
          exact List.mem_map_of_mem hd
    have hkept : ∀ d ∈ before ++ s :: after,
        ∃ d' ∈ before ++ Shape.mk s.name s.type child :: after, d'.name = d.name := by
      intro d hd
      rcases List.mem_append.mp hd with hd | hd
      · exact ⟨d, List.mem_append_left _ hd, rfl⟩
      · rcases List.mem_cons.mp hd with rfl | hd
        · exact ⟨.mk d.name d.type child, by simp, rfl⟩
        · exact ⟨d, by simp [hd], rfl⟩
    have hself : inside c (ms ++ [c :: cs]) = inside c ms ++ [cs] := by
      rw [inside_append, inside_one cs hcs]
    have hold : ∀ d, d ≠ c → inside d (ms ++ [c :: cs]) = inside d ms := fun d hd => by
      rw [inside_append, inside_other (Ne.symm hd), List.append_nil]
    refine .mk ?_ (fun d hd => ?_) (fun x hx => ?_) ?_ (fun d hd hnil => ?_) (fun d hd hne' => ?_)
    · obtain ⟨d, hd, he⟩ := hdot
      obtain ⟨d', hd', he'⟩ := hkept d hd
      exact ⟨d', hd', he'.trans he⟩
    · rcases hmem d hd with rfl | ⟨hd, -⟩
      · exact .inr (heads_append.mpr (.inr (by simp [hname])))
      · rcases hnames d hd with hdn | hdn
        · exact .inl hdn
        · exact .inr (heads_append.mpr (.inl hdn))
    · rcases heads_append.mp hx with hx | hx
      · obtain ⟨d, hd, he⟩ := hheads x hx
        obtain ⟨d', hd', he'⟩ := hkept d hd
        exact ⟨d', hd', he'.trans he⟩
      · simp only [List.head?_cons, Option.some.injEq] at hx
        exact ⟨.mk s.name s.type child, by simp, hname.trans hx⟩
    · simpa using hnodup
    · rcases hmem d hd with rfl | ⟨hd, hdn⟩
      · exact absurd hnil hne
      · rw [hold _ hdn]
        exact hleaf d hd hnil
    · rcases hmem d hd with rfl | ⟨hd, hdn⟩
      · rw [Shape.name_mk, hname, hself]
        exact hc
      · rw [hold _ hdn]
        exact hbelow d hd hne'

theorem Fits.ne_nil (h : Fits l ms) : l ≠ [] := by
  cases h with
  | mk hdot _ _ _ _ _ =>
    obtain ⟨s, hs, -⟩ := hdot
    exact List.ne_nil_of_mem hs

/-- **A path that is clear is added.** -/
theorem grow_fits (type : DeviceType) (hf : Fits l ms) (hcs : cs ≠ []) (hw : ∀ c ∈ cs, c ≠ [])
    (hclear : Clear ms cs) : ∃ l', grow type false cs l = some l' ∧ Fits l' (ms ++ [cs]) := by
  induction cs generalizing l ms with
  | nil => exact absurd rfl hcs
  | cons c cs ih =>
    have hc := hw c (List.mem_cons_self ..)
    have hthere := fun hclash => hf.clash hclear hc hclash
    by_cases hend : cs = []
    · subst hend
      rw [grow]
      by_cases hclash : ∃ s ∈ l, ending false c <+: s.name
      · rw [if_pos hclash]
        exact ⟨l, rfl, hf.again (hthere hclash)⟩
      · rw [if_neg hclash]
        refine ⟨_, rfl, hf.snoc (fun s hs he => hclash ⟨s, hs, ?_⟩) rfl (fun _ => rfl) ?_⟩
        · rw [he]
          exact List.prefix_rfl
        · intro hne
          exact absurd rfl hne
    · have hwords := fun c hc => hw c (List.mem_cons_of_mem _ hc)
      rw [grow]
      · cases hfind : l.find? (·.name = c) with
        | some s =>
          have hname : s.name = c := by simpa using List.find?_some hfind
          have hchild := hf.child (List.mem_of_find?_eq_some hfind)
          rw [hname] at hchild
          obtain ⟨child, hgrow, hfits⟩ := ih hchild hend hwords hclear.inside
          exact ⟨_, by simp only [hgrow, Option.map_some], hf.graft hfind hend hfits.ne_nil hfits⟩
        | none =>
          have hno : ∀ s ∈ l, s.name ≠ c := by simpa using hfind
          have hnoclash : ¬∃ s ∈ l, c <+: s.name := fun hclash => by
            obtain ⟨s, hs, he⟩ := hthere hclash
            exact hno s hs he
          have hempty : Clear [] cs := by
            rintro ds x y - ⟨m, hm, -⟩
            cases hm
          obtain ⟨child, hgrow, hfits⟩ := ih fits_dot hend hwords hempty
          refine ⟨l ++ [.mk c .reserved child], by simp [hnoclash, hgrow], ?_⟩
          exact hf.snoc hno rfl (fun hnil => absurd hnil hfits.ne_nil) fun _ => ⟨hend, hfits⟩
      · exact hend

/-! ## Where a path is added -/

@[simp] theorem paths_nil (type : DeviceType) : paths type [] = [] := rfl

@[simp] theorem paths_cons (type type' : DeviceType) (name : List Nat) (children l : List Shape) :
    paths type (.mk name type' children :: l) = (if type' = type then [[name]] else []) ++
      (paths type children).map (name :: ·) ++ paths type l := rfl

theorem paths_child (ht : type ≠ .reserved) (s : Shape) :
    paths type s.child = paths type s.children := by
  unfold Shape.child
  split
  · rename_i hnil
    rw [hnil]
    simp [dot, Ne.symm ht]
  · rename_i hcons
    rw [hcons]

/-- At the end: the name is refused, or comes last. -/
theorem grow_last {t : Bool} (h : grow type t [c] l = some l') :
    l' = l ∨ l' = l ++ [.mk c type (if t then [dot] else [])] := by
  rw [grow] at h
  split at h
  · cases h
    exact .inl rfl
  · cases h
    exact .inr rfl

/-- On the way to the end: into a directory that is there, or into a new one. -/
theorem grow_cons {t : Bool} (hcs : cs ≠ []) (h : grow type t (c :: cs) l = some l') :
    (∃ s child, l.find? (·.name = c) = some s ∧ grow type t cs s.child = some child ∧
        l' = graft c child l) ∨
      ∃ child, l.find? (·.name = c) = none ∧ grow type t cs [dot] = some child ∧
        l' = l ++ [.mk c .reserved child] := by
  rw [grow] at h
  · cases hf : l.find? (·.name = c) with
    | some s =>
      simp only [hf, Option.map_eq_some_iff] at h
      obtain ⟨child, hgrow, rfl⟩ := h
      exact .inl ⟨s, child, rfl, hgrow, rfl⟩
    | none =>
      simp only [hf] at h
      split at h
      · cases h
      · rw [Option.map_eq_some_iff] at h
        obtain ⟨child, hgrow, rfl⟩ := h
        exact .inr ⟨child, rfl, hgrow, rfl⟩
  · exact hcs

/-- **Only the path is new.** -/
theorem grow_paths (ht : type ≠ .reserved) (h : grow type false cs l = some l') :
    ∀ p ∈ paths type l', p ∈ paths type l ∨ p = cs := by
  induction cs generalizing l l' with
  | nil =>
    cases h
    exact fun p hp => .inl hp
  | cons c cs ih =>
    intro p hp
    by_cases hend : cs = []
    · subst hend
      rcases grow_last h with rfl | rfl
      · exact .inl hp
      · simpa using hp
    · rcases grow_cons hend h with ⟨s, child, hf, hgrow, rfl⟩ | ⟨child, -, hgrow, rfl⟩
      · obtain ⟨before, after, rfl, hname, -, hupdate⟩ := updateFirst_split hf
        have hname : s.name = c := by simpa using hname
        obtain ⟨name, type', children⟩ := s
        obtain rfl : name = c := hname
        rw [graft, hupdate] at hp
        have hchild := ih hgrow
        simp only [paths_child ht, Shape.children_mk] at hchild
        simp only [Shape.name_mk, Shape.type_mk, paths_append, paths_cons, List.mem_append,
          List.mem_map] at hp ⊢
        rcases hp with hp | (hp | ⟨q, hq, rfl⟩) | hp
        · exact .inl (.inl hp)
        · exact .inl (.inr (.inl (.inl hp)))
        · rcases hchild q hq with hq | rfl
          · exact .inl (.inr (.inl (.inr ⟨q, hq, rfl⟩)))
          · exact .inr rfl
        · exact .inl (.inr (.inr hp))
      · have hdot : paths type [dot] = [] := by simp [dot, Ne.symm ht]
        have hchild := ih hgrow
        simp only [hdot, List.not_mem_nil, false_or] at hchild
        simp only [paths_append, paths_cons, if_neg (Ne.symm ht), List.nil_append, paths_nil,
          List.append_nil, List.mem_append, List.mem_map] at hp
        rcases hp with hp | ⟨q, hq, rfl⟩
        · exact .inl hp
        · rw [hchild q hq]
          exact .inr rfl

/-- **A path stays behind a name that is not its own**: in front of `e` only a path through
one of the names there is new. -/
theorem grow_front {A B : List Shape} {e : Shape} (ht : type ≠ .reserved)
    (h : grow type false (c :: cs) (A ++ e :: B) = some l') :
    ∃ A' e' B', l' = A' ++ e' :: B' ∧ e'.name = e.name ∧ e'.type = e.type ∧
      A'.map Shape.name = A.map Shape.name ∧
      ∀ p ∈ paths type A', p ∈ paths type A ∨ p = c :: cs ∧ cs ≠ [] ∧ c ∈ A.map Shape.name := by
  have hold : ∀ p ∈ paths type A, p ∈ paths type A ∨ p = c :: cs ∧ cs ≠ [] ∧ c ∈ A.map Shape.name :=
    fun p hp => .inl hp
  by_cases hend : cs = []
  · subst hend
    rcases grow_last h with rfl | rfl
    · exact ⟨A, e, B, rfl, rfl, rfl, rfl, hold⟩
    · exact ⟨A, e, B ++ [.mk c type []], by simp, rfl, rfl, rfl, hold⟩
  · rcases grow_cons hend h with ⟨s, child, hf, hgrow, rfl⟩ | ⟨child, -, hgrow, rfl⟩
    · cases hfA : A.find? (·.name = c) with
      | some a =>
        rw [List.find?_append, hfA, Option.some_or, Option.some.injEq] at hf
        subst hf
        refine ⟨graft c child A, e, B, ?_, rfl, rfl, ?_, fun p hp => ?_⟩
        · rw [graft, updateFirst_append_left hfA]
          rfl
        · obtain ⟨before, after, rfl, -, -, hupdate⟩ := updateFirst_split hfA
          rw [graft, hupdate]
          simp
        · have hA : grow type false (c :: cs) A = some (graft c child A) := by
            rw [grow]
            · simp only [hfA, hgrow, Option.map_some]
            · exact hend
          have hmem : c ∈ A.map Shape.name := by
            have hname : a.name = c := by simpa using List.find?_some hfA
            exact hname ▸ List.mem_map_of_mem (List.mem_of_find?_eq_some hfA)
          rcases grow_paths ht hA p hp with hp | hp
          · exact .inl hp
          · exact .inr ⟨hp, hend, hmem⟩
      | none =>
        rw [graft, updateFirst_append_right hfA, updateFirst]
        split
        · exact ⟨A, .mk e.name e.type child, B, rfl, rfl, rfl, rfl, hold⟩
        · exact ⟨A, e, graft c child B, rfl, rfl, rfl, rfl, hold⟩
    · exact ⟨A, e, B ++ [.mk c .reserved child], by simp, rfl, rfl, rfl, hold⟩

end GaOS.L4.Devices
