import GaOS.L4Files.DeviceEnum

/-!
# Names and types in the tree

The tree of devices with nothing but names and types, and `grow`, which adds a path to it.
Where the names are read as they were created, `device_create_at` does just that
(`shapes_deviceCreateAt`), and `device_get_by_type` sees the paths of a type in the order
of the tree (`paths_shapes`).
-/
namespace GaOS.L4.Devices

open GaOS.L4.Files

inductive Shape
  | mk (name : List Nat) (type : DeviceType) (children : List Shape)

def Shape.name : Shape → List Nat
  | .mk name _ _ => name

def Shape.type : Shape → DeviceType
  | .mk _ type _ => type

def Shape.children : Shape → List Shape
  | .mk _ _ children => children

@[simp] theorem Shape.name_mk (name : List Nat) (type : DeviceType) (children : List Shape) :
    (Shape.mk name type children).name = name := rfl

@[simp] theorem Shape.type_mk (name : List Nat) (type : DeviceType) (children : List Shape) :
    (Shape.mk name type children).type = type := rfl

@[simp] theorem Shape.children_mk (name : List Nat) (type : DeviceType) (children : List Shape) :
    (Shape.mk name type children).children = children := rfl

def dot : Shape := .mk [DOT] .reserved []

/-- The list that a walk below it comes to. -/
def Shape.child (s : Shape) : List Shape :=
  match s.children with
  | [] => [dot]
  | c :: cs => c :: cs

/-- The first one of that name gets these children. -/
def graft (name : List Nat) (children list : List Shape) : List Shape :=
  updateFirst (·.name = name) (fun s => .mk s.name s.type children) list

/-- A path is added, or the walk goes through a null pointer. -/
def grow (type : DeviceType) (t : Bool) : List (List Nat) → List Shape → Option (List Shape)
  | [], list => some list
  | [c], list =>
    if ∃ s ∈ list, ending t c <+: s.name then some list
    else some (list ++ [.mk c type (if t then [dot] else [])])
  | c :: cs, list =>
    match list.find? (·.name = c) with
    | some s => (grow type t cs s.child).map fun child => graft c child list
    | none =>
      if ∃ s ∈ list, c <+: s.name then none
      else (grow type t cs [dot]).map fun child => list ++ [.mk c .reserved child]

/-! ## Shapes of trees -/

mutual
def Entry.shape : Entry → Shape
  | .mk dev children => .mk dev.name dev.type (shapes children)

def shapes : List Entry → List Shape
  | [] => []
  | e :: list => e.shape :: shapes list
end

variable {behind : Nat → List Nat} {type : DeviceType} {callbacks : Callbacks} {t : Bool}
  {c path : List Nat} {cs : List (List Nat)} {list : List Entry} {n : Counts}

theorem shapes_eq (list : List Entry) : shapes list = list.map Entry.shape := by
  induction list with
  | nil => rfl
  | cons e list ih => rw [shapes, ih, List.map_cons]

@[simp] theorem shape_name (e : Entry) : e.shape.name = e.record.name := by
  obtain ⟨dev, children⟩ := e
  rfl

theorem shapes_find (c : List Nat) (list : List Entry) :
    (shapes list).find? (·.name = c) = (list.find? (·.record.name = c)).map Entry.shape := by
  rw [shapes_eq, List.find?_map]
  congr 2
  funext e
  simp

theorem shapes_setChildren (c : List Nat) (children list : List Entry) :
    shapes (setChildren c children list) = graft c (shapes children) (shapes list) := by
  rw [shapes_eq, shapes_eq list]
  refine map_updateFirst (fun e => by simp) (fun e => ?_)
  obtain ⟨dev, old⟩ := e
  rfl

theorem shapes_adopt (e : Entry) (n : Counts) :
    shapes (adopt e.record.address e.children n).1 = e.shape.child := by
  obtain ⟨dev, children⟩ := e
  cases children with
  | nil => rfl
  | cons e children =>
    obtain ⟨head, below⟩ := e
    rfl

/-- The test for duplicates. -/
theorem shapes_clashes (hread : ReadAsCreated behind list) (hc : NoNull c) :
    list.any (clashes behind c) = true ↔ ∃ s ∈ shapes list, c <+: s.name := by
  have hclash : ∀ e ∈ list, (clashes behind c e = true ↔ c <+: e.record.name) := by
    intro e he
    obtain ⟨before, after, rfl⟩ := List.append_of_mem he
    obtain ⟨dev, children⟩ := e
    have htext := hread dev (by simp)
    unfold clashes
    rw [decide_eq_true_eq, strncmp_length_right hc, ← cstr_agree_iff hc, Entry.record_mk, htext]
    exact ⟨fun h i hi => (h i hi).symm, fun h i hi => (h i hi).symm⟩
  rw [List.any_eq_true, shapes_eq]
  constructor
  · intro ⟨e, he, h⟩
    exact ⟨e.shape, List.mem_map_of_mem he, by rw [shape_name]; exact (hclash e he).mp h⟩
  · intro ⟨s, hs, h⟩
    obtain ⟨e, he, rfl⟩ := List.mem_map.mp hs
    rw [shape_name] at h
    exact ⟨e, he, (hclash e he).mpr h⟩

theorem readAsCreated_dummy (number : Nat) (parent : Option Address) :
    ReadAsCreated behind [allocateDummy number parent] := by
  intro d hd
  simp only [allocateDummy, records_cons, records_nil, List.append_nil, List.mem_singleton] at hd
  rw [hd]
  rfl

theorem ReadAsCreated.adopt {e : Entry} (hread : ReadAsCreated behind list) (he : e ∈ list)
    (n : Counts) : ReadAsCreated behind (adopt e.record.address e.children n).1 := by
  obtain ⟨before, after, rfl⟩ := List.append_of_mem he
  obtain ⟨dev, children⟩ := e
  have hchildren : ReadAsCreated behind children := fun d hd => hread d (by simp [hd])
  cases children with
  | nil => exact readAsCreated_dummy _ _
  | cons e children =>
    obtain ⟨head, below⟩ := e
    intro d hd
    simp only [Devices.adopt, Entry.children_mk, records_cons, List.mem_cons] at hd
    rcases hd with rfl | hd
    · have hhead := hchildren head (by simp)
      simpa [Record.text] using hhead
    · exact hchildren d (by simp [hd])

/-- What is left of the answer. -/
def grown (r : Option (List Shape)) : Except Stop (List Shape) :=
  match r with
  | some list => .ok list
  | none => .error .wild

theorem shape_newDevice (hw : Word c) (parent : Option Address) :
    (newDevice (ending t c) type callbacks parent n).1.shape =
      .mk c type (if t then [dot] else []) := by
  unfold newDevice ending
  cases t with
  | false => simp [trailing_word hw.2, allocateDevice, Entry.shape, shapes]
  | true => simp [trailing, allocateDevice, Entry.shape, shapes, allocateDummy, dot]

theorem shapes_createLast (type : DeviceType) (callbacks : Callbacks) (t : Bool) (n : Counts)
    (hread : ReadAsCreated behind list) (hw : Word c) (hc : NoNull c)
    (hends : endsInBlock (ending t c) = true) (hne : list ≠ []) :
    (createLast behind type callbacks (ending t c) list n).map (fun r => shapes r.2.1) =
      grown (grow type t [c] (shapes list)) := by
  have hclash := shapes_clashes hread (noNull_ending (t := t) hc)
  have hcut : cutsBehind behind (n.devices + 1) (ending t c) = false := by
    simp [cutsBehind, hends]
  unfold createLast
  rw [grow]
  by_cases hany : list.any (clashes behind (ending t c)) = true
  · rw [if_pos hany, if_pos (hclash.mp hany)]
    rfl
  · rw [if_neg hany, if_neg (mt hclash.mpr hany), List.getLast?_eq_some_getLast hne]
    simp only [hcut, Bool.false_eq_true, if_false, Except.map, grown, shapes_eq, List.map_append,
      List.map_cons, List.map_nil, shape_newDevice hw]

/-- What a call below does to the list above. -/
theorem map_shapes {x : Created} {r : Option (List Shape)} (f : List Entry → List Entry)
    (g : List Shape → List Shape) (h : x.map (fun r => shapes r.2.1) = grown r)
    (hfg : ∀ child, shapes (f child) = g (shapes child)) :
    (x >>= fun r => pure (r.1, f r.2.1, r.2.2)).map (fun r => shapes r.2.1) =
      grown (r.map g) := by
  cases x with
  | error s =>
    cases r with
    | none => exact h
    | some l => cases h
  | ok a =>
    cases r with
    | none => cases h
    | some l =>
      have hl : shapes a.2.1 = l := by simpa [Except.map, grown] using h
      simp [bind, Except.bind, pure, Except.pure, Except.map, grown, hfg, hl]

/-- **A call adds a path.** -/
theorem shapes_createNames (hread : ReadAsCreated behind list)
    (hw : ∀ c ∈ cs, Word c ∧ NoNull c) (hends : ∀ c ∈ cs, endsInBlock (ending t c) = true)
    (hne : list ≠ []) :
    (createNames behind type callbacks t cs list n).map (fun r => shapes r.2.1) =
      grown (grow type t cs (shapes list)) := by
  induction cs generalizing list n with
  | nil => rfl
  | cons c cs ih =>
    obtain ⟨hword, hnull⟩ := hw c (List.mem_cons_self ..)
    have hwords : ∀ c ∈ cs, Word c ∧ NoNull c := fun c hc => hw c (List.mem_cons_of_mem _ hc)
    have hend : ∀ c ∈ cs, endsInBlock (ending t c) = true :=
      fun c hc => hends c (List.mem_cons_of_mem _ hc)
    by_cases hcs : cs = []
    · subst hcs
      exact shapes_createLast type callbacks t n hread hword hnull
        (hends c (List.mem_cons_self ..)) hne
    rw [createNames, grow, shapes_find]
    · cases hf : list.find? (·.record.name = c) with
      | some dev =>
        have hchild := ih (n := (adopt dev.record.address dev.children n).2)
          (hread.adopt (List.mem_of_find?_eq_some hf) n) hwords hend (adopt_ne_nil _ _ _)
        rw [shapes_adopt] at hchild
        exact map_shapes (setChildren c · list) (graft c · (shapes list)) hchild fun child =>
          shapes_setChildren c child list
      | none =>
        have hclash := shapes_clashes hread hnull
        simp only [Option.map_none]
        by_cases hany : list.any (clashes behind c) = true
        · rw [if_pos hany, if_pos (hclash.mp hany)]
          rfl
        · rw [if_neg hany, if_neg (mt hclash.mpr hany)]
          refine map_shapes (list ++ [.mk (allocateDevice (n.devices + 1) c .reserved reserved
            (list.getLast?.bind (·.record.parent))) ·])
            (shapes list ++ [.mk c .reserved ·])
            (ih (readAsCreated_dummy _ _) hwords hend (by simp)) fun child => ?_
          simp [shapes_eq, Entry.shape, allocateDevice]
    · exact hcs
    · exact hcs

theorem shapes_deviceCreateAt (type : DeviceType) (callbacks : Callbacks) (n : Counts)
    (hread : ReadAsCreated behind list) (hnull : NoNull path) (hlen : path.length < 2 ^ 31)
    (hends : ∀ c ∈ components path, endsInBlock (ending (trailing path) c) = true)
    (hne : list ≠ []) :
    (deviceCreateAt behind path type callbacks list n).map (fun r => shapes r.2.1) =
      grown (grow type (trailing path) (components path) (shapes list)) := by
  rw [deviceCreateAt_names hnull hlen hne]
  exact shapes_createNames hread (words_of_components hnull) hends hne

/-! ## Paths of a type -/

mutual
/-- The paths of the devices of a type, in the order of the tree. -/
def Shape.paths (type : DeviceType) : Shape → List (List (List Nat))
  | .mk name type' children =>
    (if type' = type then [[name]] else []) ++ (paths type children).map (name :: ·)

def paths (type : DeviceType) : List Shape → List (List (List Nat))
  | [] => []
  | s :: list => s.paths type ++ paths type list
end

@[simp] theorem paths_append (type : DeviceType) (l l' : List Shape) :
    paths type (l ++ l') = paths type l ++ paths type l' := by
  induction l with
  | nil => rfl
  | cons s l ih => rw [List.cons_append, paths, paths, ih, List.append_assoc]

theorem paths_shapes (type : DeviceType) : ∀ list : List Entry,
    paths type (shapes list) = (ofType type list).map (·.path)
  | [] => rfl
  | .mk dev children :: list => by
    rw [shapes, paths, Entry.shape, Shape.paths, paths_shapes type children, paths_shapes type list,
      ofType_cons]
    split
    · simp [Place.below, Function.comp_def]
    · simp [Place.below, Function.comp_def]

end GaOS.L4.Devices
