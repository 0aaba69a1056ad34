import GaOS.L4Files.Paths

/-!
# The tree of devices

Model of the walk of `devfs_open` (kernel/src/devices/manager.c:263-370). A path is a
C string: its bytes up to the null. A level of the tree is a list of devices, and a
device without children has a null pointer for them: here the empty list. The walk
may go below such a device; it then gives it a list with a dummy, so opening changes
the tree. Devices are never removed, and new ones go to the end of a list (`Grown`):
what a path leads to stays where it is (`devfsWalk_grown`).

The copies of directory names that the walk makes on the heap are left out.
-/
namespace GaOS.L4.Files

/-! ## Devices -/

def EACCES : Int := 13

def O_RDONLY : Nat := 1 <<< 0
def O_WRONLY : Nat := 1 <<< 1

/-- The functions of a device. A read or write is given the seek position, the
greatest one and the size, and answers and moves the seek position;
`initialise_node` sets the greatest seek position. -/
structure Callbacks where
  read : Option (Nat → Nat → Nat → Int × Nat)
  write : Option (Nat → Nat → Nat → Int × Nat)
  initialiseNode : Option Nat

/-- The fields of a `device_t` that do not change. Devices are never given back, so
their number in the order of creation stands for the address; dummies are not told
apart. -/
structure Driver extends Callbacks where
  id : Nat
  /-- the block of the name has a null behind it -/
  nameEnds : Bool

inductive Device
  | mk (name : List Nat) (driver : Driver) (children : List Device)

def Device.name : Device → List Nat
  | .mk name _ _ => name

def Device.driver : Device → Driver
  | .mk _ driver _ => driver

def Device.children : Device → List Device
  | .mk _ _ children => children

def DOT : Nat := 0x2E

/-- mirrors kernel/src/devices/manager.c:58-61 -/
def allocateDummy : Device := .mk [DOT] ⟨⟨none, none, none⟩, 0, true⟩ []

/-- `dev->child`, initialised if needed. -/
def Device.child (dev : Device) : List Device :=
  match dev.children with
  | [] => [allocateDummy]
  | c :: cs => c :: cs

theorem child_of_children {dev : Device} (hc : dev.children ≠ []) : dev.child = dev.children := by
  unfold Device.child
  split
  · rename_i h0
    exact absurd h0 hc
  · rename_i h1
    exact h1.symm

/-- The first device of that name gets these children. -/
def setChildren (name : List Nat) (children : List Device) : List Device → List Device
  | [] => []
  | .mk n driver old :: list =>
    if n = name then .mk n driver children :: list
    else .mk n driver old :: setChildren name children list

/-- Where the first device of that name is. -/
theorem setChildren_split {c : List Nat} {list : List Device} {dev : Device}
    (hf : list.find? (·.name = c) = some dev) : ∃ before after,
      list = before ++ dev :: after ∧ dev.name = c ∧ (∀ d ∈ before, d.name ≠ c) ∧
      ∀ children, setChildren c children list = before ++ .mk c dev.driver children :: after := by
  obtain ⟨hn, before, after, rfl, hb⟩ := List.find?_eq_some_iff_append.mp hf
  have hname : dev.name = c := by simpa using hn
  have hbefore : ∀ d ∈ before, d.name ≠ c := fun d hd => by simpa using hb d hd
  refine ⟨before, after, rfl, hname, hbefore, fun children => ?_⟩
  clear hb hf
  induction before with
  | nil =>
    obtain ⟨name, driver, old⟩ := dev
    obtain rfl : name = c := hname
    rw [List.nil_append, setChildren, if_pos rfl]
    rfl
  | cons d before ih =>
    obtain ⟨name, driver, old⟩ := d
    have hne : name ≠ c := hbefore _ (List.mem_cons_self ..)
    rw [List.cons_append, setChildren, if_neg hne,
      ih fun d hd => hbefore d (List.mem_cons_of_mem _ hd)]
    rfl

/-- The device that these components lead to, as the tree is. -/
def deviceAt : List (List Nat) → List Device → Option Device
  | [], _ => none
  | [c], list => list.find? (·.name = c)
  | c :: cs, list =>
    match list.find? (·.name = c) with
    | none => none
    | some dev => deviceAt cs dev.children

/-- mirrors kernel/src/devices/manager.c:329-339 -/
def checkMode (mode : Nat) (driver : Driver) : Except Int Driver :=
  if mode &&& O_RDONLY ≠ 0 ∧ driver.read.isNone then .error (-EACCES)
  else if mode &&& O_WRONLY ≠ 0 ∧ driver.write.isNone then .error (-EACCES)
  else .ok driver

/-- The device at the end of a path, and the tree with the new dummies. A round takes
at least a byte of the path, so its length bounds the rounds. The source has the
search twice, for a directory and for the device itself.
mirrors kernel/src/devices/manager.c:273-327 -/
def devfsWalk (mode : Nat) : Nat → List Nat → List Device → Except Int Driver × List Device
  | 0, _, list => (.error (-ENOENT), list)
  | rounds + 1, path, list =>
    let dir := dirOf path
    let rest := restOf path
    if path = [] then (.error (-ENOENT), list)
    else if dir = [] then devfsWalk mode rounds path.tail list
    else
      match list.find? (·.name = dir) with
      | none => (.error (-ENOENT), list)
      | some dev =>
        if 2 ≤ rest.length then
          let (answer, children) := devfsWalk mode rounds rest.tail dev.child
          (answer, setChildren dir children list)
        else (checkMode mode dev.driver, list)

/-- mirrors kernel/src/devices/manager.c:265-271 -/
def devfsFind (mode : Nat) (path : List Nat) (list : List Device) :
    Except Int Driver × List Device :=
  devfsWalk mode (path.length + 1) (if path.head? = some SLASH then path.tail else path) list

theorem skip_slash_length (path : List Nat) :
    (if path.head? = some SLASH then path.tail else path).length ≤ path.length := by
  split
  · simp
  · exact Nat.le_refl _

/-! ## Growth -/

/-- The second tree has all of the first one, and more at the ends of its lists. -/
inductive Grown : List Device → List Device → Prop
  | nil (list : List Device) : Grown [] list
  | same {name : List Nat} {driver : Driver} {l l' : List Device} :
      Grown l l' → Grown (.mk name driver [] :: l) (.mk name driver [] :: l')
  | dummy {name : List Nat} {driver : Driver} {cs' l l' : List Device} :
      Grown [allocateDummy] cs' → Grown l l' →
      Grown (.mk name driver [] :: l) (.mk name driver cs' :: l')
  | child {name : List Nat} {driver : Driver} {c : Device} {cs cs' l l' : List Device} :
      Grown (c :: cs) cs' → Grown l l' →
      Grown (.mk name driver (c :: cs) :: l) (.mk name driver cs' :: l')

theorem Grown.refl : ∀ l, Grown l l
  | [] => .nil []
  | .mk _ _ [] :: l => .same (Grown.refl l)
  | .mk _ _ (c :: cs) :: l => .child (Grown.refl (c :: cs)) (Grown.refl l)

theorem child_of_grown {name : List Nat} {driver : Driver} {c : Device} {cs cs' : List Device}
    (h : Grown (c :: cs) cs') : (Device.mk name driver cs').child = cs' := by
  cases h <;> rfl

theorem Grown.trans {l₁ l₂ l₃ : List Device} (h : Grown l₁ l₂) (h' : Grown l₂ l₃) :
    Grown l₁ l₃ := by
  induction h generalizing l₃ with
  | nil list => exact .nil _
  | same h ih =>
    cases h' with
    | same h' => exact .same (ih h')
    | dummy hc h' => exact .dummy hc (ih h')
  | dummy hc h ihc ih =>
    cases h' with
    | same h' => cases hc
    | dummy hc' h' => cases hc
    | child hc' h' => exact .dummy (ihc hc') (ih h')
  | child hc h ihc ih =>
    cases h' with
    | same h' => cases hc
    | dummy hc' h' => cases hc
    | child hc' h' => exact .child (ihc hc') (ih h')

theorem find_cons (name : List Nat) (driver : Driver) (children l : List Device) (dir : List Nat) :
    (Device.mk name driver children :: l).find? (·.name = dir) =
      if name = dir then some (.mk name driver children) else l.find? (·.name = dir) := by
  by_cases h : name = dir <;> simp [h, Device.name]

/-- What the search finds is still found, and has grown. -/
theorem Grown.find {l l' : List Device} {dir : List Nat} {dev : Device} (h : Grown l l')
    (hf : l.find? (·.name = dir) = some dev) :
    ∃ dev', l'.find? (·.name = dir) = some dev' ∧ dev'.driver = dev.driver ∧
      Grown dev.child dev'.child := by
  induction h with
  | nil list => cases hf
  | same h ih =>
    rw [find_cons] at hf ⊢
    split at hf
    · rename_i hn
      cases hf
      exact ⟨_, if_pos hn, rfl, Grown.refl _⟩
    · rename_i hn
      rw [if_neg hn]
      exact ih hf
  | dummy hc h _ ih =>
    rw [find_cons] at hf ⊢
    split at hf
    · rename_i hn
      cases hf
      exact ⟨_, if_pos hn, rfl, by rw [child_of_grown hc]; exact hc⟩
    · rename_i hn
      rw [if_neg hn]
      exact ih hf
  | child hc h _ ih =>
    rw [find_cons] at hf ⊢
    split at hf
    · rename_i hn
      cases hf
      exact ⟨_, if_pos hn, rfl, by rw [child_of_grown hc]; exact hc⟩
    · rename_i hn
      rw [if_neg hn]
      exact ih hf

theorem grown_setChildren {l cs : List Device} {dir : List Nat} {dev : Device}
    (hf : l.find? (·.name = dir) = some dev) (hc : Grown dev.child cs) :
    Grown l (setChildren dir cs l) := by
  induction l with
  | nil => cases hf
  | cons d l ih =>
    obtain ⟨name, driver, children⟩ := d
    rw [find_cons] at hf
    rw [setChildren]
    split at hf
    · rename_i hn
      cases hf
      rw [if_pos hn]
      cases children with
      | nil => exact .dummy hc (Grown.refl l)
      | cons c children => exact .child hc (Grown.refl l)
    · rename_i hn
      rw [if_neg hn]
      cases children with
      | nil => exact .same (ih hf)
      | cons c children => exact .child (Grown.refl _) (ih hf)

/-! ## The walk in a tree that has grown -/

/-- The walk itself makes the tree grow. -/
theorem grown_devfsWalk (mode : Nat) : ∀ rounds path l, Grown l (devfsWalk mode rounds path l).2
  | 0, _, l => Grown.refl l
  | rounds + 1, path, l => by
    simp only [devfsWalk]
    split
    · exact Grown.refl l
    · split
      · exact grown_devfsWalk mode rounds _ l
      · split
        · exact Grown.refl l
        · rename_i dev hf
          split
          · exact grown_setChildren hf (grown_devfsWalk mode rounds _ _)
          · exact Grown.refl l

/-- **A device stays where it is.** -/
theorem devfsWalk_grown {mode : Nat} {driver : Driver} : ∀ {rounds path} {l l' : List Device},
    Grown l l' → (devfsWalk mode rounds path l).1 = .ok driver →
    (devfsWalk mode rounds path l').1 = .ok driver
  | 0, _, _, _, _, h => by cases h
  | rounds + 1, path, l, l', hg, h => by
    simp only [devfsWalk] at h ⊢
    split at h
    · cases h
    · rename_i hne
      rw [if_neg hne]
      split at h
      · rename_i hd
        rw [if_pos hd]
        exact devfsWalk_grown hg h
      · rename_i hd
        rw [if_neg hd]
        split at h
        · cases h
        · rename_i dev hf
          obtain ⟨dev', hf', hdriver, hchild⟩ := hg.find hf
          rw [hf']
          simp only
          split at h
          · rename_i hdeep
            rw [if_pos hdeep]
            exact devfsWalk_grown hchild h
          · rename_i hdeep
            rw [if_neg hdeep, hdriver]
            exact h

theorem devfsFind_grown {mode : Nat} {path : List Nat} {driver : Driver} {l l' : List Device}
    (hg : Grown l l') (h : (devfsFind mode path l).1 = .ok driver) :
    (devfsFind mode path l').1 = .ok driver := devfsWalk_grown hg h

end GaOS.L4.Files
