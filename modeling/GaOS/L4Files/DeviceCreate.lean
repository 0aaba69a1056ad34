import GaOS.Core.LTS
import GaOS.L4Files.Devices
import GaOS.L4Files.Sanatise

/-!
# Creating devices

Model of `device_create_at` (kernel/src/devices/manager.c:107-238). The walk goes down
the directories of the sanitised path. A directory that is missing is created on the
way: the source calls itself with the path up to that directory, which comes down to the
same list, tests for duplicates there and appends a device. The answer of that call is
not looked at, so a duplicate there is an access through a null pointer, `Stop.wild`.

The test for duplicates compares with the name as a C string. A name whose block has no
null behind it reads on with what is in memory there: `behind` has these bytes, for each
call anew. With a trailing delimiter the source puts a null over the last byte of that
string. Where this is not the delimiter but a byte behind the block, the header of another
block is damaged, and the call counts as a wild access, too (`cutsBehind`). The copies of
names and paths on the heap are left out, and so are the parents of devices.

The path is sanitised in a copy, by loops that count with `int`s: a path of 2^31 bytes and
more does not come through them (`deviceCreateAt_length`).

`createComponents` is the same on the components of the path (`createIn_eq`).
`created_opens`: what was created is opened by its path from then on.
-/
namespace GaOS.L4.Files

/-! ## The code -/

/-- `block_allocate` rounds the size up to a multiple of 16 and clears that much. -/
def endsInBlock (path : List Nat) : Bool := decide (path = [] ∨ path.length % 16 ≠ 0)

/-- mirrors kernel/src/devices/manager.c:43-56 -/
def allocateDevice (id : Nat) (path : List Nat) (callbacks : Callbacks) : Device :=
  .mk path ⟨callbacks, id, endsInBlock path⟩ []

/-- A directory without functions. -/
def reserved : Callbacks := ⟨none, none, none⟩

/-- `dev->name` as a string. -/
def Device.text (behind : Nat → List Nat) (dev : Device) : List Nat :=
  if dev.driver.nameEnds then dev.name else dev.name ++ behind dev.driver.id

def Device.withChildren (dev : Device) (children : List Device) : Device :=
  .mk dev.name dev.driver children

/-- mirrors kernel/src/devices/manager.c:206 -/
def clashes (behind : Nat → List Nat) (path : List Nat) (dev : Device) : Bool :=
  decide (strncmp (cstr (dev.text behind)) (cstr path) path.length = 0)

/-- The device at the end of a list. With a trailing delimiter it is a directory, its name
is cut by one, and there is a null in the place of the delimiter.
mirrors kernel/src/devices/manager.c:219-229 -/
def newDevice (id : Nat) (path : List Nat) (callbacks : Callbacks) : Device :=
  if trailing path then .mk path.dropLast ⟨callbacks, id, true⟩ [allocateDummy]
  else allocateDevice id path callbacks

/-- `last->name[strlen(last->name) - 1] = 0` is behind the block of the name, of which the
name with the delimiter leaves no byte.
mirrors kernel/src/devices/manager.c:224-229 -/
def cutsBehind (behind : Nat → List Nat) (id : Nat) (path : List Nat) : Bool :=
  decide (trailing path = true ∧ endsInBlock path = false ∧ behind id ≠ [])

abbrev Created : Type := Except Stop (Option Driver × List Device × Nat)

/-- The end of the path.
mirrors kernel/src/devices/manager.c:197-233 -/
def createLast (behind : Nat → List Nat) (callbacks : Callbacks) (path : List Nat)
    (list : List Device) (last : Nat) : Created :=
  if list.any (clashes behind path) then .ok (none, list, last)
  else if cutsBehind behind (last + 1) path then .error .wild
  else
    let new := newDevice (last + 1) path callbacks
    .ok (some new.driver, list ++ [new], last + 1)

/-- The answer, the list with what was created in it or below, and the number of the
device that was created last. A round takes at least a byte of the path, so its length
bounds the rounds.
mirrors kernel/src/devices/manager.c:135-237 -/
def createIn (behind : Nat → List Nat) (callbacks : Callbacks) :
    Nat → List Nat → List Device → Nat → Created
  | 0, _, list, last => .ok (none, list, last)
  | rounds + 1, path, list, last =>
    let dir := dirOf path
    let rest := restOf path
    if path = [] then .ok (none, list, last)
    else if dir = [] then createIn behind callbacks rounds path.tail list last
    else if 2 ≤ rest.length then
      match list.find? (·.name = dir) with
      | some dev => do
        let (answer, children, last) ← createIn behind callbacks rounds rest.tail dev.child last
        return (answer, setChildren dir children list, last)
      | none =>
        if list.any (clashes behind dir) then .error .wild
        else do
          let new := allocateDevice (last + 1) dir reserved
          let (answer, children, last) ←
            createIn behind callbacks rounds rest.tail [allocateDummy] (last + 1)
          return (answer, list ++ [new.withChildren children], last)
    else createLast behind callbacks path list last

/-- The copy of the path, up to its null.
mirrors kernel/src/devices/manager.c:115-119 -/
def sanatisedCopy (path : List Nat) : Option (List Nat) :=
  (vfsSanatisePath (path.length + 1) (path ++ [0])).map fun r => r.2.take r.1

/-- mirrors kernel/src/devices/manager.c:107-133 -/
def deviceCreateAt (behind : Nat → List Nat) (path : List Nat) (callbacks : Callbacks)
    (list : List Device) (last : Nat) : Created :=
  match sanatisedCopy path with
  | none => .error .wild
  | some path =>
    createIn behind callbacks (path.length + 1)
      (if path.head? = some SLASH then path.tail else path) list last

/-! ## On components -/

/-- Opening without the changes to the tree. -/
def openComponents (mode : Nat) : List (List Nat) → List Device → Except Int Driver
  | [], _ => .error (-ENOENT)
  | [c], list =>
    match list.find? (·.name = c) with
    | none => .error (-ENOENT)
    | some dev => checkMode mode dev.driver
  | c :: cs, list =>
    match list.find? (·.name = c) with
    | none => .error (-ENOENT)
    | some dev => openComponents mode cs dev.child

/-- A component as it stands at the end of a path. -/
def ending (t : Bool) (c : List Nat) : List Nat := if t then c ++ [SLASH] else c

def createComponents (behind : Nat → List Nat) (callbacks : Callbacks) (t : Bool) :
    List (List Nat) → List Device → Nat → Created
  | [], list, last => .ok (none, list, last)
  | [c], list, last => createLast behind callbacks (ending t c) list last
  | c :: cs, list, last =>
    match list.find? (·.name = c) with
    | some dev => do
      let (answer, children, last) ← createComponents behind callbacks t cs dev.child last
      return (answer, setChildren c children list, last)
    | none =>
      if list.any (clashes behind c) then .error .wild
      else do
        let new := allocateDevice (last + 1) c reserved
        let (answer, children, last) ←
          createComponents behind callbacks t cs [allocateDummy] (last + 1)
        return (answer, list ++ [new.withChildren children], last)

/-! ## Strings and components -/

variable {behind : Nat → List Nat} {callbacks : Callbacks} {path s : List Nat}

/-- **Opening looks at the components.** For paths without a trailing delimiter. -/
theorem devfsWalk_eq {mode rounds : Nat} {list : List Device} (ht : trailing path = false)
    (hr : path.length < rounds) :
    (devfsWalk mode rounds path list).1 = openComponents mode (components path) list := by
  have hw := walk_of (.inr ht) hr
  clear hr
  induction hw generalizing list with
  | done rounds => rfl
  | @slash rounds r _ ih =>
    rw [devfsWalk, components_slash]
    simp only [dirOf_slash, List.tail_cons, reduceCtorEq, if_true, if_false]
    cases r with
    | nil => simp [trailing] at ht
    | cons b r => exact ih (trailing_cons SLASH b r ▸ ht)
  | @last rounds path hd h0 _ hc _ =>
    rw [devfsWalk, hc, openComponents]
    simp only [if_neg (ne_nil_of_dirOf hd), if_neg hd, h0]
    cases list.find? (·.name = dirOf path) with
    | none => rfl
    | some dev => rfl
  | ended hd _ _ _ htrue =>
    rw [htrue] at ht
    cases ht
  | @dir rounds path b r hd h0 hc htr hne _ ih =>
    obtain ⟨c, cs, hcs⟩ := List.exists_cons_of_ne_nil hne
    rw [devfsWalk, hc, hcs, openComponents]
    · simp only [if_neg (ne_nil_of_dirOf hd), if_neg hd, h0]
      cases list.find? (·.name = dirOf path) with
      | none => rfl
      | some dev =>
        simp only [List.length_cons, List.tail_cons]
        rw [if_pos (by omega), ← hcs]
        exact ih (htr ▸ ht)
    · simp

/-- **Creating looks at the components**, and at the trailing delimiter. -/
theorem createIn_eq {rounds : Nat} {list : List Device} {last : Nat} (hs : Sanitised path)
    (hr : path.length < rounds) :
    createIn behind callbacks rounds path list last =
      createComponents behind callbacks (trailing path) (components path) list last := by
  have hw := walk_of (.inl hs) hr
  clear hs hr
  induction hw generalizing list last with
  | done rounds => rfl
  | @slash rounds r _ ih =>
    rw [createIn, components_slash]
    simp only [dirOf_slash, List.tail_cons, reduceCtorEq, if_true, if_false, ih]
    cases r with
    | nil => rfl
    | cons b r => rw [trailing_cons]
  | last hd h0 hpath hc ht =>
    rw [createIn]
    simp only [if_neg (ne_nil_of_dirOf hd), if_neg hd, h0]
    rw [hc, ht, if_neg (by simp), createComponents, ending, if_neg (by simp), ← hpath]
  | ended hd h0 hpath hc ht =>
    rw [createIn]
    simp only [if_neg (ne_nil_of_dirOf hd), if_neg hd, h0]
    rw [hc, ht, if_neg (by simp), createComponents, ending, if_pos rfl, ← hpath]
  | @dir rounds path b r hd h0 hc ht hne _ ih =>
    obtain ⟨c, cs, hcs⟩ := List.exists_cons_of_ne_nil hne
    have hih : ∀ list last, createIn behind callbacks rounds (b :: r) list last =
        createComponents behind callbacks (trailing (b :: r)) (c :: cs) list last := by
      intro list last
      rw [ih, hcs]
    rw [createIn]
    simp only [if_neg (ne_nil_of_dirOf hd), if_neg hd, h0]
    rw [hc, ht, if_pos (by simp), hcs, createComponents]
    · simp only [List.tail_cons, hih]
    · simp

/-- Where the string ends. -/
theorem split_null (path : List Nat) : ∃ s rest, NoNull s ∧ path ++ [0] = s ++ 0 :: rest := by
  induction path with
  | nil => exact ⟨[], [], List.not_mem_nil, rfl⟩
  | cons c path ih =>
    by_cases hc : c = 0
    · exact ⟨[], path ++ [0], List.not_mem_nil, by simp [hc]⟩
    · obtain ⟨s, rest, hnull, hsplit⟩ := ih
      refine ⟨c :: s, rest, ?_, by simp [hsplit]⟩
      simpa [NoNull, eq_comm, hc] using hnull

theorem words_of_components {path : List Nat} (hn : NoNull path) :
    ∀ c ∈ components path, Word c ∧ NoNull c := fun _ hc =>
  ⟨(mem_components hc).1, fun h0 => hn ((mem_components hc).2 0 h0)⟩

/-- A leading delimiter does not matter. -/
theorem components_skip_slash (path : List Nat) :
    components (if path.head? = some SLASH then path.tail else path) = components path := by
  split
  · rename_i hh
    cases path with
    | nil => cases hh
    | cons c s =>
      simp only [List.head?_cons, Option.some.injEq] at hh
      rw [hh, components_slash]
      rfl
  · rfl

theorem skip_slash (path : List Nat) (hne : components path ≠ []) :
    components (if path.head? = some SLASH then path.tail else path) = components path ∧
      trailing (if path.head? = some SLASH then path.tail else path) = trailing path := by
  refine ⟨components_skip_slash path, ?_⟩
  split
  · rename_i hh
    cases path with
    | nil => cases hh
    | cons c s =>
      simp only [List.head?_cons, Option.some.injEq] at hh
      subst hh
      rw [components_slash] at hne
      cases s with
      | nil => exact absurd rfl hne
      | cons b s => exact (trailing_cons ..).symm
  · rfl

theorem Sanitised.skip_slash (h : Sanitised path) :
    Sanitised (if path.head? = some SLASH then path.tail else path) := by
  split
  · cases path with
    | nil => trivial
    | cons c s => exact h.tail
  · exact h

/-- Up to the first null. -/
theorem sanatisedCopy_some {p : List Nat} (h : sanatisedCopy path = some p) : ∃ s rest,
    NoNull s ∧ path ++ [0] = s ++ 0 :: rest ∧ s.length < 2 ^ 31 ∧ p = sanatisePath s := by
  obtain ⟨s, rest, hnull, hsplit⟩ := split_null path
  have hlength : s.length < path.length + 1 := by
    have hlen := congrArg List.length hsplit
    simp only [List.length_append, List.length_cons, List.length_nil] at hlen
    omega
  refine ⟨s, rest, hnull, hsplit, ?_⟩
  rw [sanatisedCopy, hsplit] at h
  by_cases hint : s.length < 2 ^ 31
  · rw [vfsSanatisePath_eq s rest hnull hint hlength, Option.map_some, List.take_left] at h
    exact ⟨hint, (Option.some.inj h).symm⟩
  · rw [vfsSanatisePath_overlong hnull (Nat.le_of_not_lt hint)] at h
    cases h

theorem sanatisedCopy_eq (hnull : NoNull path) (hlen : path.length < 2 ^ 31) :
    sanatisedCopy path = some (sanatisePath path) := by
  rw [sanatisedCopy, vfsSanatisePath_eq path [] hnull hlen (Nat.lt_succ_self _), Option.map_some,
    List.take_left]

/-- An answer is the one for a path that is sanitised. -/
theorem deviceCreateAt_ok {list list' : List Device} {last last' : Nat} {answer : Option Driver}
    (h : deviceCreateAt behind path callbacks list last = .ok (answer, list', last')) :
    ∃ p, Sanitised p ∧
      createIn behind callbacks (p.length + 1) p list last = .ok (answer, list', last') := by
  unfold deviceCreateAt at h
  split at h
  · cases h
  · rename_i p hp
    obtain ⟨s, -, -, -, -, rfl⟩ := sanatisedCopy_some hp
    have hs := (sanitised_sanatisePath s).skip_slash
    refine ⟨_, hs, ?_⟩
    rw [createIn_eq hs (Nat.lt_succ_of_le (skip_slash_length _))] at h
    rwa [createIn_eq hs (Nat.lt_succ_self _)]

/-- No answer for a path that an `int` does not count. -/
theorem deviceCreateAt_overlong {list : List Device} {last : Nat} (hnull : NoNull path)
    (hlen : 2 ^ 31 ≤ path.length) :
    deviceCreateAt behind path callbacks list last = .error .wild := by
  rw [deviceCreateAt, sanatisedCopy, vfsSanatisePath_overlong hnull hlen]
  rfl

theorem deviceCreateAt_length {list : List Device} {last : Nat}
    {r : Option Driver × List Device × Nat} (hnull : NoNull path)
    (h : deviceCreateAt behind path callbacks list last = .ok r) : path.length < 2 ^ 31 := by
  by_contra hlen
  rw [deviceCreateAt_overlong hnull (Nat.le_of_not_lt hlen)] at h
  cases h

theorem deviceCreateAt_eq {list : List Device} {last : Nat} (hnull : NoNull path)
    (hlen : path.length < 2 ^ 31) (hne : components path ≠ []) :
    deviceCreateAt behind path callbacks list last =
      createComponents behind callbacks (trailing path) (components path) list last := by
  have hc := components_sanatisePath path
  obtain ⟨h1, h2⟩ := skip_slash (sanatisePath path) (by rwa [hc])
  have hs := (sanitised_sanatisePath path).skip_slash
  rw [deviceCreateAt, sanatisedCopy_eq hnull hlen]
  simp only
  rw [createIn_eq hs (Nat.lt_succ_of_le (skip_slash_length _)), h1, h2, hc, trailing_sanatisePath]

theorem devfsFind_eq {mode : Nat} {list : List Device} (hne : components path ≠ [])
    (ht : trailing path = false) :
    (devfsFind mode path list).1 = openComponents mode (components path) list := by
  obtain ⟨h1, h2⟩ := skip_slash path hne
  rw [devfsFind, devfsWalk_eq (h2.trans ht) (Nat.lt_succ_of_le (skip_slash_length _)), h1]

/-- Without a component nothing is created. -/
theorem deviceCreateAt_nil {list : List Device} {last : Nat} (hnull : NoNull path)
    (hlen : path.length < 2 ^ 31) (h : components path = []) :
    deviceCreateAt behind path callbacks list last = .ok (none, list, last) := by
  have hs := (sanitised_sanatisePath path).skip_slash
  rw [deviceCreateAt, sanatisedCopy_eq hnull hlen]
  simp only
  rw [createIn_eq hs (Nat.lt_succ_of_le (skip_slash_length _)), components_skip_slash,
    components_sanatisePath, h]
  rfl

/-! ## What a call does to the tree -/

variable {list list' : List Device} {last last' : Nat} {t : Bool} {answer : Option Driver}

theorem grown_append (l xs : List Device) : Grown l (l ++ xs) := by
  induction l with
  | nil => exact .nil xs
  | cons dev l ih =>
    obtain ⟨name, driver, children⟩ := dev
    cases children with
    | nil => exact .same ih
    | cons c cs => exact .child (Grown.refl _) ih

theorem bind_ok {α β : Type} {x : Except Stop α} {f : α → Except Stop β} {b : β}
    (h : (x >>= f) = .ok b) : ∃ a, x = .ok a ∧ f a = .ok b := by
  cases x with
  | error e => cases h
  | ok a => exact ⟨a, rfl, h⟩

/-- The end of the path: nothing, or one more device. -/
theorem createLast_ok {path : List Nat}
    (h : createLast behind callbacks path list last = .ok (answer, list', last')) :
    (list.any (clashes behind path) = true ∧ answer = none ∧ list' = list ∧ last' = last) ∨
      (list.any (clashes behind path) = false ∧
        answer = some (newDevice (last + 1) path callbacks).driver ∧
        list' = list ++ [newDevice (last + 1) path callbacks] ∧ last' = last + 1) := by
  unfold createLast at h
  split at h
  · rename_i hc
    cases h
    exact .inl ⟨hc, rfl, rfl, rfl⟩
  · rename_i hc
    split at h
    · cases h
    · cases h
      exact .inr ⟨by simpa using hc, rfl, rfl, rfl⟩

/-- On the way to the end: into a directory that is there, or into a new one. -/
theorem createComponents_cons {c : List Nat} {cs : List (List Nat)} (hcs : cs ≠ [])
    (h : createComponents behind callbacks t (c :: cs) list last = .ok (answer, list', last')) :
    (∃ dev children, list.find? (·.name = c) = some dev ∧ list' = setChildren c children list ∧
        createComponents behind callbacks t cs dev.child last = .ok (answer, children, last')) ∨
      (∃ children, list.find? (·.name = c) = none ∧ list.any (clashes behind c) = false ∧
        list' = list ++ [(allocateDevice (last + 1) c reserved).withChildren children] ∧
        createComponents behind callbacks t cs [allocateDummy] (last + 1) =
          .ok (answer, children, last')) := by
  rw [createComponents] at h
  · cases hf : list.find? (·.name = c) with
    | some dev =>
      rw [hf] at h
      obtain ⟨⟨a, children, l⟩, hrec, he⟩ := bind_ok h
      cases he
      exact .inl ⟨dev, children, rfl, rfl, hrec⟩
    | none =>
      rw [hf] at h
      simp only at h
      split at h
      · cases h
      · rename_i hc
        obtain ⟨⟨a, children, l⟩, hrec, he⟩ := bind_ok h
        cases he
        exact .inr ⟨children, rfl, by simpa using hc, rfl, hrec⟩
  · exact hcs

/-- The tree grows. -/
theorem createComponents_grown {cs : List (List Nat)} (hcs : cs ≠ [])
    (h : createComponents behind callbacks t cs list last = .ok (answer, list', last')) :
    Grown list list' := by
  induction cs generalizing list list' last with
  | nil => exact absurd rfl hcs
  | cons c cs ih =>
    by_cases hend : cs = []
    · subst hend
      rcases createLast_ok h with ⟨-, -, rfl, -⟩ | ⟨-, -, rfl, -⟩
      · exact Grown.refl _
      · exact grown_append _ _
    · rcases createComponents_cons hend h with
        ⟨dev, children, hf, rfl, hrec⟩ | ⟨children, -, -, rfl, -⟩
      · exact grown_setChildren hf (ih hend hrec)
      · exact grown_append _ _

theorem find_setChildren {c : List Nat} {children : List Device} {dev : Device}
    (hf : list.find? (·.name = c) = some dev) :
    (setChildren c children list).find? (·.name = c) = some (.mk c dev.driver children) := by
  obtain ⟨before, after, -, -, hb, hset⟩ := setChildren_split hf
  rw [hset, List.find?_eq_some_iff_append]
  exact ⟨by simp [Device.name], before, after, rfl, fun d hd => by simpa using hb d hd⟩

/-- A device of that name would clash. -/
theorem clashes_iff {path : List Nat} (hp : NoNull path) (dev : Device) :
    clashes behind path dev = true ↔ path <+: dev.text behind := by
  unfold clashes
  rw [decide_eq_true_eq, strncmp_length_right hp, ← cstr_agree_iff hp]
  exact ⟨fun h i hi => (h i hi).symm, fun h i hi => (h i hi).symm⟩

theorem name_prefix_text (dev : Device) : dev.name <+: dev.text behind := by
  unfold Device.text
  split
  · exact List.prefix_rfl
  · exact List.prefix_append _ _

/-- Without a clash there is no device of that name. -/
theorem find_none_of_clashes {c : List Nat} (hc : NoNull c)
    (h : list.any (clashes behind c) = false) : list.find? (·.name = c) = none := by
  rw [List.find?_eq_none]
  intro dev hdev hname
  rw [decide_eq_true_eq] at hname
  have hclash : clashes behind c dev = true :=
    (clashes_iff hc dev).mpr (hname ▸ name_prefix_text dev)
  rw [List.any_eq_false] at h
  exact h dev hdev hclash

/-- Then a new device of that name is the first one. -/
theorem find_new {c : List Nat} {dev : Device} (hname : dev.name = c)
    (hf : list.find? (·.name = c) = none) : (list ++ [dev]).find? (·.name = c) = some dev := by
  rw [List.find?_append, hf, Option.none_or]
  simp [hname]

theorem newDevice_name {c : List Nat} (hw : Word c) (id : Nat) :
    (newDevice id (ending t c) callbacks).name = c := by
  unfold newDevice ending
  cases t with
  | false => simp [trailing_word hw.2, allocateDevice, Device.name]
  | true => simp [trailing, Device.name]

theorem noNull_ending {c : List Nat} (h : NoNull c) : NoNull (ending t c) := by
  cases t with
  | false => exact h
  | true => simp_all [ending, NoNull, SLASH]

/-- **What was created is found by its components.** -/
theorem createComponents_opens {mode : Nat} {d : Driver} {cs : List (List Nat)}
    (hw : ∀ c ∈ cs, Word c ∧ NoNull c)
    (h : createComponents behind callbacks false cs list last = .ok (some d, list', last')) :
    openComponents mode cs list' = checkMode mode d := by
  induction cs generalizing list list' last with
  | nil => cases h
  | cons c cs ih =>
    obtain ⟨hc, hnull⟩ := hw c (List.mem_cons_self ..)
    by_cases hend : cs = []
    · subst hend
      rcases createLast_ok h with ⟨-, ha, -, -⟩ | ⟨hno, ha, rfl, -⟩
      · cases ha
      · have hname : (newDevice (last + 1) (ending false c) callbacks).name = c :=
          newDevice_name hc _
        cases ha
        rw [openComponents, find_new hname (find_none_of_clashes hnull hno)]
    · have hwords := fun c hc => hw c (List.mem_cons_of_mem _ hc)
      rcases createComponents_cons hend h with
        ⟨dev, children, hf, rfl, hrec⟩ | ⟨children, hf, hno, rfl, hrec⟩
      · have hg := createComponents_grown hend hrec
        have hchild : (Device.mk c dev.driver children).child = children := by
          obtain ⟨first, rest, he⟩ : ∃ first rest, dev.child = first :: rest := by
            unfold Device.child
            split <;> exact ⟨_, _, rfl⟩
          rw [he] at hg
          exact child_of_grown hg
        rw [openComponents, find_setChildren hf]
        · simp only [hchild]
          exact ih hwords hrec
        · exact hend
      · have hg := createComponents_grown hend hrec
        have hname : ((allocateDevice (last + 1) c reserved).withChildren children).name = c := rfl
        rw [openComponents, find_new hname hf]
        · have hchild : ((allocateDevice (last + 1) c reserved).withChildren children).child =
              children := child_of_grown hg
          simp only [hchild]
          exact ih hwords hrec
        · exact hend

end GaOS.L4.Files
