import GaOS.Core.UpdateFirst
import GaOS.L4Files.DeviceCreate
import GaOS.L4Files.Ustar

/-!
# Types and parents of devices

The tree of devices with two fields of `device_t` that the walks do not look at, the type
and the pointer to the parent, and the functions that use them: `device_get_by_type` and
`device_generate_path_of` (kernel/src/devices/manager.c:63-105, 240-261).

A dummy can be a parent too, the one of a device at ./x, so dummies have addresses here.
A parent is set from above: `device_create_at` writes it into the head of a list each time
it goes down into that list, and a new device takes it from the device before it. The list
of a directory that was created with a trailing delimiter has no parent until then.

As in `Files.createIn`, a name whose block has no null behind it reads on with what is in
memory there, `behind`. Without types, parents and the addresses of dummies the tree is the
one of `Files.createIn` (`devices_createIn`).
-/
namespace GaOS.L4.Devices

open GaOS.L4.Files
open GaOS.L4.Ustar (minInt)

/-! ## Devices -/

/-- mirrors kernel/src/devices/manager.h:5-15 -/
inductive DeviceType where
  | other
  | reserved
  | serial
  | framebuffer
  | timer
  | hmi
  | module
  | acpiTable
  deriving DecidableEq, Repr

/-- Blocks of devices are never given back: the number in the order of creation stands for
the address. -/
inductive Address where
  | device (number : Nat)
  | dummy (number : Nat)
  deriving DecidableEq, Repr

def Address.id : Address → Nat
  | .device number => number
  | .dummy _ => 0

/-- A `device_t` without `child` and `next`.
mirrors kernel/src/devices/manager.h:17-32 -/
structure Record where
  name : List Nat
  type : DeviceType
  callbacks : Callbacks
  /-- the block of the name has a null behind it -/
  nameEnds : Bool
  address : Address
  parent : Option Address

/-- What the walks see of it. -/
def Record.driver (dev : Record) : Driver := ⟨dev.callbacks, dev.address.id, dev.nameEnds⟩

/-- `dev->name` as a string. -/
def Record.text (behind : Nat → List Nat) (dev : Record) : List Nat :=
  if dev.nameEnds then dev.name else dev.name ++ behind dev.address.id

inductive Entry
  | mk (record : Record) (children : List Entry)

def Entry.record : Entry → Record
  | .mk record _ => record

def Entry.children : Entry → List Entry
  | .mk _ children => children

/-- How many devices and dummies there are. -/
structure Counts where
  devices : Nat
  dummies : Nat

/-- mirrors kernel/src/devices/manager.c:58-61 -/
def allocateDummy (number : Nat) (parent : Option Address) : Entry :=
  .mk ⟨[DOT], .reserved, reserved, true, .dummy number, parent⟩ []

/-- mirrors kernel/src/devices/manager.c:43-56 -/
def allocateDevice (number : Nat) (path : List Nat) (type : DeviceType) (callbacks : Callbacks)
    (parent : Option Address) : Record :=
  ⟨path, type, callbacks, endsInBlock path, .device number, parent⟩

mutual
/-- A device as the walks see it. -/
def Entry.device : Entry → Device
  | .mk dev children => .mk dev.name dev.driver (devices children)

def devices : List Entry → List Device
  | [] => []
  | dev :: list => dev.device :: devices list
end

/-! ## Creation -/

/-- The first device of that name gets these children. -/
def setChildren (name : List Nat) (children list : List Entry) : List Entry :=
  updateFirst (·.record.name = name) (fun dev => .mk dev.record children) list

/-- `dev->child`, initialised if needed, with `dev` as the parent of its head.
mirrors kernel/src/devices/manager.c:162-164, 190-191 -/
def adopt (dev : Address) : List Entry → Counts → List Entry × Counts
  | [], n => ([allocateDummy (n.dummies + 1) (some dev)], { n with dummies := n.dummies + 1 })
  | .mk head children :: list, n => (.mk { head with parent := some dev } children :: list, n)

abbrev Created : Type := Except Stop (Option Record × List Entry × Counts)

/-- mirrors kernel/src/devices/manager.c:206 -/
def clashes (behind : Nat → List Nat) (path : List Nat) (dev : Entry) : Bool :=
  decide (strncmp (cstr (dev.record.text behind)) (cstr path) path.length = 0)

/-- The device at the end of a list. With a trailing delimiter it is a directory, and a null
is put over the delimiter; the dummy in it has no parent yet.
mirrors kernel/src/devices/manager.c:219-229 -/
def newDevice (path : List Nat) (type : DeviceType) (callbacks : Callbacks)
    (parent : Option Address) (n : Counts) : Entry × Counts :=
  let new := allocateDevice (n.devices + 1) path type callbacks parent
  if trailing path then
    (.mk { new with name := path.dropLast, nameEnds := true } [allocateDummy (n.dummies + 1) none],
      ⟨n.devices + 1, n.dummies + 1⟩)
  else (.mk new [], { n with devices := n.devices + 1 })

/-- The end of the path. A list without a device would be an access through a null pointer,
and a null behind the block of the name is a wild write (`cutsBehind`).
mirrors kernel/src/devices/manager.c:197-233 -/
def createLast (behind : Nat → List Nat) (type : DeviceType) (callbacks : Callbacks)
    (path : List Nat) (list : List Entry) (n : Counts) : Created :=
  if list.any (clashes behind path) then .ok (none, list, n)
  else
    match list.getLast? with
    | none => .error .wild
    | some last =>
      if cutsBehind behind (n.devices + 1) path then .error .wild
      else
        let (new, n) := newDevice path type callbacks last.record.parent n
        .ok (some new.record, list ++ [new], n)

/-- The answer, the list with what was created in it or below, and the counts. For a
directory that is missing the source calls itself; the call comes down to the same list
and gives the same parents on its way, so only its last step is here.
mirrors kernel/src/devices/manager.c:135-237 -/
def createIn (behind : Nat → List Nat) (type : DeviceType) (callbacks : Callbacks) :
    Nat → List Nat → List Entry → Counts → Created
  | 0, _, list, n => .ok (none, list, n)
  | rounds + 1, path, list, n =>
    let dir := dirOf path
    let rest := restOf path
    if path = [] then .ok (none, list, n)
    else if dir = [] then createIn behind type callbacks rounds path.tail list n
    else if 2 ≤ rest.length then
      match list.find? (·.record.name = dir) with
      | some dev => do
        let (child, n) := adopt dev.record.address dev.children n
        let (answer, child, n) ← createIn behind type callbacks rounds rest.tail child n
        return (answer, setChildren dir child list, n)
      | none => do
        let (new, list, n) ← createLast behind .reserved reserved dir list n
        match new with
        | none => .error .wild
        | some new =>
          let (child, n) := adopt new.address [] n
          let (answer, child, n) ← createIn behind type callbacks rounds rest.tail child n
          return (answer, setChildren dir child list, n)
    else createLast behind type callbacks path list n

/-- mirrors kernel/src/devices/manager.c:107-133 -/
def deviceCreateAt (behind : Nat → List Nat) (path : List Nat) (type : DeviceType)
    (callbacks : Callbacks) (list : List Entry) (n : Counts) : Created :=
  match sanatisedCopy path with
  | none => .error .wild
  | some path =>
    createIn behind type callbacks (path.length + 1)
      (if path.head? = some SLASH then path.tail else path) list n

/-! ## Enumeration -/

/-- A device and the names that lead to it. -/
structure Place where
  record : Record
  path : List (List Nat)

def Place.below (name : List Nat) (p : Place) : Place := ⟨p.record, name :: p.path⟩

mutual
/-- The device, and then its children. -/
def Entry.places : Entry → List Place
  | .mk dev children => ⟨dev, [dev.name]⟩ :: (places children).map (Place.below dev.name)

def places : List Entry → List Place
  | [] => []
  | dev :: list => dev.places ++ places list
end

def records (list : List Entry) : List Record := (places list).map (·.record)

mutual
/-- One round of the loop: the device, or what is left of the index.
mirrors kernel/src/devices/manager.c:244-252 -/
def Entry.getByType (type : DeviceType) : Entry → Nat → Record ⊕ Nat
  | .mk dev child, index =>
    if dev.type = type ∧ index = 0 then .inl dev
    else getByTypeRecursive type child (if dev.type = type then index - 1 else index)

/-- mirrors kernel/src/devices/manager.c:240-255 -/
def getByTypeRecursive (type : DeviceType) : List Entry → Nat → Record ⊕ Nat
  | [], index => .inr index
  | dev :: list, index =>
    match dev.getByType type index with
    | .inl found => .inl found
    | .inr index => getByTypeRecursive type list index
end

/-- What is at an address. -/
def recordAt (root : List Entry) (address : Address) : Option Record :=
  (records root).find? (·.address = address)

/-- The device and the ones above it, the parents followed up to the null.
mirrors kernel/src/devices/manager.c:65-75 -/
def hierarchy (root : List Entry) : Nat → Record → Option (List Record)
  | 0, _ => none
  | rounds + 1, dev =>
    match dev.parent with
    | none => some [dev]
    | some address => do
      let up ← recordAt root address
      let above ← hierarchy root rounds up
      return dev :: above

/-- Bytes of a buffer are written; `none` outside of it. -/
def put (size : Nat) (path : Nat → Nat) (offset : Nat) (bytes : List Nat) : Option (Nat → Nat) :=
  if offset + bytes.length ≤ size then
    some fun i =>
      if offset ≤ i ∧ i < offset + bytes.length then bytes.getD (i - offset) 0 else path i
  else none

/-- The offset and the buffer after the names, the uppermost first. The sizes go through
`int min(int, int)`; a negative number of bytes is a copy over all of memory.
mirrors kernel/src/devices/manager.c:79-98 -/
def writeNames (size pathLen : Nat) :
    List (List Nat) → Nat → (Nat → Nat) → Option (Nat × (Nat → Nat))
  | [], offset, path => some (offset, path)
  | name :: names, offset, path =>
    if pathLen ≤ offset then some (offset, path)
    else do
      let path ← put size path offset [SLASH]
      let offset := offset + 1
      if pathLen ≤ offset then return (offset, path)
      let count := minInt name.length (pathLen - offset : Nat)
      if count < 0 then none
      let path ← put size path offset (name.take count.toNat)
      writeNames size pathLen names (offset + name.length) path

/-- The buffer `path` has `size` bytes. Every parent is another device, so their number
bounds the rounds.
mirrors kernel/src/devices/manager.c:63-105 -/
def deviceGeneratePathOf (behind : Nat → List Nat) (root : List Entry) (dev : Record)
    (path : Nat → Nat) (size : Nat) : Option (Nat → Nat) := do
  let hierarchy ← hierarchy root ((records root).length + 1) dev
  let pathLen := (size + 2 ^ 64 - 1) % 2 ^ 64
  let (offset, path) ← writeNames size pathLen (hierarchy.reverse.map (Record.text behind)) 0 path
  put size path offset [0]

/-- The answer is a buffer or null.
mirrors kernel/src/devices/manager.c:257-261 -/
def deviceGetByType (behind : Nat → List Nat) (root : List Entry) (type : DeviceType)
    (path : Nat → Nat) (size index : Nat) : Option (Option (Nat → Nat)) :=
  match getByTypeRecursive type root index with
  | .inl dev => (deviceGeneratePathOf behind root dev path size).map some
  | .inr _ => some none

/-! ## The tree of the walks -/

@[simp] theorem Entry.record_mk (dev : Record) (children : List Entry) :
    (Entry.mk dev children).record = dev := rfl

@[simp] theorem Entry.children_mk (dev : Record) (children : List Entry) :
    (Entry.mk dev children).children = children := rfl

variable {behind : Nat → List Nat} {type : DeviceType} {callbacks : Callbacks}
  {c path : List Nat} {list : List Entry} {n : Counts}

@[simp] theorem devices_nil : devices [] = [] := rfl

@[simp] theorem devices_cons (dev : Record) (children list : List Entry) :
    devices (.mk dev children :: list) =
      .mk dev.name dev.driver (devices children) :: devices list := rfl

@[simp] theorem devices_append (list list' : List Entry) :
    devices (list ++ list') = devices list ++ devices list' := by
  induction list with
  | nil => rfl
  | cons e list ih =>
    obtain ⟨dev, children⟩ := e
    simp [ih]

/-- The walks search by name. -/
theorem devices_find (c : List Nat) (list : List Entry) :
    (devices list).find? (·.name = c) = (list.find? (·.record.name = c)).map Entry.device := by
  induction list with
  | nil => rfl
  | cons e list ih =>
    obtain ⟨dev, children⟩ := e
    rw [devices_cons, find_cons, List.find?_cons]
    by_cases hc : dev.name = c
    · simp [hc, Entry.record, Entry.device]
    · simpa [hc, Entry.record] using ih

theorem devices_setChildren (c : List Nat) (children list : List Entry) :
    devices (setChildren c children list) =
      Files.setChildren c (devices children) (devices list) := by
  induction list with
  | nil => rfl
  | cons e list ih =>
    obtain ⟨dev, old⟩ := e
    unfold setChildren at ih ⊢
    by_cases hc : dev.name = c
    · simp [updateFirst, Files.setChildren, hc]
    · simp [updateFirst, Files.setChildren, hc, ih]

theorem devices_adopt (e : Entry) (n : Counts) :
    devices (adopt e.record.address e.children n).1 = e.device.child ∧
      (adopt e.record.address e.children n).2.devices = n.devices := by
  obtain ⟨dev, children⟩ := e
  cases children with
  | nil => exact ⟨rfl, rfl⟩
  | cons e children =>
    obtain ⟨dev, below⟩ := e
    exact ⟨rfl, rfl⟩

theorem adopt_ne_nil (address : Address) (children : List Entry) (n : Counts) :
    (adopt address children n).1 ≠ [] := by
  cases children with
  | nil => simp [adopt]
  | cons e children =>
    obtain ⟨dev, below⟩ := e
    simp [adopt]

theorem device_clashes (behind : Nat → List Nat) (path : List Nat) (e : Entry) :
    Files.clashes behind path e.device = clashes behind path e := by
  obtain ⟨dev, children⟩ := e
  rfl

theorem devices_clashes (behind : Nat → List Nat) (path : List Nat) (list : List Entry) :
    (devices list).any (Files.clashes behind path) = list.any (clashes behind path) := by
  induction list with
  | nil => rfl
  | cons e list ih => rw [devices, List.any_cons, List.any_cons, device_clashes, ih]

/-- Without types, parents and the addresses of dummies. -/
def forget : Option Record × List Entry × Counts → Option Driver × List Device × Nat :=
  fun (answer, list, n) => (answer.map Record.driver, devices list, n.devices)

theorem devices_newDevice (path : List Nat) (type : DeviceType) (callbacks : Callbacks)
    (parent : Option Address) (n : Counts) :
    devices [(newDevice path type callbacks parent n).1] =
        [Files.newDevice (n.devices + 1) path callbacks] ∧
      (newDevice path type callbacks parent n).1.record.driver =
        (Files.newDevice (n.devices + 1) path callbacks).driver ∧
      (newDevice path type callbacks parent n).2.devices = n.devices + 1 := by
  unfold newDevice Files.newDevice
  split
  · exact ⟨rfl, rfl, rfl⟩
  · exact ⟨rfl, rfl, rfl⟩

theorem devices_createLast (hne : list ≠ []) :
    (createLast behind type callbacks path list n).map forget =
      Files.createLast behind callbacks path (devices list) n.devices := by
  unfold createLast Files.createLast
  rw [devices_clashes]
  split
  · rfl
  · obtain ⟨last, hlast⟩ : ∃ last, list.getLast? = some last :=
      ⟨_, List.getLast?_eq_some_getLast hne⟩
    obtain ⟨h1, h2, h3⟩ := devices_newDevice path type callbacks last.record.parent n
    simp only [hlast]
    split
    · rfl
    · simp only [Except.map, forget, Option.map_some, devices_append, h1, h2, h3]

/-- A directory that is created on the way has no name with a delimiter. -/
theorem createLast_dir {dir : List Nat} (hd : SLASH ∉ dir) (hne : list ≠ []) :
    createLast behind .reserved reserved dir list n =
      if list.any (clashes behind dir) then .ok (none, list, n)
      else
        let new := allocateDevice (n.devices + 1) dir .reserved reserved
          (list.getLast hne).record.parent
        .ok (some new, list ++ [.mk new []], { n with devices := n.devices + 1 }) := by
  have hcut : cutsBehind behind (n.devices + 1) dir = false := by
    simp [cutsBehind, trailing_word hd]
  unfold createLast newDevice
  rw [List.getLast?_eq_some_getLast hne, trailing_word hd]
  simp only [hcut]
  rfl

theorem setChildren_new {dev : Record} {old children : List Entry} (hname : dev.name = c)
    (hf : list.find? (·.record.name = c) = none) :
    setChildren c children (list ++ [.mk dev old]) = list ++ [.mk dev children] :=
  updateFirst_snoc hf (by simp [Entry.record, hname])

theorem forget_setChildren (x : Created) (c : List Nat) (list : List Entry) :
    (x >>= fun r => pure (r.1, setChildren c r.2.1 list, r.2.2)).map forget =
      x.map forget >>= fun r => pure (r.1, Files.setChildren c r.2.1 (devices list), r.2.2) := by
  cases x with
  | error s => rfl
  | ok r =>
    obtain ⟨answer, children, n⟩ := r
    simp [Except.map, bind, Except.bind, pure, Except.pure, forget, devices_setChildren]

theorem forget_new (x : Created) (dev : Record) (hname : dev.name = c)
    (hf : list.find? (·.record.name = c) = none) :
    (x >>= fun r => pure (r.1, setChildren c r.2.1 (list ++ [.mk dev []]), r.2.2)).map forget =
      x.map forget >>= fun r =>
        pure (r.1, devices list ++ [.mk dev.name dev.driver r.2.1], r.2.2) := by
  cases x with
  | error s => rfl
  | ok r =>
    obtain ⟨answer, children, n⟩ := r
    simp [Except.map, bind, Except.bind, pure, Except.pure, forget, setChildren_new hname hf]

/-- **The same tree.** -/
theorem devices_createIn (hne : list ≠ []) (rounds : Nat) :
    (createIn behind type callbacks rounds path list n).map forget =
      Files.createIn behind callbacks rounds path (devices list) n.devices := by
  induction rounds generalizing path list n with
  | zero => rfl
  | succ rounds ih =>
    rw [createIn, Files.createIn]
    simp only
    split
    · rfl
    split
    · exact ih hne
    split
    · rw [devices_find]
      cases hf : list.find? (·.record.name = dirOf path) with
      | some e =>
        obtain ⟨hchild, hn⟩ := devices_adopt e n
        simp only [Option.map_some]
        rw [forget_setChildren, ih (adopt_ne_nil _ _ _), hchild, hn]
      | none =>
        simp only [createLast_dir (slash_notMem_dirOf path) hne, devices_clashes, Option.map_none]
        split
        · rfl
        · -- the new directory is the only one of that name
          refine (forget_new (createIn behind type callbacks rounds (restOf path).tail
            [allocateDummy (n.dummies + 1) (some (.device (n.devices + 1)))]
            ⟨n.devices + 1, n.dummies + 1⟩) (allocateDevice (n.devices + 1) (dirOf path) .reserved
              reserved (list.getLast hne).record.parent) rfl hf).trans ?_
          rw [ih (by simp)]
          rfl
    · exact devices_createLast hne

theorem devices_deviceCreateAt (hne : list ≠ []) :
    (deviceCreateAt behind path type callbacks list n).map forget =
      Files.deviceCreateAt behind path callbacks (devices list) n.devices := by
  unfold deviceCreateAt Files.deviceCreateAt
  cases sanatisedCopy path with
  | none => rfl
  | some path => exact devices_createIn hne _

end GaOS.L4.Devices
