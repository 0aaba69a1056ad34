import GaOS.L4Files.DeviceCreate
import GaOS.L4Files.HeapUse
import GaOS.L4Files.NodeSpec

/-!
# The registry of devices

Runs of `device_create_at` and `devfs_open` from the list with the dummy that
`device_manager_init` makes. A creation takes blocks of the heap too, so the heap after it
is any. What a name reads as when its block has no null behind it is up to the heap, and
is chosen anew for every call.

`created_stays_open`: once a path was created, opening it gives the device that was
created, from then on. Opening does not sanitise the path: it skips the delimiters in a
row on its way, and so sees the same components (`devfsFind_eq`). It answers if the blocks
that it asks for (`openRequests`) are served.
-/
namespace GaOS.L4.Files

structure Registry (η : Type) where
  files : FileState η
  /-- the number of the device that was created last -/
  last : Nat

inductive RegistryEvent where
  | create (path : List Nat) (callbacks : Callbacks) (answer : Option Driver)
  | opened (path : List Nat) (mode : Nat) (answer : Except Int Nat)

section
variable {η : Type}

def registryLTS (K : BlockHeap η) : LTS (Registry η) RegistryEvent where
  init s := s.files.devices = [allocateDummy] ∧ s.last = 0
  step s e t := match e with
    | .create path callbacks answer => t.files.nodes = s.files.nodes ∧ ∃ behind,
        deviceCreateAt behind path callbacks s.files.devices s.last =
          .ok (answer, t.files.devices, t.last)
    | .opened path mode answer => t.last = s.last ∧
        devfsOpen K path mode s.files = some (answer, t.files)

variable {K : BlockHeap η} {s t u : Registry η} {path : List Nat} {mode : Nat}

/-! ## The tree only grows -/

theorem deviceCreateAt_grown {behind : Nat → List Nat} {callbacks : Callbacks}
    {list list' : List Device} {last last' : Nat} {answer : Option Driver}
    (h : deviceCreateAt behind path callbacks list last = .ok (answer, list', last')) :
    Grown list list' := by
  obtain ⟨p, hs, hcreate⟩ := deviceCreateAt_ok h
  rw [createIn_eq hs (Nat.lt_succ_self _)] at hcreate
  by_cases hne : components p = []
  · rw [hne] at hcreate
    cases hcreate
    exact Grown.refl _
  · exact createComponents_grown hne hcreate

theorem devfsOpen_devices {s s' : FileState η} {answer : Except Int Nat}
    (h : devfsOpen K path mode s = some (answer, s')) :
    s'.devices = (devfsFind mode path s.devices).2 := by
  simp only [devfsOpen, Option.bind_eq_bind, Option.bind_eq_some_iff, Prod.exists] at h
  obtain ⟨found, devices, heap, hl, h⟩ := h
  rw [devfsFind, devfsLookup_walk hl]
  cases found with
  | error e =>
    simp only [Option.pure_def, Option.some.injEq, Prod.mk.injEq] at h
    rw [← h.2]
  | ok driver =>
    simp only [Option.bind_eq_some_iff, Prod.exists, Option.pure_def, Option.some.injEq,
      Prod.mk.injEq] at h
    obtain ⟨_, _, -, _, _, -, -, rfl⟩ := h
    rfl

theorem step_grown {e : RegistryEvent} (h : (registryLTS K).step s e t) :
    Grown s.files.devices t.files.devices := by
  cases e with
  | create path callbacks answer =>
    obtain ⟨-, behind, hcreate⟩ := h
    exact deviceCreateAt_grown hcreate
  | opened path mode answer =>
    rw [devfsOpen_devices h.2]
    exact grown_devfsWalk ..

/-- What a path leads to it leads to for the rest of the run. -/
theorem run_finds {es : List RegistryEvent} {driver : Driver} (h : (registryLTS K).Run s es t)
    (hf : (devfsFind mode path s.files.devices).1 = .ok driver) :
    (devfsFind mode path t.files.devices).1 = .ok driver := by
  induction h with
  | nil _ => exact hf
  | cons hst _ ih => exact ih (devfsFind_grown (step_grown hst) hf)

/-! ## Create, then open -/

/-- `mode` asks for no function that the device does not have. -/
def Allows (d : Driver) (mode : Nat) : Prop :=
  (mode &&& O_RDONLY ≠ 0 → d.read.isSome) ∧ (mode &&& O_WRONLY ≠ 0 → d.write.isSome)

theorem checkMode_allows {d : Driver} (h : Allows d mode) : checkMode mode d = .ok d := by
  unfold checkMode
  rw [if_neg, if_neg]
  · rintro ⟨hm, hnone⟩
    have := h.2 hm
    simp_all
  · rintro ⟨hm, hnone⟩
    have := h.1 hm
    simp_all

theorem create_finds {behind : Nat → List Nat} {callbacks : Callbacks} {list list' : List Device}
    {last last' : Nat} {d : Driver} (hnull : NoNull path) (ht : trailing path = false)
    (h : deviceCreateAt behind path callbacks list last = .ok (some d, list', last'))
    (hm : Allows d mode) : (devfsFind mode path list').1 = .ok d := by
  have hlen := deviceCreateAt_length hnull h
  have hne : components path ≠ [] := by
    intro hnil
    rw [deviceCreateAt_nil hnull hlen hnil] at h
    cases h
  rw [deviceCreateAt_eq hnull hlen hne, ht] at h
  rw [devfsFind_eq hne ht, createComponents_opens (words_of_components hnull) h, checkMode_allows hm]

/-! ## Requests for blocks -/

/-- A request, and what is asked for when it was served. -/
def asks (K : BlockHeap η) (n : Nat) (heap : η) (next : Nat → η → List (Nat × η)) :
    List (Nat × η) :=
  (n, heap) :: match K.allocate n heap with
    | none => []
    | some (a, heap) => next a heap

/-- The sizes that `devfs_open` asks for on its way down, each with the heap that it asks. -/
def lookupRequests (K : BlockHeap η) : Nat → List Nat → List Device → η → List (Nat × η)
  | 0, _, _, _ => []
  | rounds + 1, path, list, heap =>
    let dir := dirOf path
    let rest := restOf path
    if path = [] then []
    else if dir = [] then lookupRequests K rounds path.tail list heap
    else if 2 ≤ rest.length then
      asks K dir.length heap fun name heap =>
        match list.find? (·.name = dir) with
        | none => []
        | some dev =>
          if dev.children = [] then
            asks K DEVICE_SIZE heap fun _ heap => asks K 1 heap fun _ heap =>
              lookupRequests K rounds rest.tail dev.child (K.deallocate name heap)
          else lookupRequests K rounds rest.tail dev.child (K.deallocate name heap)
    else []

/-- All that a call of `devfs_open` asks for. -/
def openRequests (K : BlockHeap η) (path : List Nat) (mode : Nat) (s : FileState η) :
    List (Nat × η) :=
  let inside := if path.head? = some SLASH then path.tail else path
  lookupRequests K (path.length + 1) inside s.devices s.heap ++
    match devfsLookup K mode (path.length + 1) inside s.devices s.heap with
    | some (.ok _, _, heap) =>
      asks K NODE_SIZE heap fun _ heap => asks K path.length heap fun _ _ => []
    | _ => []

/-- Every one of the requests gets a block. -/
def AllServed (K : BlockHeap η) (requests : List (Nat × η)) : Prop :=
  ∀ r ∈ requests, (K.allocate r.1 r.2).isSome

theorem allServed_nil : AllServed K [] := fun _ hr => absurd hr List.not_mem_nil

section
variable {n a : Nat} {heap heap' : η} {next : Nat → η → List (Nat × η)}

theorem allServed_none (h : K.allocate n heap = none) : ¬AllServed K (asks K n heap next) := by
  intro hall
  have hfirst := hall (n, heap) (List.mem_cons_self ..)
  simp only [h] at hfirst
  cases hfirst

theorem allServed_some (h : K.allocate n heap = some (a, heap')) :
    AllServed K (asks K n heap next) ↔ AllServed K (next a heap') := by
  simp only [AllServed, asks, List.forall_mem_cons, h, Option.isSome_some, true_and]

end

theorem allServed_append {a b : List (Nat × η)} :
    AllServed K (a ++ b) ↔ AllServed K a ∧ AllServed K b := by
  simp only [AllServed, List.mem_append, or_imp, forall_and]

/-- The walk comes to its end exactly if it gets its blocks. -/
theorem devfsLookup_isSome (mode rounds : Nat) (path : List Nat) (list : List Device) (h : η) :
    (devfsLookup K mode rounds path list h).isSome ↔
      AllServed K (lookupRequests K rounds path list h) := by
  induction rounds generalizing path list h with
  | zero => exact iff_of_true rfl allServed_nil
  | succ rounds ih =>
    have hbelow (name : Nat) (h : η) (dev : Device) : ((devfsLookup K mode rounds
        (restOf path).tail dev.child (K.deallocate name h)).bind fun r =>
          some (r.1, setChildren (dirOf path) r.2.1 list, r.2.2)).isSome ↔
        AllServed K (lookupRequests K rounds (restOf path).tail dev.child
          (K.deallocate name h)) := by
      rw [← ih, Option.isSome_bind]
      simp
    rw [devfsLookup, lookupRequests]
    simp only
    split
    · exact iff_of_true rfl allServed_nil
    split
    · exact ih _ _ _
    split
    · cases hname : K.allocate (dirOf path).length h with
      | none => exact iff_of_false (by simp) (allServed_none hname)
      | some r =>
        obtain ⟨name, h₁⟩ := r
        rw [allServed_some hname]
        simp only [Option.bind_eq_bind, Option.bind_some]
        cases list.find? (·.name = dirOf path) with
        | none => exact iff_of_true rfl allServed_nil
        | some dev =>
          simp only
          split
          · cases hdev : K.allocate DEVICE_SIZE h₁ with
            | none =>
              refine iff_of_false ?_ (allServed_none hdev)
              simp [allocateDummyBlocks, hdev]
            | some r =>
              obtain ⟨a, h₂⟩ := r
              rw [allServed_some hdev]
              cases hone : K.allocate 1 h₂ with
              | none =>
                refine iff_of_false ?_ (allServed_none hone)
                simp [allocateDummyBlocks, hdev, hone]
              | some r =>
                obtain ⟨b, h₃⟩ := r
                rw [allServed_some hone, ← hbelow]
                simp [allocateDummyBlocks, hdev, hone]
          · exact hbelow name h₁ dev
    · split <;> exact iff_of_true rfl allServed_nil

/-- **`devfs_open` answers exactly if its requests are served.** -/
theorem devfsOpen_isSome (s : FileState η) : (devfsOpen K path mode s).isSome ↔
    AllServed K (openRequests K path mode s) := by
  rw [openRequests, allServed_append, ← devfsLookup_isSome mode, devfsOpen]
  cases devfsLookup K mode (path.length + 1)
    (if path.head? = some SLASH then path.tail else path) s.devices s.heap with
  | none => simp
  | some r =>
    obtain ⟨found, devices, heap⟩ := r
    simp only [Option.bind_eq_bind, Option.bind_some, Option.isSome_some, true_and]
    cases found with
    | error e => exact iff_of_true rfl allServed_nil
    | ok driver =>
      cases ha : K.allocate NODE_SIZE heap with
      | none => exact iff_of_false (by simp) (allServed_none ha)
      | some r =>
        obtain ⟨a, h₁⟩ := r
        rw [allServed_some ha]
        cases hp : K.allocate path.length h₁ with
        | none => exact iff_of_false (by simp [hp]) (allServed_none hp)
        | some r =>
          obtain ⟨p, h₂⟩ := r
          rw [allServed_some hp]
          exact iff_of_true (by simp [hp]) allServed_nil

/-- The node is one of the device at the end of the path. -/
theorem devfsOpen_finds {s v : FileState η} {d : Driver} {answer : Except Int Nat}
    (hfind : (devfsFind mode path s.devices).1 = .ok d)
    (hopen : devfsOpen K path mode s = some (answer, v)) :
    ∃ a node, answer = .ok a ∧ v.nodes a = some node ∧ node.object = .devfs d := by
  simp only [devfsOpen, Option.bind_eq_bind, Option.bind_eq_some_iff, Prod.exists] at hopen
  obtain ⟨found, devices, heap, hl, hopen⟩ := hopen
  rw [devfsFind, devfsLookup_walk hl] at hfind
  simp only at hfind
  subst hfind
  simp only [Option.bind_eq_some_iff, Prod.exists, Option.pure_def, Option.some.injEq,
    Prod.mk.injEq] at hopen
  obtain ⟨a, _, -, p, _, -, rfl, rfl⟩ := hopen
  exact ⟨a, _, rfl, Function.update_self .., rfl⟩

/-- **What was created is opened by its path.** When `device_create_at` answered with the
device `d` for a path without trailing delimiter, in whatever state of a run, then at any
later point `devfs_open` of that path, with a mode that asks for no function that `d`
lacks, makes a node of `d`; it answers whenever the requests that it makes are served. -/
theorem created_stays_open {callbacks : Callbacks} {d : Driver} {es : List RegistryEvent}
    (hnull : NoNull path) (htrail : trailing path = false)
    (hcreate : (registryLTS K).step s (.create path callbacks (some d)) t)
    (hrun : (registryLTS K).Run t es u) (hmode : Allows d mode) :
    (∀ answer v, devfsOpen K path mode u.files = some (answer, v) →
      ∃ a node, answer = .ok a ∧ v.nodes a = some node ∧ node.object = .devfs d) ∧
    ((devfsOpen K path mode u.files).isSome ↔
      AllServed K (openRequests K path mode u.files)) := by
  obtain ⟨-, behind, hcreate⟩ := hcreate
  have hfind := run_finds hrun (create_finds hnull htrail hcreate hmode)
  exact ⟨fun answer v hopen => devfsOpen_finds hfind hopen,
    devfsOpen_isSome u.files⟩

open GaOS.L2.TableManager in
/-- //b, then another device, then //b again, from the dummy's list. -/
theorem created_stays_open_b : ∃ (s t u : Registry (GoodHeap Nat)) (d : Driver)
    (v : FileState (GoodHeap Nat)) (a : Nat) (node : VfsNode),
    (registryLTS (kernelHeap smallSource smallTable.root)).Reachable s ∧
      (registryLTS (kernelHeap smallSource smallTable.root)).step s
        (.create [0x2F, 0x2F, 0x62] reserved (some d)) t ∧
      (registryLTS (kernelHeap smallSource smallTable.root)).step t
        (.create [0x63] reserved (some ⟨reserved, 2, true⟩)) u ∧
      devfsOpen (kernelHeap smallSource smallTable.root) [0x2F, 0x2F, 0x62] 0 u.files =
        some (.ok a, v) ∧ v.nodes a = some node ∧ node.object = .devfs d := by
  obtain ⟨h, hserve, -⟩ := smallHeap_serves
  obtain ⟨_, hserve⟩ := Option.isSome_iff_exists.mp hserve
  simp only [serve, Option.bind_eq_some_iff, Prod.exists] at hserve
  obtain ⟨a, h₁, ha, p, h₂, hp, -⟩ := hserve
  let b : Device := .mk [0x62] ⟨reserved, 1, true⟩ []
  let c : Device := .mk [0x63] ⟨reserved, 2, true⟩ []
  let s : Registry (GoodHeap Nat) := ⟨⟨fun _ => none, [allocateDummy], h⟩, 0⟩
  let t : Registry (GoodHeap Nat) := ⟨⟨fun _ => none, [allocateDummy, b], h⟩, 1⟩
  let u : Registry (GoodHeap Nat) := ⟨⟨fun _ => none, [allocateDummy, b, c], h⟩, 2⟩
  have hb : (registryLTS (kernelHeap smallSource smallTable.root)).step s
      (.create [0x2F, 0x2F, 0x62] reserved (some ⟨reserved, 1, true⟩)) t :=
    ⟨rfl, fun _ => [], rfl⟩
  have hc : (registryLTS (kernelHeap smallSource smallTable.root)).step t
      (.create [0x63] reserved (some ⟨reserved, 2, true⟩)) u := ⟨rfl, fun _ => [], rfl⟩
  have hopen : (devfsOpen (kernelHeap smallSource smallTable.root) [0x2F, 0x2F, 0x62] 0
      u.files).isSome := by
    simp [devfsOpen, devfsLookup, dirOf, restOf, SLASH, u, b, c, allocateDummy, Device.name, DOT,
      checkMode, Device.driver, NODE_SIZE, ha, hp]
  obtain ⟨⟨answer, v⟩, hopen⟩ := Option.isSome_iff_exists.mp hopen
  obtain ⟨a', node, rfl, hnode, hobject⟩ := (created_stays_open (by simp [NoNull]) rfl hb
    (.cons hc (.nil u)) (by simp [Allows])).1 answer v hopen
  exact ⟨s, t, u, _, v, a', node, .init ⟨rfl, rfl⟩, hb, hc, hopen, hnode, hobject⟩

end

end GaOS.L4.Files
