import GaOS.L4Files.Archive
import GaOS.L4Files.Nodes

/-!
# What the operations on nodes do

Opening makes one node at an address that was free (`Opens`) and answers with it, or
makes none (`Quiet`). A node remembers how it was opened: as long as the tree of
devices only grows, opening its path again gives a node with the same object
(`Reopens`). So a duplicate is the same record but for the block of its path
(`vfsDup_spec`), provided that the path reads back.

The list of headers that `ustarOpen` searches is the archive in memory: the walk of
`ustar_open_header` finds the same file (`ustarOpenHeader_walk`).
-/
namespace GaOS.L4.Files

open GaOS.L4.Ustar

variable {η : Type} {B : Mounted} {H : NameHeap η} {s s' : FileState η} {a a' : Nat}
  {node : VfsNode}

/-! ## The archive -/

/-- The file behind the header at `a`. -/
def fileAt (mem : Nat → Nat) (hb : ∀ x, mem x < 256) (a : Nat) : File :=
  ⟨Archive.parseSizeOf mem a, fun i => mem (a + 512 + i), fun _ => hb _⟩

def archiveAt (mem : Nat → Nat) (hb : ∀ x, mem x < 256) (initrd : Nat) (es : List Archive.Entry) :
    List Header :=
  (Archive.headers (initrd + 512) es).map fun h => ⟨h.2.name, fileAt mem hb h.1⟩

/-- **The walk over the headers finds what the list of them has.** -/
theorem ustarOpenHeader_walk {mem : Nat → Nat} (hb : ∀ x, mem x < 256) {initrd rounds : Nat}
    {es : List Archive.Entry} {path : List Nat} (hw : Archive.WellFormed mem initrd es)
    (hp : NoNull path) (hr : es.length < rounds) :
    (Archive.ustarOpenHeader mem initrd rounds path).map
        (fun answer => answer.2.map (fileAt mem hb)) =
      some (ustarOpenHeader (archiveAt mem hb initrd es) path) := by
  rw [Archive.ustarOpenHeader_eq hw hp hr, ustarOpenHeader, archiveAt, List.find?_map,
    Option.map_some, Option.map_map, Option.map_map]
  rfl

/-! ## The heap -/

/-- Blocks in use stay in use, with their names. -/
structure HeapKept (H : NameHeap η) (h h' : η) : Prop where
  busy : ∀ x, H.Busy h x → H.Busy h' x
  behind : ∀ x, H.Busy h x → (H.behind h' x = some [] ↔ H.behind h x = some [])

theorem HeapKept.refl (h : η) : HeapKept H h h := ⟨fun _ hx => hx, fun _ _ => Iff.rfl⟩

theorem HeapKept.trans {h₁ h₂ h₃ : η} (h : HeapKept H h₁ h₂) (h' : HeapKept H h₂ h₃) :
    HeapKept H h₁ h₃ :=
  ⟨fun x hx => h'.busy x (h.busy x hx),
    fun x hx => (h'.behind x (h.busy x hx)).trans (h.behind x hx)⟩

theorem HeapKept.allocate {n : Nat} {h h' : η} (ha : H.allocate n h = some (a, h')) :
    HeapKept H h h' := by
  obtain ⟨-, -, hbusy⟩ := H.grant _ _ _ _ ha
  exact ⟨fun x hx => (hbusy x).mpr (.inr hx), fun x hx => H.allocate_behind _ _ _ _ x ha hx⟩

/-- A block that is taken and given back. -/
theorem HeapKept.giveBack {n : Nat} {h h₁ h₂ : η} (ha : H.allocate n h = some (a, h₁))
    (hk : HeapKept H h₁ h₂) : HeapKept H h (H.deallocate a h₂) := by
  obtain ⟨-, hnew, hbusy⟩ := H.grant _ _ _ _ ha
  have hback := H.returned h₂ a (hk.busy a ((hbusy a).mpr (.inl rfl)))
  have hall := (HeapKept.allocate ha).trans hk
  have hne : ∀ x, H.Busy h x → x ≠ a := fun x hx he => hnew (he ▸ hx)
  refine ⟨fun x hx => (hback x).mpr ⟨hne x hx, hall.busy x hx⟩, fun x hx => ?_⟩
  rw [H.deallocate_behind _ _ _ (hne x hx) (hall.busy x hx)]
  exact hall.behind x hx

theorem allocateDummyBlocks_kept {h h' : η}
    (hd : allocateDummyBlocks H.toBlockHeap h = some h') : HeapKept H h h' := by
  simp only [allocateDummyBlocks, Option.bind_eq_bind, Option.bind_eq_some_iff, Prod.exists,
    Option.pure_def, Option.some.injEq] at hd
  obtain ⟨_, h₁, ha₁, _, h₂, ha₂, rfl⟩ := hd
  exact (HeapKept.allocate ha₁).trans (HeapKept.allocate ha₂)

/-! ## The walk -/

/-- One level down, with the blocks. -/
theorem devfsLookup_deeper {K : BlockHeap η} {mode rounds : Nat} {path : List Nat}
    {list list' : List Device} {h h' : η} {answer : Except Int Driver} (hp : path ≠ [])
    (hd : dirOf path ≠ []) (hr : 2 ≤ (restOf path).length)
    (hl : devfsLookup K mode (rounds + 1) path list h = some (answer, list', h')) :
    ∃ name h₁, K.allocate (dirOf path).length h = some (name, h₁) ∧
      ((list.find? (·.name = dirOf path) = none ∧ answer = .error (-ENOENT) ∧ list' = list ∧
          h' = K.deallocate name h₁) ∨
        ∃ dev h₂ children, list.find? (·.name = dirOf path) = some dev ∧
          (if dev.children = [] then allocateDummyBlocks K h₁ else some h₁) = some h₂ ∧
          devfsLookup K mode rounds (restOf path).tail dev.child (K.deallocate name h₂) =
            some (answer, children, h') ∧
          list' = setChildren (dirOf path) children list) := by
  rw [devfsLookup] at hl
  simp only [if_neg hp, if_neg hd, if_pos hr, Option.bind_eq_bind, Option.bind_eq_some_iff,
    Prod.exists] at hl
  obtain ⟨name, h₁, ha, hl⟩ := hl
  refine ⟨name, h₁, ha, ?_⟩
  cases hf : list.find? (·.name = dirOf path) with
  | none =>
    simp only [hf, Option.pure_def, Option.some.injEq, Prod.mk.injEq] at hl
    exact .inl ⟨rfl, hl.1.symm, hl.2.1.symm, hl.2.2.symm⟩
  | some dev =>
    simp only [hf] at hl
    split at hl
    · rename_i hc
      simp only [Option.bind_eq_some_iff, Prod.exists, Option.pure_def, Option.some.injEq,
        Prod.mk.injEq] at hl
      obtain ⟨h₂, hdummy, answer', children, h₃, hrec, rfl, rfl, rfl⟩ := hl
      exact .inr ⟨dev, h₂, children, rfl, (if_pos hc).trans hdummy, hrec, rfl⟩
    · rename_i hc
      simp only [Option.bind_eq_some_iff, Option.some.injEq, exists_eq_left', Prod.exists,
        Option.pure_def, Prod.mk.injEq] at hl
      obtain ⟨answer', children, h₃, hrec, rfl, rfl, rfl⟩ := hl
      exact .inr ⟨dev, h₁, children, rfl, if_neg hc, hrec, rfl⟩

/-- At the end of the path the heap is not used. -/
theorem devfsLookup_last {K : BlockHeap η} {mode rounds : Nat} {path : List Nat}
    {list : List Device} {h : η} (hp : path ≠ []) (hd : dirOf path ≠ [])
    (hr : ¬2 ≤ (restOf path).length) :
    devfsLookup K mode (rounds + 1) path list h =
      some ((devfsWalk mode (rounds + 1) path list).1, list, h) := by
  rw [devfsLookup, devfsWalk]
  simp only [if_neg hp, if_neg hd, if_neg hr]
  cases list.find? (·.name = dirOf path) with
  | none => rfl
  | some dev => rfl

theorem devfsLookup_skip {K : BlockHeap η} {mode rounds : Nat} {path : List Nat}
    {list : List Device} {h : η} (hp : path ≠ []) (hd : dirOf path = []) :
    devfsLookup K mode (rounds + 1) path list h = devfsLookup K mode rounds path.tail list h := by
  rw [devfsLookup]
  simp only [if_neg hp, if_pos hd]

/-- The blocks do not matter to the answer and the tree. -/
theorem devfsLookup_walk {K : BlockHeap η} {mode rounds : Nat} {path : List Nat}
    {list list' : List Device} {h h' : η} {answer : Except Int Driver}
    (hl : devfsLookup K mode rounds path list h = some (answer, list', h')) :
    devfsWalk mode rounds path list = (answer, list') := by
  induction rounds generalizing path list list' h with
  | zero =>
    cases hl
    rfl
  | succ rounds ih =>
    by_cases hp : path = []
    · subst hp
      cases hl
      rfl
    by_cases hd : dirOf path = []
    · rw [devfsLookup_skip hp hd] at hl
      rw [devfsWalk]
      simp only [if_neg hp, if_pos hd]
      exact ih hl
    by_cases hr : 2 ≤ (restOf path).length
    · rw [devfsWalk]
      simp only [if_neg hp, if_neg hd]
      obtain ⟨name, h₁, -, hcase⟩ := devfsLookup_deeper hp hd hr hl
      rcases hcase with ⟨hf, rfl, rfl, -⟩ | ⟨dev, h₂, children, hf, -, hrec, rfl⟩
      · rw [hf]
      · rw [hf]
        simp only [if_pos hr, ih hrec]
    · rw [devfsLookup_last hp hd hr] at hl
      cases hl
      rw [devfsWalk]
      simp only [if_neg hp, if_neg hd]
      cases list.find? (·.name = dirOf path) with
      | none => rfl
      | some dev => simp only [if_neg hr]

theorem devfsLookup_kept {mode rounds : Nat} {path : List Nat} {list list' : List Device}
    {h h' : η} {answer : Except Int Driver}
    (hl : devfsLookup H.toBlockHeap mode rounds path list h = some (answer, list', h')) :
    HeapKept H h h' := by
  induction rounds generalizing path list list' h with
  | zero =>
    cases hl
    exact HeapKept.refl _
  | succ rounds ih =>
    by_cases hp : path = []
    · subst hp
      cases hl
      exact HeapKept.refl _
    by_cases hd : dirOf path = []
    · rw [devfsLookup_skip hp hd] at hl
      exact ih hl
    by_cases hr : 2 ≤ (restOf path).length
    · obtain ⟨name, h₁, ha, hcase⟩ := devfsLookup_deeper hp hd hr hl
      rcases hcase with ⟨-, -, -, rfl⟩ | ⟨dev, h₂, children, -, hdummy, hrec, -⟩
      · exact HeapKept.giveBack ha (HeapKept.refl _)
      · refine (HeapKept.giveBack ha ?_).trans (ih hrec)
        split at hdummy
        · exact allocateDummyBlocks_kept hdummy
        · cases hdummy
          exact HeapKept.refl _
    · rw [devfsLookup_last hp hd hr] at hl
      cases hl
      exact HeapKept.refl _

/-! ## Opening -/

/-- The rest of the file systems' state after an operation that makes no node. -/
structure Quiet (H : NameHeap η) (s s' : FileState η) : Prop where
  nodes : s'.nodes = s.nodes
  grown : Grown s.devices s'.devices
  heap : HeapKept H s.heap s'.heap

/-- One new node. -/
structure Opens (H : NameHeap η) (s s' : FileState η) (a : Nat) (node : VfsNode) : Prop where
  pos : a ≠ 0 ∧ node.pathBlock ≠ 0
  fresh : ¬H.Busy s.heap a ∧ ¬H.Busy s.heap node.pathBlock ∧ a ≠ node.pathBlock
  taken : H.Busy s'.heap a ∧ H.Busy s'.heap node.pathBlock
  nodes : s'.nodes = Function.update s.nodes a (some node)
  grown : Grown s.devices s'.devices
  heap : HeapKept H s.heap s'.heap

/-- Opening the node's path again gives its object. -/
def Reopens (B : Mounted) (devices : List Device) (node : VfsNode) : Prop :=
  match node.object with
  | .ustar file => node.mode &&& O_WRONLY = 0 ∧ ustarOpenHeader B.archive node.path = some file ∧
      node.maxSeekPosition = file.size ∧ node.isDevice = false
  | .devfs driver => (devfsFind node.mode node.path devices).1 = .ok driver ∧ node.isDevice = true

theorem Reopens.grown {devices devices' : List Device} (h : Reopens B devices node)
    (hg : Grown devices devices') : Reopens B devices' node := by
  unfold Reopens at *
  split
  · rename_i file ho
    rw [ho] at h
    exact h
  · rename_i driver ho
    rw [ho] at h
    exact ⟨devfsFind_grown hg h.1, h.2⟩

/-- Moving the seek position does not matter. -/
theorem Reopens.move {devices : List Device} (h : Reopens B devices node) (seek : Nat) :
    Reopens B devices { node with seekPosition := seek } := h

theorem Quiet.refl (s : FileState η) : Quiet H s s := ⟨rfl, Grown.refl _, HeapKept.refl _⟩

/-- The two blocks of a node. -/
theorem opens_allocate {heap h₁ h₂ : η} {devices : List Device} {p n k : Nat}
    (hk : HeapKept H s.heap heap) (hg : Grown s.devices devices)
    (ha : H.allocate n heap = some (a, h₁)) (hp : H.allocate k h₁ = some (p, h₂))
    (hn : node.pathBlock = p) :
    Opens H s ({ s with devices := devices, heap := h₂ }.set a (some node)) a node := by
  subst hn
  obtain ⟨h1, h2, h3⟩ := H.grant _ _ _ _ ha
  obtain ⟨h4, h5, h6⟩ := H.grant _ _ _ _ hp
  have hall := hk.trans ((HeapKept.allocate ha).trans (HeapKept.allocate hp))
  refine ⟨⟨h1, h4⟩, ⟨fun hb => h2 (hk.busy _ hb), fun hb => ?_, fun he => ?_⟩, ⟨?_, ?_⟩, rfl, hg, hall⟩
  · exact h5 ((h3 _).mpr (.inr (hk.busy _ hb)))
  · exact h5 ((h3 _).mpr (.inl he.symm))
  · exact (h6 a).mpr (.inr ((h3 a).mpr (.inl rfl)))
  · exact (h6 _).mpr (.inl rfl)

theorem ustarOpen_ok {path : List Nat} {mode : Nat}
    (h : ustarOpen B H.toBlockHeap path mode s = some (.ok a, s')) :
    ∃ file p, mode &&& O_WRONLY = 0 ∧ ustarOpenHeader B.archive path = some file ∧
      Opens H s s' a ⟨path, p, mode, 0, file.size, false, .ustar file⟩ := by
  unfold ustarOpen at h
  split at h
  · simp at h
  · rename_i hm
    simp only [Option.bind_eq_bind, Option.bind_eq_some_iff, Prod.exists] at h
    obtain ⟨a₁, heap, ha, h⟩ := h
    split at h
    · simp at h
    · rename_i file hf
      simp only [Option.bind_eq_some_iff, Prod.exists, Option.pure_def, Option.some.injEq,
        Prod.mk.injEq, Except.ok.injEq] at h
      obtain ⟨p, heap₂, hp, rfl, rfl⟩ := h
      exact ⟨file, p, not_not.mp hm, hf,
        opens_allocate (HeapKept.refl _) (Grown.refl _) ha hp rfl⟩

theorem devfsOpen_ok {path : List Nat} {mode : Nat}
    (h : devfsOpen H.toBlockHeap path mode s = some (.ok a, s')) :
    ∃ driver p, (devfsFind mode path s.devices).1 = .ok driver ∧
      Opens H s s' a ⟨path, p, mode, 0, driver.initialiseNode.getD 0, true, .devfs driver⟩ := by
  simp only [devfsOpen, Option.bind_eq_bind, Option.bind_eq_some_iff, Prod.exists] at h
  obtain ⟨answer, devices, heap, hl, h⟩ := h
  have hwalk := devfsLookup_walk hl
  have hg : Grown s.devices devices := by
    have hg := grown_devfsWalk mode (path.length + 1)
      (if path.head? = some SLASH then path.tail else path) s.devices
    rw [hwalk] at hg
    exact hg
  cases answer with
  | error e => simp at h
  | ok driver =>
    simp only [Option.bind_eq_some_iff, Prod.exists, Option.pure_def, Option.some.injEq,
      Prod.mk.injEq, Except.ok.injEq] at h
    obtain ⟨a₁, h₁, ha, p, h₂, hp, rfl, rfl⟩ := h
    refine ⟨driver, p, ?_, opens_allocate (devfsLookup_kept hl) hg ha hp rfl⟩
    rw [devfsFind, hwalk]

/-- A new node is at the beginning, and can be opened again. -/
theorem openIn_ok {fs : FileSystem} {path : List Nat} {mode : Nat}
    (h : openIn B H.toBlockHeap fs path mode s = some (.ok a, s')) :
    ∃ node, Opens H s s' a node ∧ Reopens B s'.devices node ∧ node.path = path ∧
      node.mode = mode ∧ node.fs = fs := by
  cases fs with
  | ustar =>
    obtain ⟨file, p, hm, hf, ho⟩ := ustarOpen_ok h
    exact ⟨_, ho, ⟨hm, hf, rfl, rfl⟩, rfl, rfl, rfl⟩
  | devfs =>
    obtain ⟨driver, p, hf, ho⟩ := devfsOpen_ok h
    exact ⟨_, ho, ⟨devfsFind_grown ho.grown hf, rfl⟩, rfl, rfl, rfl⟩

theorem openIn_error {fs : FileSystem} {path : List Nat} {mode : Nat} {e : Int}
    (h : openIn B H.toBlockHeap fs path mode s = some (.error e, s')) : Quiet H s s' := by
  cases fs with
  | ustar =>
    simp only [openIn, ustarOpen] at h
    split at h
    · simp only [Option.some.injEq, Prod.mk.injEq] at h
      rw [← h.2]
      exact Quiet.refl s
    · simp only [Option.bind_eq_bind, Option.bind_eq_some_iff, Prod.exists] at h
      obtain ⟨a₁, heap, ha, h⟩ := h
      split at h
      · simp only [Option.pure_def, Option.some.injEq, Prod.mk.injEq] at h
        rw [← h.2]
        exact ⟨rfl, Grown.refl _, HeapKept.allocate ha⟩
      · simp [Option.bind_eq_some_iff] at h
  | devfs =>
    simp only [openIn, devfsOpen, Option.bind_eq_bind, Option.bind_eq_some_iff, Prod.exists] at h
    obtain ⟨answer, devices, heap, hl, h⟩ := h
    cases answer with
    | error e =>
      simp only [Option.pure_def, Option.some.injEq, Prod.mk.injEq] at h
      rw [← h.2]
      have hg := grown_devfsWalk mode (path.length + 1)
        (if path.head? = some SLASH then path.tail else path) s.devices
      rw [devfsLookup_walk hl] at hg
      exact ⟨rfl, hg, devfsLookup_kept hl⟩
    | ok driver => simp [Option.bind_eq_some_iff] at h

/-- Opening through a mount point is opening in a file system. -/
theorem vfsOpen_cases {path : List Nat} {mode : Nat} {answer : Except Int Nat}
    (h : vfsOpen B H.toBlockHeap path mode s = some (answer, s')) :
    (∃ e, answer = .error e ∧ s' = s) ∨
      ∃ fs rest, openIn B H.toBlockHeap fs rest mode s = some (answer, s') := by
  unfold vfsOpen at h
  split at h
  · cases h
    exact .inl ⟨_, rfl, rfl⟩
  · exact .inr ⟨_, _, h⟩

/-! ## Duplicating -/

/-- `node->path` reads as the path that was stored. -/
def ReadsBack (H : NameHeap η) (s : FileState η) (node : VfsNode) : Prop :=
  node.path = [] ∨ node.path.length % 16 ≠ 0 ∨ H.behind s.heap node.pathBlock = some []

theorem readPath_eq_iff : readPath H s node = some node.path ↔ ReadsBack H s node := by
  unfold readPath ReadsBack
  split
  · rename_i h
    rw [Option.map_eq_some_iff]
    constructor
    · intro ⟨ext, he, happ⟩
      rw [List.append_right_eq_self.mp happ] at he
      exact .inr (.inr he)
    · intro hr
      rcases hr with hr | hr | hr
      · exact absurd hr h.1
      · exact absurd h.2 hr
      · exact ⟨[], hr, List.append_nil _⟩
  · rename_i h
    rw [not_and_or, not_not] at h
    exact ⟨fun _ => h.imp_right .inl, fun _ => rfl⟩

/-- The same record, but for the block of the path. -/
def SameNode (node node' : VfsNode) : Prop := node' = { node with pathBlock := node'.pathBlock }

/-- A node that can be opened again is. -/
theorem openIn_reopens (h : Reopens B s.devices node) {answer : Except Int Nat}
    (ho : openIn B H.toBlockHeap node.fs node.path node.mode s = some (answer, s')) :
    ∃ a node', answer = .ok a ∧ Opens H s s' a node' ∧ SameNode node (copySeek node node') := by
  obtain ⟨path, pathBlock, mode, seek, maxSeek, isDevice, object⟩ := node
  cases object with
  | ustar file =>
    obtain ⟨hm, hf, hmax, hdev⟩ := h
    simp only at hm hf hmax hdev
    subst hmax hdev
    have hok : ∃ a, answer = .ok a := by
      simp only [VfsNode.fs, Object.fs, openIn, ustarOpen, if_neg (not_not.mpr hm), hf,
        Option.bind_eq_bind, Option.bind_eq_some_iff, Prod.exists, Option.pure_def,
        Option.some.injEq, Prod.mk.injEq] at ho
      obtain ⟨a₁, _, -, _, _, -, ho, -⟩ := ho
      exact ⟨a₁, ho.symm⟩
    obtain ⟨a, rfl⟩ := hok
    obtain ⟨file', p, -, hf', hopens⟩ := ustarOpen_ok ho
    obtain rfl : file = file' := Option.some.inj (hf.symm.trans hf')
    exact ⟨a, _, rfl, hopens, rfl⟩
  | devfs driver =>
    obtain ⟨hf, hdev⟩ := h
    simp only at hf hdev
    subst hdev
    have hok : ∃ a, answer = .ok a := by
      simp only [VfsNode.fs, Object.fs, openIn, devfsOpen, Option.bind_eq_bind,
        Option.bind_eq_some_iff, Prod.exists] at ho
      obtain ⟨found, devices, heap, hl, ho⟩ := ho
      rw [devfsFind, devfsLookup_walk hl] at hf
      simp only at hf
      subst hf
      simp only [Option.bind_eq_some_iff, Prod.exists, Option.pure_def, Option.some.injEq,
        Prod.mk.injEq] at ho
      obtain ⟨a₁, _, -, _, _, -, ho, -⟩ := ho
      exact ⟨a₁, ho.symm⟩
    obtain ⟨a, rfl⟩ := hok
    obtain ⟨driver', p, hf', hopens⟩ := devfsOpen_ok ho
    obtain rfl : driver = driver' := Except.ok.inj (hf.symm.trans hf')
    exact ⟨a, _, rfl, hopens, rfl⟩

theorem copySeek_pathBlock (node node' : VfsNode) :
    (copySeek node node').pathBlock = node'.pathBlock ∧ (copySeek node node').path = node'.path := by
  unfold copySeek
  split <;> exact ⟨rfl, rfl⟩

theorem Opens.copySeek {node' : VfsNode} (h : Opens H s s' a node') :
    Opens H s (s'.set a ((s'.nodes a).map (copySeek node))) a (copySeek node node') := by
  have hp := (copySeek_pathBlock node node').1
  refine ⟨hp ▸ h.pos, hp ▸ h.fresh, hp ▸ h.taken, ?_, h.grown, h.heap⟩
  have hself : s'.nodes a = some node' := by rw [h.nodes, Function.update_self]
  rw [hself, FileState.set]
  simp only [h.nodes, Function.update_idem, Option.map_some]

/-- **A duplicate is the same record.** -/
theorem vfsDup_spec (hn : s.nodes a = some node) (hr : Reopens B s.devices node)
    (hb : ReadsBack H s node) : vfsDup B H a s = .error .panic ∨
      ∃ a' s' node', vfsDup B H a s = .ok (a', s') ∧ Opens H s s' a' node' ∧
        SameNode node node' := by
  have hp := readPath_eq_iff.mpr hb
  unfold vfsDup
  simp only [hn, hp]
  cases ho : openIn B H.toBlockHeap node.fs node.path node.mode s with
  | none => exact .inl rfl
  | some r =>
    obtain ⟨answer, s₁⟩ := r
    obtain ⟨a', node', rfl, hopens, hsame⟩ := openIn_reopens hr ho
    exact .inr ⟨a', _, _, rfl, hopens.copySeek, hsame⟩

/-- A path that does not read back is not the duplicate's. -/
theorem vfsDup_path (hn : s.nodes a = some node) (hb : ¬ReadsBack H s node)
    (h : vfsDup B H a s = .ok (a', s')) :
    ∃ node', Opens H s s' a' node' ∧ node'.path ≠ node.path := by
  unfold vfsDup at h
  simp only [hn] at h
  cases hp : readPath H s node with
  | none => rw [hp] at h; cases h
  | some path =>
    rw [hp] at h
    simp only at h
    have hne : path ≠ node.path := fun he => hb (readPath_eq_iff.mp (he ▸ hp))
    cases ho : openIn B H.toBlockHeap node.fs path node.mode s with
    | none => rw [ho] at h; cases h
    | some r =>
      obtain ⟨answer, s₁⟩ := r
      rw [ho] at h
      cases answer with
      | error e => cases h
      | ok a₁ =>
        simp only [Except.ok.injEq, Prod.mk.injEq] at h
        obtain ⟨rfl, rfl⟩ := h
        obtain ⟨node', hopens, -, hpath, -⟩ := openIn_ok ho
        refine ⟨_, hopens.copySeek, ?_⟩
        rw [(copySeek_pathBlock node node').2, hpath]
        exact hne

/-- What a duplicate is, in any case. -/
theorem vfsDup_ok (hn : s.nodes a = some node) (hr : Reopens B s.devices node)
    (h : vfsDup B H a s = .ok (a', s')) :
    ∃ node', Opens H s s' a' node' ∧ (ReadsBack H s node → SameNode node node') ∧
      (¬ReadsBack H s node → node'.path ≠ node.path) := by
  by_cases hb : ReadsBack H s node
  · rcases vfsDup_spec hn hr hb with hp | ⟨a₁, s₁, node', hok, hopens, hsame⟩
    · rw [hp] at h
      cases h
    · rw [hok] at h
      cases h
      exact ⟨node', hopens, fun _ => hsame, fun hnot => absurd hb hnot⟩
  · obtain ⟨node', hopens, hne⟩ := vfsDup_path hn hb h
    exact ⟨node', hopens, fun hyes => absurd hyes hb, fun _ => hne⟩

/-! ## Closing -/

/-- The two blocks of a node that is closed are free again. -/
theorem vfsClose_busy (hn : s.nodes a = some node)
    (hbusy : H.Busy s.heap a ∧ H.Busy s.heap node.pathBlock) (hp : node.pathBlock ≠ 0)
    (hne : a ≠ node.pathBlock) (x : Nat) :
    H.Busy (vfsClose H.toBlockHeap a s).heap x ↔ x ≠ a ∧ x ≠ node.pathBlock ∧ H.Busy s.heap x := by
  have hpath := H.returned s.heap node.pathBlock hbusy.2
  have ha := H.returned _ a ((hpath a).mpr ⟨hne, hbusy.1⟩) x
  simp only [vfsClose, hn, if_pos hp, ha, hpath]

/-! ## Using nodes -/

/-- At most the seek position of one node has moved. -/
def Moves (a : Nat) (s s' : FileState η) : Prop :=
  s' = s ∨ ∃ node seek, s.nodes a = some node ∧ s' = s.set a (some { node with seekPosition := seek })

theorem useDriver_moves {size : Nat} {f : Option (Nat → Nat → Nat → Int × Nat)}
    (hn : s.nodes a = some node) : Moves a s (useDriver a node size s f).2 := by
  cases f with
  | none => exact .inl rfl
  | some f => exact .inr ⟨node, _, hn, rfl⟩

theorem vfsRead_moves (a size : Nat) (s : FileState η) : Moves a s (vfsRead a size s).2 := by
  unfold vfsRead
  split
  · exact .inl rfl
  · rename_i node hn
    split
    · split
      · exact .inl rfl
      · exact .inr ⟨node, _, hn, rfl⟩
    · exact useDriver_moves hn

theorem vfsWrite_moves (a size : Nat) (s : FileState η) : Moves a s (vfsWrite a size s).2 := by
  unfold vfsWrite
  split
  · exact .inl rfl
  · rename_i node hn
    split
    · exact .inl rfl
    · exact useDriver_moves hn

theorem nodeLseek_moves (a : Nat) (offset whence : Int) (s : FileState η) :
    Moves a s (nodeLseek a offset whence s).2 := by
  unfold nodeLseek
  split
  · exact .inl rfl
  · rename_i node hn
    split
    · exact .inr ⟨node, _, hn, rfl⟩
    · exact .inl rfl

end GaOS.L4.Files
