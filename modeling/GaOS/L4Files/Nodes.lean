import GaOS.L4Files.Devices
import GaOS.L4Files.Ustar

/-!
# Nodes of the file systems

Model of opening, closing, reading, seeking and duplicating nodes
(kernel/src/filesystem/vfs.c, ustar.c, kernel/src/devices/manager.c), with the nodes
as records under their addresses. The two file systems are the archive, which does
not change, and the tree of devices.

Nodes, their paths, the names that the walk through the devices copies and the dummies
it makes come from the block allocator. `BlockHeap` is what the file systems use of it.
`block_allocate` rounds sizes up to a multiple of 16 and clears that much, and the file
systems copy a path without its null. So a path whose length is a positive multiple of
16 is not terminated in its block, and reads on with what is behind it (`readPath`);
`NameHeap` has that string.

A panic of the allocator is `Stop.panic`, or `none` where nothing else can go wrong. An
access through a pointer that is no node, or past the end of the mapped memory, is
`Stop.wild`: nothing is known of what comes after it. The bytes that a read puts into a
buffer are left out.
-/
namespace GaOS.L4.Files

open GaOS.L4.Ustar

def EBADF : Int := 9

/-! ## The heap -/

/-- The block allocator, by the payloads of the blocks on its busy list. -/
structure BlockHeap (η : Type) where
  allocate : Nat → η → Option (Nat × η)
  deallocate : Nat → η → η
  Busy : η → Nat → Prop
  grant : ∀ n h a h', allocate n h = some (a, h') →
    a ≠ 0 ∧ ¬Busy h a ∧ ∀ x, Busy h' x ↔ x = a ∨ Busy h x
  returned : ∀ h a, Busy h a → ∀ x, Busy (deallocate a h) x ↔ x ≠ a ∧ Busy h x

/-- `behind` is the string in memory behind what a block was asked for, or nothing when
it has no end. Its first byte is in the block, which is the owner's, or is part of the
next header's signature, which does not change. -/
structure NameHeap (η : Type) extends BlockHeap η where
  behind : η → Nat → Option (List Nat)
  allocate_behind : ∀ n h a h' x, allocate n h = some (a, h') → Busy h x →
    (behind h' x = some [] ↔ behind h x = some [])
  deallocate_behind : ∀ h a x, x ≠ a → Busy h x →
    (behind (deallocate a h) x = some [] ↔ behind h x = some [])

/-! ## The state -/

inductive FileSystem where
  | ustar
  | devfs
  deriving DecidableEq, Repr

/-- `ustar_node_t.ustar_header` or `device_node_t.device` -/
inductive Object where
  | ustar (file : File)
  | devfs (driver : Driver)

/-- `vfs_fs_node_t` and what the file system has behind it; `pathBlock` is the pointer
`path`.
mirrors kernel/src/filesystem/vfs.h:25-37 -/
structure VfsNode where
  path : List Nat
  pathBlock : Nat
  mode : Nat
  seekPosition : Nat
  maxSeekPosition : Nat
  isDevice : Bool
  object : Object

def Object.fs : Object → FileSystem
  | .ustar _ => .ustar
  | .devfs _ => .devfs

/-- `node->fs` -/
def VfsNode.fs (node : VfsNode) : FileSystem := node.object.fs

/-- A header of the archive; `name` is the string after `./`. -/
structure Header where
  name : List Nat
  file : File

/-- What does not change after boot: the archive and the mount points. -/
structure Mounted where
  archive : List Header
  mounts : List (MountPoint FileSystem)

structure FileState (η : Type) where
  nodes : Nat → Option VfsNode
  devices : List Device
  heap : η

section
variable {η : Type} (B : Mounted) (H : BlockHeap η)

def FileState.set (s : FileState η) (a : Nat) (node : Option VfsNode) : FileState η :=
  { s with nodes := Function.update s.nodes a node }

/-! ## Opening -/

/-- `sizeof(ustar_node_t)` and `sizeof(device_node_t)` -/
def NODE_SIZE : Nat := 64

/-- `sizeof(device_t)` -/
def DEVICE_SIZE : Nat := 80

/-- The first header that has the path as a prefix.
mirrors kernel/src/filesystem/ustar.c:59-84 -/
def ustarOpenHeader (archive : List Header) (path : List Nat) : Option File :=
  (archive.find? fun header => path.isPrefixOf header.name).map Header.file

/-- A node for a path that is not found is never given back.
mirrors kernel/src/filesystem/ustar.c:86-109 -/
def ustarOpen (path : List Nat) (mode : Nat) (s : FileState η) :
    Option (Except Int Nat × FileState η) :=
  if mode &&& O_WRONLY ≠ 0 then some (.error (-EACCES), s)
  else do
    let (a, heap) ← H.allocate NODE_SIZE s.heap
    match ustarOpenHeader B.archive path with
    | none => return (.error (-ENOENT), { s with heap := heap })
    | some file => do
      let (p, heap) ← H.allocate path.length heap
      return (.ok a, { s with heap := heap }.set a
        (some ⟨path, p, mode, 0, file.size, false, .ustar file⟩))

/-- The blocks of a dummy.
mirrors kernel/src/devices/manager.c:43-61 -/
def allocateDummyBlocks (heap : η) : Option η := do
  let (_, heap) ← H.allocate DEVICE_SIZE heap
  let (_, heap) ← H.allocate 1 heap
  return heap

/-- The walk of `devfsWalk`, with what it does to the heap.
mirrors kernel/src/devices/manager.c:273-339 -/
def devfsLookup (mode : Nat) :
    Nat → List Nat → List Device → η → Option (Except Int Driver × List Device × η)
  | 0, _, list, heap => some (.error (-ENOENT), list, heap)
  | rounds + 1, path, list, heap =>
    let dir := dirOf path
    let rest := restOf path
    if path = [] then some (.error (-ENOENT), list, heap)
    else if dir = [] then devfsLookup mode rounds path.tail list heap
    else if 2 ≤ rest.length then do
      let (name, heap) ← H.allocate dir.length heap
      match list.find? (·.name = dir) with
      | none => return (.error (-ENOENT), list, H.deallocate name heap)
      | some dev => do
        let heap ← if dev.children = [] then allocateDummyBlocks H heap else some heap
        let (answer, children, heap) ←
          devfsLookup mode rounds rest.tail dev.child (H.deallocate name heap)
        return (answer, setChildren dir children list, heap)
    else
      match list.find? (·.name = dir) with
      | none => some (.error (-ENOENT), list, heap)
      | some dev => some (checkMode mode dev.driver, list, heap)

/-- mirrors kernel/src/devices/manager.c:263-367 -/
def devfsOpen (path : List Nat) (mode : Nat) (s : FileState η) :
    Option (Except Int Nat × FileState η) := do
  let (answer, devices, heap) ← devfsLookup H mode (path.length + 1)
    (if path.head? = some SLASH then path.tail else path) s.devices s.heap
  match answer with
  | .error e => return (.error e, { s with devices := devices, heap := heap })
  | .ok driver => do
    let (a, heap) ← H.allocate NODE_SIZE heap
    let (p, heap) ← H.allocate path.length heap
    return (.ok a, { s with devices := devices, heap := heap }.set a
      (some ⟨path, p, mode, 0, driver.initialiseNode.getD 0, true, .devfs driver⟩))

/-- `fs->open` -/
def openIn (fs : FileSystem) (path : List Nat) (mode : Nat) (s : FileState η) :
    Option (Except Int Nat × FileState η) :=
  match fs with
  | .ustar => ustarOpen B H path mode s
  | .devfs => devfsOpen H path mode s

/-- mirrors kernel/src/filesystem/vfs.c:44-86 -/
def vfsOpen (path : List Nat) (mode : Nat) (s : FileState η) :
    Option (Except Int Nat × FileState η) :=
  match vfsResolve B.mounts path with
  | .error e => some (.error e, s)
  | .ok (fs, rest) => openIn B H fs rest mode s

/-! ## Using nodes -/

/-- Both file systems close in the same way. A pointer that is no node is left alone.
mirrors kernel/src/filesystem/ustar.c:155-163 and kernel/src/devices/manager.c:369-377 -/
def vfsClose (a : Nat) (s : FileState η) : FileState η :=
  match s.nodes a with
  | none => s
  | some node =>
    let heap := if node.pathBlock ≠ 0 then H.deallocate node.pathBlock s.heap else s.heap
    { s.set a none with heap := H.deallocate a heap }

/-- A driver's answer, with the node moved. -/
def useDriver (a : Nat) (node : VfsNode) (size : Nat) (s : FileState η) :
    Option (Nat → Nat → Nat → Int × Nat) → Int × FileState η
  | none => (-EBADF, s)
  | some f =>
    let (answer, seek) := f node.seekPosition node.maxSeekPosition size
    (answer, s.set a (some { node with seekPosition := seek }))

/-- Where the kernel does not come back the state is the same.
mirrors kernel/src/filesystem/vfs.c:87-98, ustar.c:118-138 and
kernel/src/devices/manager.c:379-389 -/
def vfsRead (a size : Nat) (s : FileState η) : Int × FileState η :=
  match s.nodes a with
  | none => (0, s)
  | some node =>
    match node.object with
    | .ustar file =>
      match ustarRead ⟨file, node.seekPosition, node.maxSeekPosition⟩ size with
      | none => (0, s)
      | some (answer, _, moved) =>
        (answer, s.set a (some { node with seekPosition := moved.seekPosition }))
    | .devfs driver => useDriver a node size s driver.read

/-- The archive has no write callback.
mirrors kernel/src/filesystem/vfs.c:100-111 and kernel/src/devices/manager.c:391-401 -/
def vfsWrite (a size : Nat) (s : FileState η) : Int × FileState η :=
  match s.nodes a with
  | none => (0, s)
  | some node =>
    match node.object with
    | .ustar _ => (-EBADF, s)
    | .devfs driver => useDriver a node size s driver.write

/-- `node->fs->lseek(node, offset, whence)`; devices have none, and the call goes to
address zero.
mirrors kernel/src/filesystem/ustar.c:140-153 -/
def nodeLseek (a : Nat) (offset whence : Int) (s : FileState η) : Int × FileState η :=
  match s.nodes a with
  | none => (0, s)
  | some node =>
    match node.object with
    | .ustar file =>
      let (answer, moved) := ustarLseek ⟨file, node.seekPosition, node.maxSeekPosition⟩ offset whence
      (answer, s.set a (some { node with seekPosition := moved.seekPosition }))
    | .devfs _ => (0, s)

/-- `fs->lseek`, which `device_manager_init` leaves null.
mirrors kernel/src/filesystem/ustar.c:230-239 and kernel/src/devices/manager.c:411-421 -/
def FileSystem.lseek (η : Type) :
    FileSystem → Option (Nat → Int → Int → FileState η → Int × FileState η)
  | .ustar => some nodeLseek
  | .devfs => none

/-- `none` is the panic for a null pointer.
mirrors kernel/src/filesystem/vfs.c:116-128 -/
def vfsLseek (a : Nat) (offset whence : Int) (s : FileState η) : Option (Int × FileState η) :=
  match s.nodes a with
  | none => none
  | some node =>
    match node.fs.lseek η with
    | none => some (-EBADF, s)
    | some lseek => some (lseek a offset whence s)

/-- `node->fs->lseek(node, offset, whence)`; `none` is a call to address zero. -/
def callLseek (a : Nat) (offset whence : Int) (s : FileState η) : Option (Int × FileState η) := do
  let node ← s.nodes a
  let lseek ← node.fs.lseek η
  return lseek a offset whence s

/-- The seek position is copied to the new node, for a device the greatest one too.
mirrors kernel/src/filesystem/ustar.c:111-116 and kernel/src/devices/manager.c:403-409 -/
def copySeek (node new : VfsNode) : VfsNode :=
  match node.fs with
  | .ustar => { new with seekPosition := node.seekPosition }
  | .devfs =>
    { new with seekPosition := node.seekPosition, maxSeekPosition := node.maxSeekPosition }

end

/-! ## Duplicating -/

section
variable {η : Type} (B : Mounted) (H : NameHeap η)

/-- `node->path` as a string. -/
def readPath (s : FileState η) (node : VfsNode) : Option (List Nat) :=
  if node.path ≠ [] ∧ node.path.length % 16 = 0 then
    (H.behind s.heap node.pathBlock).map (node.path ++ ·)
  else some node.path

/-- `ustar_dup` and `devfs_dup` open the path again, and do not look whether that
worked.
mirrors kernel/src/filesystem/vfs.c:144-156 -/
def vfsDup (a : Nat) (s : FileState η) : Except Stop (Nat × FileState η) :=
  match s.nodes a with
  | none => .error .wild
  | some node =>
    match readPath H s node with
    | none => .error .wild
    | some path =>
      match openIn B H.toBlockHeap node.fs path node.mode s with
      | none => .error .panic
      | some (.error _, _) => .error .wild
      | some (.ok a', s) => .ok (a', s.set a' ((s.nodes a').map (copySeek node)))

end

end GaOS.L4.Files
