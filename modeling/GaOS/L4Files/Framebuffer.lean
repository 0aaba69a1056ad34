import GaOS.Core.Words

/-!
# The framebuffer device

Model of `framebuffer_read`, `framebuffer_write` and `framebuffer_initialise_node`
(kernel/src/devices/framebuffer/framebuffer.c:153-174). `devfs_read`, `devfs_write`,
`sys_read` and `sys_write` hand the size through as the caller gave it. What matters is
the part of video memory that a `memcpy` goes over (`Access`); the pixels are left out.
-/
namespace GaOS.L4.FbDevice

/-- `main_framebuffer`, mapped in the higher half by the boot loader. -/
structure Framebuffer where
  base : Nat
  pitch : Nat
  height : Nat
  pitch_pos : 1 ≤ pitch
  height_pos : 1 ≤ height
  higher_half : 2 ^ 63 ≤ base
  fits : base + pitch * height ≤ 2 ^ 64

def Framebuffer.bytes (fb : Framebuffer) : Nat := fb.pitch * fb.height

/-- The fields of a `vfs_fs_node_t` that the device uses. -/
structure Node where
  seekPosition : Nat
  maxSeekPosition : Nat
  deriving DecidableEq, Repr

inductive Op where
  | read (size : Nat)
  | write (size : Nat)
  deriving DecidableEq, Repr

def Op.size : Op → Nat
  | .read size => size
  | .write size => size

/-- The part of video memory that a `memcpy` goes over. -/
structure Access where
  start : Nat
  count : Nat
  deriving DecidableEq, Repr

/-- mirrors kernel/src/devices/framebuffer/framebuffer.c:153-159 -/
def framebufferRead (fb : Framebuffer) (node : Node) (size : Nat) : Access × Node :=
  (⟨add64 fb.base node.seekPosition, size⟩,
    { node with seekPosition := add64 node.seekPosition size })

/-- mirrors kernel/src/devices/framebuffer/framebuffer.c:161-168 -/
def framebufferWrite (fb : Framebuffer) (node : Node) (size : Nat) : Access × Node :=
  let node := if add64 node.seekPosition size > node.maxSeekPosition then
      { node with seekPosition := sub64 node.maxSeekPosition size } else node
  (⟨add64 fb.base node.seekPosition, size⟩,
    { node with seekPosition := add64 node.seekPosition size })

/-- A new node is cleared before.
mirrors kernel/src/devices/framebuffer/framebuffer.c:170-174 -/
def framebufferInitialiseNode (fb : Framebuffer) : Node :=
  ⟨0, sub64 (mul64 fb.pitch fb.height) 1⟩

def perform (fb : Framebuffer) (node : Node) : Op → Access × Node
  | .read size => framebufferRead fb node size
  | .write size => framebufferWrite fb node size

theorem Framebuffer.bytes_pos (fb : Framebuffer) : 1 ≤ fb.bytes :=
  Nat.mul_pos fb.pitch_pos fb.height_pos

theorem Framebuffer.bytes_le (fb : Framebuffer) : fb.bytes ≤ 2 ^ 63 := by
  have h1 := fb.higher_half
  have h2 := fb.fits
  change fb.base + fb.bytes ≤ 2 ^ 64 at h2
  omega

theorem initialise_max (fb : Framebuffer) :
    (framebufferInitialiseNode fb).maxSeekPosition = fb.bytes - 1 := by
  have h1 := fb.bytes_pos
  have h2 := fb.bytes_le
  have hmul : mul64 fb.pitch fb.height = fb.bytes := mul64_of_lt (by
    change fb.bytes < 2 ^ 64
    omega)
  change sub64 (mul64 fb.pitch fb.height) 1 = _
  rw [hmul]
  exact sub64_of_le h1 (by omega)

end GaOS.L4.FbDevice
