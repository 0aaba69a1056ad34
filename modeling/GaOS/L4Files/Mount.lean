import GaOS.Core.CString

/-!
# Mount points

Model of `vfs_mount_fs` and of the search in `vfs_open` (kernel/src/filesystem/vfs.c:14-86).
Mount points are kept in the order of their mounting; the head of the list that
`vfs_init` makes is never looked at, and is left out. A path is a C string: its bytes up
to the null.
-/
namespace GaOS.L4.Files

def ENOENT : Int := 2

def SLASH : Nat := 0x2F

/-- The kernel does not go on as written: it panics, or it goes through a pointer that
is none. -/
inductive Stop where
  | panic
  | wild
  deriving DecidableEq, Repr

structure MountPoint (φ : Type) where
  name : List Nat
  fs : φ
  deriving DecidableEq, Repr

section
variable {φ : Type}

/-- mirrors kernel/src/filesystem/vfs.c:14-42 -/
def vfsMountFs (name : List Nat) (fs : φ) (mounts : List (MountPoint φ)) : List (MountPoint φ) :=
  mounts ++ [⟨name, fs⟩]

/-- mirrors kernel/src/filesystem/vfs.c:68-72 -/
def mountMatches (path : List Nat) (mount : MountPoint φ) : Bool :=
  decide (mount.name.length ≤ path.length) &&
    decide (strncmp (cstr path) (cstr mount.name) mount.name.length = 0)

/-- The file system that is asked to open, and the path it is given.
mirrors kernel/src/filesystem/vfs.c:56-85 -/
def vfsResolve (mounts : List (MountPoint φ)) (path : List Nat) : Except Int (φ × List Nat) :=
  if path.head? ≠ some SLASH then .error (-ENOENT)
  else
    match mounts.find? (mountMatches path) with
    | none => .error (-ENOENT)
    | some mount => .ok (mount.fs, path.drop mount.name.length)

/-- The search looks whether the name is a prefix of the path. -/
theorem mountMatches_iff {path : List Nat} {mount : MountPoint φ} (h : NoNull mount.name) :
    mountMatches path mount = true ↔ mount.name <+: path := by
  have hcmp : strncmp (cstr path) (cstr mount.name) mount.name.length = 0 ↔ mount.name <+: path := by
    rw [strncmp_length_right h, ← cstr_agree_iff h]
    exact ⟨fun hs i hi => (hs i hi).symm, fun hs i hi => (hs i hi).symm⟩
  unfold mountMatches
  rw [Bool.and_eq_true, decide_eq_true_eq, decide_eq_true_eq, hcmp]
  exact ⟨fun h => h.2, fun h => ⟨h.length_le, h⟩⟩

end

end GaOS.L4.Files
