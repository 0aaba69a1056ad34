import GaOS.Bugs.ForkFds

/-!
# Seeking in a device

`vfs_read`, `vfs_write` and `vfs_lseek` look whether the file system has the callback,
and answer `-EBADF` if it does not (kernel/src/filesystem/vfs.c:87-128). `sys_read` and
`sys_write` go through them. `sys_lseek` calls `node->fs->lseek` itself
(kernel/src/syscalls/sys_lseek.c:30), and `device_manager_init` sets no such callback
(kernel/src/devices/manager.c:411-421). So a seek in any device is a call to address
zero in the kernel.

`lseek_agrees_iff` is the exact condition: the descriptor is one of a file in the
archive. It needs nothing of how the state came about.

Counterexample: `sys_open("/dev/fb0", 0)` and a seek in the descriptor.

Fix: `return vfs_lseek(node, offset, whence);`
-/
namespace GaOS.Bugs.LseekCallback

open GaOS.L1 GaOS.L1.PageAllocator GaOS.L4.RoundRobin GaOS.L6.FileTable
open GaOS.L4.Files hiding EBADF
open GaOS.Bugs.ForkFds (SmallBlocks smallNames smallPages SmallProcess openFd openFd_reachable)

variable {σ η : Type} {w : World σ (FileState η)} {caller : Task} {fd a : Nat} {node : VfsNode}

/-! ## What should hold -/

/-- `vfs_lseek` from the point of view of the system call. -/
def viaVfs (a : Nat) (offset whence : Int) (w : World σ (FileState η)) :
    Option (Int × World σ (FileState η)) :=
  (vfsLseek a offset whence w.files).map fun (answer, files) => (answer, { w with files := files })

/-- The system call answers what `vfs_lseek` answers for the node, `-EBADF` if there is
no callback, and does not call address zero. -/
structure Agrees (fd a : Nat) (node : VfsNode) (offset whence : Int) (w : World σ (FileState η))
    (caller : Task) : Prop where
  same : sysLseekCall fd offset whence w caller = viaVfs a offset whence w
  absent : node.fs.lseek η = none → sysLseekCall fd offset whence w caller = some (-EBADF, w)
  called : sysLseekCall fd offset whence w caller ≠ none

/-! ## The condition -/

theorem lseek_isSome_iff (η : Type) (fs : FileSystem) : (fs.lseek η).isSome ↔ fs = .ustar := by
  cases fs <;> simp [FileSystem.lseek]

/-- The callback is all that the system call and `vfs_lseek` differ in. -/
theorem sysLseekCall_eq (hfd : checkFd w.machine.mem caller fd = .ok a)
    (hnode : w.files.nodes a = some node) (offset whence : Int) :
    sysLseekCall fd offset whence w caller =
      if (node.fs.lseek η).isSome then viaVfs a offset whence w else none := by
  unfold sysLseekCall viaVfs callLseek vfsLseek
  cases h : node.fs.lseek η with
  | none => simp [hfd, hnode, h]
  | some lseek => simp [hfd, hnode, h]

theorem viaVfs_ne_none (hnode : w.files.nodes a = some node) (offset whence : Int) :
    viaVfs a offset whence w ≠ none := by
  unfold viaVfs vfsLseek
  cases h : node.fs.lseek η with
  | none => simp [hnode, h]
  | some lseek => simp [hnode, h]

/-- **When the system call agrees with the VFS.** For every state of the kernel, every
descriptor for which the call finds a node, every offset and `whence`. -/
theorem lseek_agrees_iff (hfd : checkFd w.machine.mem caller fd = .ok a)
    (hnode : w.files.nodes a = some node) (offset whence : Int) :
    Agrees fd a node offset whence w caller ↔ node.fs = .ustar := by
  rw [← lseek_isSome_iff η]
  have heq := sysLseekCall_eq hfd hnode offset whence
  constructor
  · intro h
    by_contra habsent
    rw [if_neg habsent] at heq
    exact h.called heq
  · intro h
    rw [if_pos h] at heq
    refine ⟨heq, fun habsent => ?_, ?_⟩
    · rw [habsent] at h
      cases h
    · rw [heq]
      exact viaVfs_ne_none hnode offset whence

/-- Where it agrees, it is the step that the runs of the calls take. -/
theorem sysLseek_of_agrees (hfd : checkFd w.machine.mem caller fd = .ok a)
    (hnode : w.files.nodes a = some node) (hfs : node.fs = .ustar) (offset whence : Int)
    (B : Mounted) (H : NameHeap η) (text : Nat → World σ (FileState η) → List Nat) :
    (sysLseekCall fd offset whence w caller).map .ok =
      some (sysLseek (fileVfs B H text) fd offset whence w caller) := by
  have hseek := (lseek_isSome_iff η node.fs).mpr hfs
  rw [sysLseekCall_eq hfd hnode offset whence, if_pos hseek]
  simp only [viaVfs, vfsLseek, sysLseek, fileVfs, hfd, hnode, hfs, FileSystem.lseek]
  rfl

/-! ## A framebuffer and a file

The small kernel of `ForkFds`, and one with the device fb0 where the string at any pointer
of the caller is /dev/fb0. -/

/-- A descriptor of the process has a node of the file system. -/
def Found (s : SmallProcess) (fd a : Nat) (fs : FileSystem) : Prop :=
  ∃ node, checkFd s.world.machine.mem s.caller fd = .ok a ∧
    s.world.files.nodes a = some node ∧ node.fs = fs

/-- What `Found` asks for. -/
def look (s : SmallProcess) (fd a : Nat) : Option Nat × Option FileSystem :=
  ((checkFd s.world.machine.mem s.caller fd).toOption, (s.world.files.nodes a).map VfsNode.fs)

theorem found_of_look {s : SmallProcess} {fd a : Nat} {fs : FileSystem}
    (h : look s fd a = (some a, some fs)) : Found s fd a fs := by
  obtain ⟨hfd, hnode⟩ := Prod.mk.inj h
  obtain ⟨node, hnode, hfs⟩ := Option.map_eq_some_iff.mp hnode
  refine ⟨node, ?_, hnode, hfs⟩
  cases hc : checkFd s.world.machine.mem s.caller fd with
  | error e => rw [hc] at hfd; cases hfd
  | ok b =>
    rw [hc] at hfd
    cases hfd
    rfl

theorem iniOpen_look : ForkFds.oneOpen.map (look · 0 1) = some (some 1, some .ustar) := by
  decide +kernel

/-- A seek in /ini. -/
theorem ini_agrees :
    ∃ s node, (nodesLTS smallPages ForkFds.smallFiles smallNames ForkFds.ini).Reachable s ∧
    checkFd s.world.machine.mem s.caller 0 = .ok 1 ∧ Agrees 0 1 node 2 0 s.world s.caller := by
  obtain ⟨s, hs, hlook⟩ := Option.map_eq_some_iff.mp iniOpen_look
  obtain ⟨node, hfd, hnode, hfs⟩ := found_of_look hlook
  exact ⟨s, node, ForkFds.oneOpen_reachable hs, hfd, (lseek_agrees_iff hfd hnode 2 0).mpr hfs⟩

def fb0 : Device :=
  .mk [0x66, 0x62, 0x30] ⟨⟨some fun q _ _ => (0, q), some fun q _ _ => (0, q), some 4096⟩, 1, true⟩ []

def fbMounts : Mounted where
  archive := []
  mounts := [⟨[SLASH, 0x64, 0x65, 0x76], .devfs⟩, ⟨[SLASH], .ustar⟩]

def devFb0 : Nat → World Nat (FileState SmallBlocks) → List Nat :=
  fun _ _ => [SLASH, 0x64, 0x65, 0x76, SLASH, 0x66, 0x62, 0x30]

def fbProcess : Option SmallProcess :=
  ((⟨smallMem, 0⟩ : Machine Nat).pageAllocate smallPages.toPageSource 1).map fun (fds, machine) =>
    ⟨⟨machine, ⟨fun _ => none, [allocateDummy, fb0], ⟨0, []⟩⟩⟩,
      newTask "init" 1 0 fds (fun _ => 0), ⟨fds, 1⟩, []⟩

/-- /dev/fb0 is opened. -/
def fbOpen : Option SmallProcess :=
  fbProcess.bind (openFd smallPages fbMounts smallNames devFb0 smallPath)

theorem fbOpen_reachable {s : SmallProcess} (h : fbOpen = some s) :
    (nodesLTS smallPages fbMounts smallNames devFb0).Reachable s := by
  obtain ⟨s₀, h₀, h⟩ := Option.bind_eq_some_iff.mp h
  refine openFd_reachable ?_ h
  obtain ⟨⟨fds, machine⟩, hp, ht⟩ := Option.map_eq_some_iff.mp h₀
  subst ht
  exact .init ⟨_, "init", 1, 0, fds, fun _ => 0, hp, ⟨rfl, rfl, rfl, rfl⟩, rfl, rfl⟩

theorem fbOpen_look : fbOpen.map (look · 0 1) = some (some 1, some .devfs) := by
  decide +kernel

/-- **Counterexample**: a seek in /dev/fb0, where `vfs_lseek` answers `-EBADF`, calls
address zero. -/
theorem device_seek_calls_null :
    ∃ s node, (nodesLTS smallPages fbMounts smallNames devFb0).Reachable s ∧
      checkFd s.world.machine.mem s.caller 0 = .ok 1 ∧ s.world.files.nodes 1 = some node ∧
      viaVfs 1 0 0 s.world = some (-EBADF, s.world) ∧
      sysLseekCall 0 0 0 s.world s.caller = none ∧ ¬Agrees 0 1 node 0 0 s.world s.caller := by
  obtain ⟨s, hs, hlook⟩ := Option.map_eq_some_iff.mp fbOpen_look
  obtain ⟨node, hfd, hnode, hfs⟩ := found_of_look hlook
  have habsent : node.fs.lseek SmallBlocks = none := by rw [hfs]; rfl
  have hcall : sysLseekCall 0 0 0 s.world s.caller = none := by
    rw [sysLseekCall_eq hfd hnode, habsent]
    rfl
  refine ⟨s, node, fbOpen_reachable hs, hfd, hnode, ?_, hcall, fun h => h.called hcall⟩
  simp only [viaVfs, vfsLseek, hnode, habsent]
  rfl

end GaOS.Bugs.LseekCallback
