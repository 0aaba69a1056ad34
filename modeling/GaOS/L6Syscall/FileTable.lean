import GaOS.L2Paging.TableManager
import GaOS.L4Sched.RoundRobin

/-!
# The system calls on file descriptors

Model of `sys_open`, `sys_close`, `sys_read`, `sys_write` and `sys_lseek`
(kernel/src/syscalls). A task's table is an array of node pointers in pages of its
own: `fd_translation` points to it, `fd_max` is the number of its slots,
`fd_allocated_pages` its size and `fd_count` one more than the descriptors in
use. A null slot is free.

What is behind the nodes is the file systems' (`Vfs`): the calls hand them the
node and pass on the answer. `World` is the memory with the page allocator, and
the state `ρ` of the file systems. `Except.error` is an answer that the system
call gives by itself, `Except.ok` one that comes from the file system.

`sys_open` may read and write outside the table and may call `page_reallocate`;
`Access` logs both, each with the `fd_max` of the moment. Its search starts again
after every growth, so it takes a bound on the growths; `none` is that bound, or
the panic of `page_allocate`. Trace output is left out.
-/
namespace GaOS.L6.FileTable

open GaOS.L1 GaOS.L1.PageAllocator GaOS.L2.TableManager GaOS.L4.RoundRobin

/-! ## Error numbers
mirrors kernel/src/misc/libc.h:12-25 -/

def EPERM : Int := 1
def ENOENT : Int := 2
def EBADF : Int := 9
def ECHILD : Int := 10
def EACCES : Int := 13
def EFAULT : Int := 14

/-! ## The file systems -/

structure World (σ ρ : Type) where
  machine : Machine σ
  files : ρ

/-- What the system calls use of the VFS: `vfs_open(path, oflag)`, which answers
with a node or an error, `vfs_close(node)`, `vfs_read` and `vfs_write` of
`(node, buffer, size)`, and `node->fs->lseek(node, offset, whence)`. -/
structure Vfs (σ ρ : Type) where
  openNode : Nat → Nat → World σ ρ → Except Int Nat × World σ ρ
  close : Nat → World σ ρ → World σ ρ
  read : Nat → Nat → Nat → World σ ρ → Int × World σ ρ
  write : Nat → Nat → Nat → World σ ρ → Int × World σ ρ
  lseek : Nat → Int → Int → World σ ρ → Int × World σ ρ

section
variable {σ ρ : Type}

/-! ## Pointers from user space -/

/-- `IS_USER_MEMORY`: the one address is below the direct map and mapped.
mirrors kernel/src/syscalls/helpers.h:10-13 -/
def isUserMemory (P : PageSource σ) (m : Machine σ) (address : Nat) (task : Task) : Bool :=
  decide (address < P.hhdm) &&
    decide (translateToPhysical P m (add64 task.registers.cpu.cr3 P.hhdm) address ≠ 0)

/-! ## The table -/

/-- `&fd_translation[fd]` -/
def slotAddress (task : Task) (fd : Nat) : Nat := add64 task.fdTranslation (mul64 8 fd)

/-- `fd_translation[fd]` -/
def slot (mem : Mem) (task : Task) (fd : Nat) : Nat := mem (slotAddress task fd)

def setSlot (mem : Mem) (task : Task) (fd node : Nat) : Mem :=
  mem.store (slotAddress task fd) node

/-- The search for a free slot. The first argument is how many more indices pass
`fd <= fd_max`; with none left the loop ends, whatever the slot holds.
mirrors kernel/src/syscalls/sys_open.c:33-35 -/
def findSlot (slots : Nat → Nat) : Nat → Nat → Nat
  | 0, fd => fd
  | left + 1, fd => if slots fd ≠ 0 then findSlot slots left (fd + 1) else fd

/-- What `sys_open` does to memory; `max` is `fd_max` at that time. -/
inductive Access where
  | read (fd max : Nat)
  | write (fd max : Nat)
  /-- the call of `page_reallocate` and the address it returned -/
  | reallocate (base oldPages newPages newBase : Nat)
  deriving DecidableEq, Repr

/-- The loop condition reads the slot before it compares, so the slot the search
ends at is read too. -/
def searchLog (fd max : Nat) : List Access := (List.range (fd + 1)).map (.read · max)

/-- mirrors kernel/src/syscalls/sys_open.c:39-43 -/
def grow (P : PageStore σ) (w : World σ ρ) (caller : Task) :
    Option (Access × World σ ρ × Task) := do
  let oldPages := caller.fdAllocatedPages
  let newPages := add64 caller.fdAllocatedPages 1
  let (table, machine) ← w.machine.pageReallocate P caller.fdTranslation oldPages newPages
  return (.reallocate caller.fdTranslation oldPages newPages table, { w with machine := machine },
    { caller with
      fdTranslation := table
      fdAllocatedPages := add64 newPages 1
      fdMax := add64 caller.fdMax (PAGE / 8) })

/-- From `try_again` on, with at most as many rounds as the first argument.
mirrors kernel/src/syscalls/sys_open.c:32-50 -/
def placeNode (P : PageStore σ) (node : Nat) :
    Nat → World σ ρ → Task → Option (Nat × List Access × World σ ρ × Task)
  | 0, _, _ => none
  | rounds + 1, w, caller =>
    let fd := findSlot (slot w.machine.mem caller) (caller.fdMax + 1) 0
    if fd = caller.fdMax then do
      let (access, w, grown) ← grow P w caller
      let (fd', log, w, task) ← placeNode P node rounds w grown
      return (fd', searchLog fd caller.fdMax ++ access :: log, w, task)
    else
      let mem := setSlot w.machine.mem caller fd node
      some (fd, searchLog fd caller.fdMax ++ [.write fd caller.fdMax],
        { w with machine := { w.machine with mem := mem } },
        { caller with fdCount := add64 caller.fdCount 1 })

/-! ## The calls -/

/-- The answer, the descriptor or an error, and what was done to memory.
mirrors kernel/src/syscalls/sys_open.c:10-51 -/
def sysOpen (P : PageStore σ) (V : Vfs σ ρ) (rounds path oflag : Nat) (w : World σ ρ)
    (caller : Task) : Option (Except Int Nat × List Access × World σ ρ × Task) :=
  if ¬isUserMemory P.toPageSource w.machine path caller then some (.error (-EPERM), [], w, caller)
  else
    match V.openNode path oflag w with
    | (.error e, w) => some (.error e, [], w, caller)
    | (.ok node, w) => do
      let (fd, log, w, caller) ← placeNode P node rounds w caller
      return (.ok fd, log, w, caller)

/-- mirrors kernel/src/syscalls/sys_close.c:8-27 -/
def sysClose (V : Vfs σ ρ) (fd : Nat) (w : World σ ρ) (caller : Task) :
    Except Int (World σ ρ × Task) :=
  if caller.fdMax ≤ fd ∨ slot w.machine.mem caller fd = 0 then .error (-EBADF)
  else
    let w := V.close (slot w.machine.mem caller fd) w
    .ok ({ w with machine := { w.machine with mem := setSlot w.machine.mem caller fd 0 } },
      { caller with fdCount := sub64 caller.fdCount 1 })

/-- The check on a descriptor that the next three calls share.
mirrors kernel/src/syscalls/sys_read.c:20-33, sys_write.c:20-32 and sys_lseek.c:15-28 -/
def checkFd (mem : Mem) (caller : Task) (fd : Nat) : Except Int Nat :=
  if caller.fdCount ≤ fd then .error (-EBADF)
  else if slot mem caller fd = 0 then .error (-EBADF)
  else .ok (slot mem caller fd)

/-- mirrors kernel/src/syscalls/sys_read.c:8-39 -/
def sysRead (P : PageSource σ) (V : Vfs σ ρ) (fd buffer size : Nat) (w : World σ ρ)
    (caller : Task) : Except Int (Int × World σ ρ) :=
  if ¬isUserMemory P w.machine buffer caller then .error (-EPERM)
  else (checkFd w.machine.mem caller fd).map fun node => V.read node buffer size w

/-- mirrors kernel/src/syscalls/sys_write.c:8-38 -/
def sysWrite (P : PageSource σ) (V : Vfs σ ρ) (fd buffer size : Nat) (w : World σ ρ)
    (caller : Task) : Except Int (Int × World σ ρ) :=
  if ¬isUserMemory P w.machine buffer caller then .error (-EPERM)
  else (checkFd w.machine.mem caller fd).map fun node => V.write node buffer size w

/-- mirrors kernel/src/syscalls/sys_lseek.c:10-31 -/
def sysLseek (V : Vfs σ ρ) (fd : Nat) (offset whence : Int) (w : World σ ρ) (caller : Task) :
    Except Int (Int × World σ ρ) :=
  (checkFd w.machine.mem caller fd).map fun node => V.lseek node offset whence w

end

end GaOS.L6.FileTable
