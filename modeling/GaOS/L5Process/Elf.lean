import GaOS.L4Files.Ustar
import GaOS.L4Sched.Creation
import GaOS.L5Process.Fork

/-!
# Loading an executable

Model of `elf_load_from` (kernel/src/executables/elf.c) for a file of the initial
ramdisk. The structures that are read from the file are buffers on the stack: a
read that fails or falls short leaves what was in them, for the first one whatever
was on the stack (`stack`), for a program header the one before.

`none` is a panic of `page_allocate`, a `memcpy` that does not end, or an overflow
of a signed number. The loop over the pages of a segment counts them:
`i <= memsize` with steps of a page is `memsize / PAGE + 1` rounds (for the last
page of the address space `i` would wrap, but there is no memory for that many).
Log lines, `vfs_close` and the fields of the new task that the scheduler does not
use are left out.
-/
namespace GaOS.L5.Elf

open GaOS.L1 GaOS.L1.PageAllocator GaOS.L2.TableManager GaOS.L4.RoundRobin GaOS.L4.Ustar
open GaOS.L5.Fork (copyHigherHalf)

/-! ## The format
mirrors kernel/src/executables/elfabi.h -/

def ELFMAG : List Nat := [0x7F, 0x45, 0x4C, 0x46]
def ELFDATA2MSB : Nat := 2
def ET_EXEC : Nat := 2
def EM_X86_64 : Nat := 62
def PT_LOAD : Nat := 1

/-- Bytes of a structure on the stack. -/
abbrev Buffer := Nat → Nat

/-- The little-endian number of `n` bytes at `offset`. -/
def Buffer.field (buffer : Buffer) (offset : Nat) : Nat → Nat
  | 0 => 0
  | n + 1 => buffer offset + 256 * Buffer.field buffer (offset + 1) n

/-- `Elf64_Ehdr` -/
structure Ehdr where
  magic : List Nat
  dataEncoding : Nat
  type : Nat
  machine : Nat
  entry : Nat
  phoff : Nat
  phnum : Nat
  deriving DecidableEq, Repr

/-- `Elf64_Phdr` -/
structure Phdr where
  type : Nat
  offset : Nat
  vaddr : Nat
  filesz : Nat
  memsz : Nat
  deriving DecidableEq, Repr

def Buffer.ehdr (buffer : Buffer) : Ehdr where
  magic := [buffer 0, buffer 1, buffer 2, buffer 3]
  dataEncoding := buffer 4
  type := buffer.field 16 2
  machine := buffer.field 18 2
  entry := buffer.field 24 8
  phoff := buffer.field 32 8
  phnum := buffer.field 56 2

def Buffer.phdr (buffer : Buffer) : Phdr where
  type := buffer.field 0 4
  offset := buffer.field 8 8
  vaddr := buffer.field 16 8
  filesz := buffer.field 32 8
  memsz := buffer.field 40 8

/-- mirrors kernel/src/executables/elf.c:20-43 -/
def Ehdr.Accepted (header : Ehdr) : Prop :=
  header.magic = ELFMAG ∧ header.dataEncoding = ELFDATA2MSB ∧ header.type = ET_EXEC ∧
    header.machine = EM_X86_64

instance (header : Ehdr) : Decidable header.Accepted := inferInstanceAs (Decidable (_ ∧ _))

/-- A read into a buffer of `size` bytes. -/
def readBuffer (node : Node) (offset size : Nat) (buffer : Buffer) : Option Buffer :=
  (readAt node offset size).map fun copy k =>
    if k < copy.count then node.file.image (copy.position + k) else buffer k

/-- mirrors kernel/src/executables/elf.c:50-51 and 72-73 -/
def readPhdr (node : Node) (phoff i : Nat) (buffer : Buffer) : Option Buffer :=
  readBuffer node (add64 phoff (mul64 56 i)) 56 buffer

/-- The smallest address of a segment.
mirrors kernel/src/executables/elf.c:46-58 -/
def findBase (node : Node) (phoff phnum : Nat) (buffer : Buffer) : Option (Buffer × Nat) :=
  forUpto (fun i (buffer, baseAddress) => do
    let buffer ← readPhdr node phoff i buffer
    if buffer.phdr.type ≠ PT_LOAD then return (buffer, baseAddress)
    else return (buffer, if buffer.phdr.vaddr < baseAddress then buffer.phdr.vaddr else baseAddress))
    phnum (buffer, 2 ^ 64 - 1)

/-- The bytes that are asked for in the page at offset `i` of a segment; `some none`
when none are.
mirrors kernel/src/executables/elf.c:85-91 -/
def loadSize (filesz i : Nat) : Option (Option Nat) :=
  -- `(long long)filesz - (long long)i`
  let size := toInt64 filesz - toInt64 i
  if size < -2 ^ 63 then none
  else if size < -(PAGE : Nat) then some none
  else (absInt size).map fun size => some (minInt size PAGE).toNat

section
variable {σ : Type} (P : PageSource σ)

/-- One round of the loop over a segment's pages.
mirrors kernel/src/executables/elf.c:81-94 -/
def loadPage (node : Node) (table : Nat) (header : Phdr) (i : Nat) (m : Machine σ) :
    Option (Machine σ) := do
  let (page, m) ← m.pageAllocate P 1
  let m ← map P m table (add64 header.vaddr i) (sub64 page P.hhdm)
    (TABLE_ENTRY_USER ||| TABLE_ENTRY_READ_WRITE)
  match ← loadSize header.filesz i with
  | none => return m
  | some size =>
    let copy ← readAt node (add64 header.offset i) size
    return { m with mem := m.mem.writeBytes page copy.count fun k =>
      node.file.image (copy.position + k) }

/-- mirrors kernel/src/executables/elf.c:78-95 -/
def loadSegment (node : Node) (table : Nat) (header : Phdr) : Machine σ → Option (Machine σ) :=
  forUpto (fun n => loadPage P node table header (n * PAGE)) (header.memsz / PAGE + 1)

/-- mirrors kernel/src/executables/elf.c:70-96 -/
def loadSegments (node : Node) (phoff phnum table : Nat) :
    Buffer × Machine σ → Option (Buffer × Machine σ) :=
  forUpto (fun i (buffer, m) => do
    let buffer ← readPhdr node phoff i buffer
    if buffer.phdr.type ≠ PT_LOAD then return (buffer, m)
    else
      let m ← loadSegment P node table buffer.phdr m
      return (buffer, m)) phnum

/-- A new address space with the program and a stack: its table, the lowest address
of the stack and the machine.
mirrors kernel/src/executables/elf.c:45-100 -/
def loadImage (node : Node) (header : Ehdr) (bootstrap : Nat) (buffer : Buffer) (m : Machine σ) :
    Option (Nat × Nat × Machine σ) := do
  let (buffer, baseAddress) ← findBase node header.phoff header.phnum buffer
  let (table, m) ← archTableManagerNew P m
  let m := copyHigherHalf table bootstrap 0x100 m
  let (_, m) ← loadSegments P node header.phoff header.phnum table (buffer, m)
  let stackBase := sub64 baseAddress PAGE
  let (stack, m) ← m.pageAllocate P 1
  let m ← map P m table stackBase (sub64 stack P.hhdm)
    (TABLE_ENTRY_USER ||| TABLE_ENTRY_READ_WRITE ||| TABLE_ENTRY_NO_EXECUTE)
  return (table, stackBase, m)

/-- The new task, or nothing when the file is refused. `stack` is what was on the
stack in place of the two structures.
mirrors kernel/src/executables/elf.c:11-131 -/
def elfLoadFrom (own bootstrap : Nat) (path : String) (node : Node) (stack : Buffer × Buffer)
    (simd : SimdState) (mem : Mem) (s : Scheduler σ) :
    Option (Option Nat × Mem × Scheduler σ) := do
  let buffer ← readBuffer node 0 64 stack.1
  if ¬buffer.ehdr.Accepted then return (none, mem, s)
  else
    let (table, stackBase, m) ← loadImage P node buffer.ehdr bootstrap stack.2 ⟨mem, s.src⟩
    let (_, task, s) ← elfTask P own path table buffer.ehdr.entry stackBase simd
      { s with src := m.src }
    return (some task, m.mem, s)

end

end GaOS.L5.Elf
