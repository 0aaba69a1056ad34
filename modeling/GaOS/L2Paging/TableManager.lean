import GaOS.L1Memory.PageSource

/-!
# The x86-64 page-table manager

Model of kernel/src/arch/x86_64/page_table_manager/table_manager.{c,h}. A table
layer is a page of 512 words in the machine's memory, at a kernel (direct map)
address; an entry is a word. Pages come from a `PageSource`; `none` stands for
the panic of `page_allocate`. `getNextLayer` returns 0 for `nullptr`.

`mapRange` is the code's loop, with the indices and the three cached layer
pointers in `Cursor`. Its fuel is the page count: every round maps at least one
page, and `mapRange_eq` (`GaOS.L2Paging.MapRange`) shows that it does not run
out. A layer index of 512, which the loop can reach at the top of the address
space, addresses the word after the layer, as in C.
-/
namespace GaOS.L2.TableManager

open GaOS.L1 GaOS.L1.PageAllocator

/-! ## Entries
mirrors kernel/src/arch/x86_64/page_table_manager/table_manager.h:7-16 -/

def TABLE_ENTRY_PRESENT : Nat := 1 <<< 0
def TABLE_ENTRY_READ_WRITE : Nat := 1 <<< 1
def TABLE_ENTRY_USER : Nat := 1 <<< 2
def TABLE_ENTRY_NO_EXECUTE : Nat := 1 <<< 63

/-- The bits of an entry that are not its address. -/
def FLAGS_MASK : Nat := 0xFFF0000000000FFF

/-- mirrors kernel/src/arch/x86_64/page_table_manager/table_manager.h:31-34 -/
def getAddress (entry : Nat) : Nat := entry &&& not64 FLAGS_MASK

/-- mirrors kernel/src/arch/x86_64/page_table_manager/table_manager.c:10-15 -/
def setAddress (entry address : Nat) : Nat := (entry &&& FLAGS_MASK) ||| address

def Present (entry : Nat) : Prop := entry &&& TABLE_ENTRY_PRESENT ≠ 0

instance (entry : Nat) : Decidable (Present entry) := inferInstanceAs (Decidable (_ ≠ _))

/-- `&layer->entries[index]`. -/
def entryAddress (layer index : Nat) : Nat := add64 layer (8 * index)

/-! ## Indices
mirrors kernel/src/arch/x86_64/page_table_manager/table_manager.c:110-115 -/

def pml3Index (virtualAddress : Nat) : Nat := (virtualAddress &&& (0x1FF <<< 39)) >>> 39
def pml2Index (virtualAddress : Nat) : Nat := (virtualAddress &&& (0x1FF <<< 30)) >>> 30
def pml1Index (virtualAddress : Nat) : Nat := (virtualAddress &&& (0x1FF <<< 21)) >>> 21
def pIndex (virtualAddress : Nat) : Nat := (virtualAddress &&& (0x1FF <<< 12)) >>> 12

section
variable {σ : Type} (P : PageSource σ)

/-- `*entry = value`. -/
def setEntry (m : Machine σ) (entry value : Nat) : Machine σ :=
  { m with mem := m.mem.store entry value }

/-! ## Layers -/

/-- mirrors kernel/src/arch/x86_64/page_table_manager/table_manager.h:36-47 -/
def getNextLayer (m : Machine σ) (layer index : Nat) : Nat :=
  let entry := entryAddress layer index
  if entry ≤ P.hhdm then 0
  else if ¬Present (m.mem entry) then 0
  else add64 (getAddress (m.mem entry)) P.hhdm

/-- mirrors kernel/src/arch/x86_64/page_table_manager/table_manager.c:17-35 -/
def allocateNextLayer (m : Machine σ) (layer index flags : Nat) : Option (Nat × Machine σ) :=
  let entry := entryAddress layer index
  let flags := flags &&& 0xFF
  if ¬Present (m.mem entry) then
    (m.pageAllocate P 1).map fun (newLayer, m) =>
      let newLayer := sub64 newLayer P.hhdm
      let m := setEntry m entry (m.mem entry ||| newLayer)
      let m := setEntry m entry (m.mem entry ||| (flags ||| TABLE_ENTRY_PRESENT))
      (add64 (getAddress (m.mem entry)) P.hhdm, m)
  else
    let m := setEntry m entry (m.mem entry ||| flags)
    some (add64 (getAddress (m.mem entry)) P.hhdm, m)

/-! ## Mapping one page -/

/-- The leaf update of `map` and of the inner loop of `map_range`.
mirrors kernel/src/arch/x86_64/page_table_manager/table_manager.c:122-124 -/
def setLeaf (m : Machine σ) (layer index physicalAddress flags : Nat) : Machine σ :=
  let entry := entryAddress layer index
  let m := setEntry m entry (m.mem entry ||| (flags ||| TABLE_ENTRY_PRESENT))
  setEntry m entry (setAddress (m.mem entry) physicalAddress)

/-- mirrors kernel/src/arch/x86_64/page_table_manager/table_manager.c:108-125 -/
def map (m : Machine σ) (table virtualAddress physicalAddress flags : Nat) :
    Option (Machine σ) := do
  let (pml3, m) ← allocateNextLayer P m table (pml3Index virtualAddress) flags
  let (pml2, m) ← allocateNextLayer P m pml3 (pml2Index virtualAddress) flags
  let (pml1, m) ← allocateNextLayer P m pml2 (pml1Index virtualAddress) flags
  return setLeaf m pml1 (pIndex virtualAddress) physicalAddress flags

/-! ## Mapping a range -/

/-- The locals that `map_range` carries from round to round. -/
structure Cursor where
  pml3Index : Nat
  pml2Index : Nat
  pml1Index : Nat
  pIndex : Nat
  pml3 : Nat
  pml2 : Nat
  pml1 : Nat
  physicalAddress : Nat
  count : Nat
  deriving DecidableEq, Repr

/-- The inner loop; the first number counts the entries left, `i` those done.
mirrors kernel/src/arch/x86_64/page_table_manager/table_manager.c:63-68 -/
def mapEntries (pml1 pIndex physicalAddress flags : Nat) : Nat → Nat → Machine σ → Machine σ
  | 0, _, m => m
  | left + 1, i, m =>
    mapEntries pml1 pIndex physicalAddress flags left (i + 1)
      (setLeaf m pml1 (pIndex + i) (add64 physicalAddress (mul64 i PAGE)) flags)

/-- Advance the indices and get the layers of the next 2 MiB.
mirrors kernel/src/arch/x86_64/page_table_manager/table_manager.c:75-104 -/
def advance (m : Machine σ) (table flags : Nat) (c : Cursor) : Option (Cursor × Machine σ) := do
  let c := { c with pIndex := 0, pml1Index := c.pml1Index + 1 }
  if 512 ≤ c.pml1Index then
    let c := { c with pml1Index := 0, pml2Index := c.pml2Index + 1 }
    if 512 ≤ c.pml2Index then
      let c := { c with pml2Index := 0, pml3Index := c.pml3Index + 1 }
      let (pml3, m) ← allocateNextLayer P m table c.pml3Index flags
      let (pml2, m) ← allocateNextLayer P m pml3 c.pml2Index flags
      let (pml1, m) ← allocateNextLayer P m pml2 c.pml1Index flags
      return ({ c with pml3 := pml3, pml2 := pml2, pml1 := pml1 }, m)
    else
      let (pml2, m) ← allocateNextLayer P m c.pml3 c.pml2Index flags
      let (pml1, m) ← allocateNextLayer P m pml2 c.pml1Index flags
      return ({ c with pml2 := pml2, pml1 := pml1 }, m)
  else
    let (pml1, m) ← allocateNextLayer P m c.pml2 c.pml1Index flags
    return ({ c with pml1 := pml1 }, m)

/-- `while (count > 0)`; the first argument is the fuel.
mirrors kernel/src/arch/x86_64/page_table_manager/table_manager.c:56-105 -/
def mapRangeLoop (table flags : Nat) : Nat → Cursor → Machine σ → Option (Machine σ)
  | fuel, c, m =>
    if c.count = 0 then some m
    else
      match fuel with
      | 0 => none
      | fuel + 1 => do
        let toMap := if c.count < 512 - c.pIndex then c.count else 512 - c.pIndex
        let m := mapEntries c.pml1 c.pIndex c.physicalAddress flags toMap 0 m
        let c := { c with
          physicalAddress := add64 c.physicalAddress (mul64 toMap PAGE)
          count := c.count - toMap }
        let (c, m) ← advance P m table flags c
        mapRangeLoop table flags fuel c m

/-- mirrors kernel/src/arch/x86_64/page_table_manager/table_manager.c:37-106 -/
def mapRange (m : Machine σ) (table virtualAddress physicalAddress flags count : Nat) :
    Option (Machine σ) := do
  let (pml3, m) ← allocateNextLayer P m table (pml3Index virtualAddress) flags
  let (pml2, m) ← allocateNextLayer P m pml3 (pml2Index virtualAddress) flags
  let (pml1, m) ← allocateNextLayer P m pml2 (pml1Index virtualAddress) flags
  mapRangeLoop P table flags count
    ⟨pml3Index virtualAddress, pml2Index virtualAddress, pml1Index virtualAddress,
      pIndex virtualAddress, pml3, pml2, pml1, physicalAddress, count⟩ m

/-! ## Lookup and creation -/

/-- mirrors kernel/src/arch/x86_64/page_table_manager/table_manager.c:127-154 -/
def translateToPhysical (m : Machine σ) (table virtualAddress : Nat) : Nat :=
  let pml3 := getNextLayer P m table (pml3Index virtualAddress)
  if pml3 = 0 then 0
  else
    let pml2 := getNextLayer P m pml3 (pml2Index virtualAddress)
    if pml2 = 0 then 0
    else
      let pml1 := getNextLayer P m pml2 (pml1Index virtualAddress)
      if pml1 = 0 then 0
      else
        let entry := entryAddress pml1 (pIndex virtualAddress)
        if Present (m.mem entry) then getAddress (m.mem entry) else 0

/-- mirrors kernel/src/arch/x86_64/page_table_manager/table_manager.c:156-159 -/
def archTableManagerNew (m : Machine σ) : Option (Nat × Machine σ) := m.pageAllocate P 1

end

end GaOS.L2.TableManager
