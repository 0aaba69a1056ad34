import GaOS.Core.CString
import GaOS.Core.Words

/-!
# Walking the initial ramdisk

Model of `parse_size_of`, `ustar_open_header` and `ustar_debug_print`
(kernel/src/filesystem/ustar.c:44-84 and 165-188) on the bytes of the archive, by their
addresses. The first walk logs the headers whose name it compares, the second one the
lines that it prints. They have no bound of their own, so they take one: `none` is that
bound.

`Entries` is the format, as a writer of archives makes it: a header block, the file and
the padding, one after the other, and a block that starts with a null at the end. The
bytes of a file and of the padding are any bytes.
-/
namespace GaOS.L4.Archive

/-! ## The code -/

abbrev TAR_BLOCK_SIZE : Nat := 512

/-- Offset of `size` in `ustar_header_t`. -/
def SIZE : Nat := 124

/-- A `char` in an addition to a `size_t`. -/
def charToSize (c : Nat) : Nat := if c < 128 then c else c + (2 ^ 64 - 256)

/-- mirrors kernel/src/filesystem/ustar.c:48-54 -/
def sizeStep (mem : Nat → Nat) (header size i : Nat) : Nat :=
  let c := mem (header + SIZE + i)
  if c = 0 ∨ c = 0x20 then size
  else add64 (mul64 size 8) (sub64 (charToSize c) 0x30)

/-- mirrors kernel/src/filesystem/ustar.c:44-57 -/
def parseSizeOf (mem : Nat → Nat) (header : Nat) : Nat :=
  (List.range 12).foldl (sizeStep mem header) 0

/-- mirrors kernel/src/filesystem/ustar.c:71-74 -/
def realSize (size : Nat) : Nat :=
  let realSize := add64 size TAR_BLOCK_SIZE
  if realSize % TAR_BLOCK_SIZE ≠ 0 then add64 realSize (512 - realSize % TAR_BLOCK_SIZE)
  else realSize

/-- `header->name + 2` -/
def nameAt (mem : Nat → Nat) (header : Nat) : Nat → Nat := fun i => mem (header + 2 + i)

/-- The headers that were compared, and the answer.
mirrors kernel/src/filesystem/ustar.c:63-83 -/
def walkHeaders (mem : Nat → Nat) (path : List Nat) : Nat → Nat → Option (List Nat × Option Nat)
  | 0, _ => none
  | rounds + 1, header =>
    if mem header = 0 then some ([], none)
    else if strncmp (cstr path) (nameAt mem header) path.length = 0 then
      some ([header], some header)
    else (walkHeaders mem path rounds (add64 header (realSize (parseSizeOf mem header)))).map
      fun (log, answer) => (header :: log, answer)

/-- mirrors kernel/src/filesystem/ustar.c:59-84 -/
def ustarOpenHeader (mem : Nat → Nat) (initrd rounds : Nat) (path : List Nat) :
    Option (List Nat × Option Nat) :=
  walkHeaders mem path rounds (add64 initrd TAR_BLOCK_SIZE)

/-- The log: the header, its size and the size on disk.
mirrors kernel/src/filesystem/ustar.c:170-187 -/
def printHeaders (mem : Nat → Nat) : Nat → Nat → Option (List (Nat × Nat × Nat))
  | 0, _ => none
  | rounds + 1, header =>
    if mem header = 0 then some []
    else
      let size := parseSizeOf mem header
      (printHeaders mem rounds (add64 header (realSize size))).map
        fun log => (header, size, realSize size) :: log

/-- mirrors kernel/src/filesystem/ustar.c:165-188 -/
def ustarDebugPrint (mem : Nat → Nat) (initrd rounds : Nat) : Option (List (Nat × Nat × Nat)) :=
  printHeaders mem rounds (add64 initrd TAR_BLOCK_SIZE)

/-! ## The format -/

structure Entry where
  /-- after `./` -/
  name : List Nat
  contents : List Nat

/-- Bytes of an entry: the header, the contents, the padding. -/
def Entry.extent (e : Entry) : Nat := 512 + (e.contents.length + 511) / 512 * 512

/-- A header and its file at `a`. -/
structure EntryAt (mem : Nat → Nat) (a : Nat) (e : Entry) : Prop where
  dot : mem a = 0x2E
  slash : mem (a + 1) = 0x2F
  name : ∀ i, i ≤ e.name.length → mem (a + 2 + i) = cstr e.name i
  name_ne : e.name ≠ []
  name_null : NoNull e.name
  name_short : e.name.length < 98
  /-- eleven octal digits -/
  digit : ∀ i, i < 11 → mem (a + SIZE + i) = 0x30 + e.contents.length / 8 ^ (10 - i) % 8
  size_fits : e.contents.length < 8 ^ 11
  size_end : mem (a + SIZE + 11) = 0 ∨ mem (a + SIZE + 11) = 0x20
  file : ∀ i (h : i < e.contents.length), mem (a + 512 + i) = e.contents[i]

/-- The entries, one after the other, and the end. -/
def Entries (mem : Nat → Nat) : Nat → List Entry → Prop
  | a, [] => mem a = 0
  | a, e :: es => EntryAt mem a e ∧ Entries mem (a + e.extent) es

/-- Where the headers are. -/
def headers : Nat → List Entry → List (Nat × Entry)
  | _, [] => []
  | a, e :: es => (a, e) :: headers (a + e.extent) es

def extents (es : List Entry) : Nat := (es.map Entry.extent).sum

/-- An archive at `initrd`: the entry of the root directory, without contents, then
the others. -/
structure WellFormed (mem : Nat → Nat) (initrd : Nat) (es : List Entry) : Prop where
  root : mem initrd = 0x2E ∧ mem (initrd + 1) = 0x2F ∧ mem (initrd + 2) = 0
  root_size : ∀ i, i < 11 → mem (initrd + SIZE + i) = 0x30
  entries : Entries mem (initrd + 512) es
  /-- with its last block it is in the address space -/
  fits : initrd + 512 + extents es + 512 ≤ 2 ^ 64

/-! ## Sizes -/

variable {mem : Nat → Nat} {a : Nat} {e : Entry} {es : List Entry} {path : List Nat}

theorem sizeStep_digit (h : EntryAt mem a e) {i : Nat} (hi : i < 11) :
    sizeStep mem a (e.contents.length / 8 ^ (11 - i)) i = e.contents.length / 8 ^ (10 - i) := by
  have hlt := h.size_fits
  have hpow : 8 ^ (11 - i) = 8 ^ (10 - i) * 8 := by
    rw [← Nat.pow_succ]
    congr 1
    omega
  have hle : e.contents.length / 8 ^ (10 - i) < 2 ^ 33 :=
    Nat.lt_of_le_of_lt (Nat.div_le_self _ _) hlt
  unfold sizeStep
  rw [h.digit i hi, hpow, ← Nat.div_div_eq_div_mul]
  generalize e.contents.length / 8 ^ (10 - i) = n at hle
  simp only [charToSize, add64, mul64, sub64]
  split
  · omega
  · split <;> omega

/-- **The size of an entry is read right.** -/
theorem parseSizeOf_eq (h : EntryAt mem a e) : parseSizeOf mem a = e.contents.length := by
  have hdigits : ∀ i, i ≤ 11 → (List.range i).foldl (sizeStep mem a) 0 =
      e.contents.length / 8 ^ (11 - i) := by
    intro i
    induction i with
    | zero =>
      intro _
      exact (Nat.div_eq_of_lt h.size_fits).symm
    | succ i ih =>
      intro hi
      rw [List.range_succ, List.foldl_append, ih (by omega), List.foldl_cons, List.foldl_nil,
        sizeStep_digit h (by omega)]
      congr 2
      omega
  rw [parseSizeOf, List.range_succ, List.foldl_append, hdigits 11 (Nat.le_refl _)]
  simp [sizeStep, h.size_end]

/-- The rounding, which may wrap. -/
theorem realSize_wrap (size : Nat) :
    realSize size = ((size + 512) % 2 ^ 64 + 511) / 512 * 512 % 2 ^ 64 := by
  have hlt := add64_lt size TAR_BLOCK_SIZE
  change _ = (add64 size TAR_BLOCK_SIZE + 511) / 512 * 512 % 2 ^ 64
  unfold realSize
  generalize add64 size TAR_BLOCK_SIZE = n at hlt
  simp only [add64, TAR_BLOCK_SIZE]
  split <;> omega

theorem realSize_eq {size : Nat} (h : size < 2 ^ 33) :
    realSize size = 512 + (size + 511) / 512 * 512 := by
  rw [realSize_wrap]
  omega

/-! ## The walk -/

/-- The comparison looks whether the path is a prefix of the name. -/
theorem compare_iff (h : EntryAt mem a e) (hp : NoNull path) :
    strncmp (cstr path) (nameAt mem a) path.length = 0 ↔ path <+: e.name := by
  rw [strncmp_length_left hp, ← cstr_agree_iff hp]
  -- up to its null the name is in the header
  constructor
  · intro hs i
    induction i using Nat.strong_induction_on with
    | _ i ih =>
      intro hi
      have hle : i ≤ e.name.length := by
        by_contra hgt
        have hnull := ih e.name.length (by omega) (by omega)
        rw [cstr, cstr, List.getD_eq_default _ _ (Nat.le_refl _)] at hnull
        exact cstr_ne_zero hp (by omega) hnull
      rw [hs i hi, nameAt, h.name i hle]
  · intro hs i hi
    have hlt : i < e.name.length := by
      by_contra hge
      have hnull := hs i hi
      rw [cstr, cstr, List.getD_eq_default e.name _ (by omega)] at hnull
      exact cstr_ne_zero hp hi hnull
    rw [hs i hi, nameAt, h.name i (by omega)]

/-- The headers up to the first one that passes. -/
def upTo (p : Nat × Entry → Bool) : List (Nat × Entry) → List Nat
  | [] => []
  | h :: hs => if p h then [h.1] else h.1 :: upTo p hs

theorem walkHeaders_eq (hp : NoNull path) : ∀ {es : List Entry} {a rounds : Nat},
    Entries mem a es → a + extents es + 512 ≤ 2 ^ 64 → es.length < rounds →
    walkHeaders mem path rounds a = some (upTo (fun h => path.isPrefixOf h.2.name) (headers a es),
      ((headers a es).find? fun h => path.isPrefixOf h.2.name).map Prod.fst)
  | [], a, rounds + 1, hes, _, _ => by
    rw [walkHeaders, if_pos (show mem a = 0 from hes)]
    rfl
  | e :: es, a, rounds + 1, hes, hfit, hr => by
    obtain ⟨he, hes⟩ := hes
    have hext : e.extent + extents es = extents (e :: es) := by simp [extents]
    have hne : mem a ≠ 0 := by
      rw [he.dot]
      decide
    have hnext : add64 a (realSize (parseSizeOf mem a)) = a + e.extent := by
      have := he.size_fits
      rw [parseSizeOf_eq he, realSize_eq (by omega)]
      exact add64_of_lt (by unfold Entry.extent at hext; omega)
    rw [walkHeaders, if_neg hne, hnext, headers, upTo, List.find?_cons]
    by_cases hm : path <+: e.name
    · rw [if_pos ((compare_iff he hp).mpr hm)]
      simp [List.isPrefixOf_iff_prefix.mpr hm]
    · have hb : path.isPrefixOf e.name = false := by
        rw [← Bool.not_eq_true, List.isPrefixOf_iff_prefix]
        exact hm
      rw [if_neg fun hc => hm ((compare_iff he hp).mp hc),
        walkHeaders_eq hp hes (by omega) (by simpa using hr)]
      simp [hb]

theorem entries_headers : ∀ {es : List Entry} {a : Nat}, Entries mem a es →
    ∀ h ∈ headers a es, EntryAt mem h.1 h.2
  | [], _, _ => by simp [headers]
  | e :: es, a, hes => by
    intro h hh
    rcases List.mem_cons.mp hh with rfl | hh
    · exact hes.1
    · exact entries_headers hes.2 h hh

theorem upTo_found {p : Nat × Entry → Bool} {h : Nat × Entry} {before after : List (Nat × Entry)}
    (hp : p h = true) (hb : ∀ h ∈ before, p h = false) :
    upTo p (before ++ h :: after) = before.map Prod.fst ++ [h.1] := by
  induction before with
  | nil => simp [upTo, hp]
  | cons g before ih =>
    have hg := hb g (List.mem_cons_self ..)
    have hrest := ih fun h hh => hb h (List.mem_cons_of_mem _ hh)
    simp [upTo, hg, hrest]

theorem upTo_none {p : Nat × Entry → Bool} {hs : List (Nat × Entry)} (h : ∀ h ∈ hs, p h = false) :
    upTo p hs = hs.map Prod.fst := by
  induction hs with
  | nil => rfl
  | cons g hs ih =>
    have hg := h g (List.mem_cons_self ..)
    have hrest := ih fun h' hh => h h' (List.mem_cons_of_mem _ hh)
    simp [upTo, hg, hrest]

/-- What a walk should answer, and which headers it should compare. -/
structure Visits (hs : List (Nat × Entry)) (path : List Nat) (log : List Nat)
    (answer : Option Nat) : Prop where
  found : ∀ header, answer = some header → ∃ before e after,
    hs = before ++ (header, e) :: after ∧ path <+: e.name ∧
      (∀ h ∈ before, ¬path <+: h.2.name) ∧ log = before.map Prod.fst ++ [header]
  missing : answer = none → (∀ h ∈ hs, ¬path <+: h.2.name) ∧ log = hs.map Prod.fst

theorem visits_upTo (hs : List (Nat × Entry)) (path : List Nat) :
    Visits hs path (upTo (fun h => path.isPrefixOf h.2.name) hs)
      ((hs.find? fun h => path.isPrefixOf h.2.name).map Prod.fst) := by
  constructor
  · intro header h
    obtain ⟨⟨g, e⟩, hfind, rfl⟩ := Option.map_eq_some_iff.mp h
    obtain ⟨hp, before, after, rfl, hb⟩ := List.find?_eq_some_iff_append.mp hfind
    refine ⟨before, e, after, rfl, List.isPrefixOf_iff_prefix.mp hp, fun h hh hc => ?_,
      upTo_found hp fun h hh => by simpa using hb h hh⟩
    have := hb h hh
    simp [List.isPrefixOf_iff_prefix.mpr hc] at this
  · intro h
    have hnone := List.find?_eq_none.mp (Option.map_eq_none_iff.mp h)
    exact ⟨fun h hh hc => hnone h hh (List.isPrefixOf_iff_prefix.mpr hc),
      upTo_none fun h hh => Bool.eq_false_iff.mpr (hnone h hh)⟩

theorem ustarOpenHeader_eq {initrd rounds : Nat} (hw : WellFormed mem initrd es) (hp : NoNull path)
    (hr : es.length < rounds) :
    ustarOpenHeader mem initrd rounds path =
      some (upTo (fun h => path.isPrefixOf h.2.name) (headers (initrd + 512) es),
        ((headers (initrd + 512) es).find? fun h => path.isPrefixOf h.2.name).map Prod.fst) := by
  have hstart : add64 initrd TAR_BLOCK_SIZE = initrd + 512 := by
    have := hw.fits
    exact add64_of_lt (show initrd + 512 < 2 ^ 64 by omega)
  rw [ustarOpenHeader, hstart]
  exact walkHeaders_eq hp hw.entries hw.fits hr

/-- **The walk visits exactly the entries.** For every archive and every path: the size
of every entry is read right, and the walk ends, having compared the headers of the
entries in their order up to the first one whose name starts with the path, and answers
with that one, or with null if there is none. -/
theorem walk_visits_entries {initrd : Nat} (hw : WellFormed mem initrd es) (hp : NoNull path) :
    (∀ h ∈ headers (initrd + 512) es, parseSizeOf mem h.1 = h.2.contents.length) ∧
    ∃ log answer, (∀ rounds, es.length < rounds →
        ustarOpenHeader mem initrd rounds path = some (log, answer)) ∧
      Visits (headers (initrd + 512) es) path log answer :=
  ⟨fun h hh => parseSizeOf_eq (entries_headers hw.entries h hh), _, _,
    fun _ hr => ustarOpenHeader_eq hw hp hr, visits_upTo _ path⟩

/-! ## A small archive -/

/-- The root, and a file `a` with two bytes. -/
def smallArchive : Nat → Nat := fun x =>
  if x = 0 ∨ x = 512 then 0x2E
  else if x = 1 ∨ x = 513 then 0x2F
  else if 124 ≤ x ∧ x < 135 ∨ 636 ≤ x ∧ x < 646 then 0x30
  else if x = 514 then 0x61
  else if x = 646 then 0x32
  else if x = 1024 then 0x68
  else if x = 1025 then 0x69
  else 0

def smallEntry : Entry := ⟨[0x61], [0x68, 0x69]⟩

theorem smallArchive_wellFormed : WellFormed smallArchive 0 [smallEntry] where
  root := by simp [smallArchive]
  root_size := by decide
  entries := by
    refine ⟨⟨?_, ?_, ?_, ?_, ?_, ?_, ?_, ?_, ?_, ?_⟩, ?_⟩
    · simp [smallArchive]
    · simp [smallArchive]
    · decide
    · simp [smallEntry]
    · simp [NoNull, smallEntry]
    · simp [smallEntry]
    · decide
    · simp [smallEntry]
    · simp [smallArchive, SIZE]
    · decide
    · simp [Entries, smallArchive, smallEntry, Entry.extent]
  fits := by simp [extents, smallEntry, Entry.extent]

theorem walk_visits_small : WellFormed smallArchive 0 [smallEntry] ∧ ∃ log answer,
    (∀ rounds, 1 < rounds → ustarOpenHeader smallArchive 0 rounds [0x61] = some (log, answer)) ∧
      Visits [(512, smallEntry)] [0x61] log answer :=
  ⟨smallArchive_wellFormed,
    (walk_visits_entries smallArchive_wellFormed (show NoNull [0x61] by simp [NoNull])).2⟩

end GaOS.L4.Archive
