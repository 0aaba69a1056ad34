import GaOS.L1Memory.PageAllocator
import GaOS.L4Files.DeviceEnum

/-!
# Boot modules and the initial ramdisk

Model of `limine_create_device` and `limine_get_module` (kernel/src/boot/limine.c:54-105),
`vfs_basename` (kernel/src/filesystem/vfs.c:226-239) and the part of `ustar_init` that picks
the initial ramdisk (kernel/src/filesystem/ustar.c:192-225). A response without modules
stands for a missing response too: nothing is created in either case, and
`limine_get_module` is not called.

Each module becomes a device below /boot/modules. The paths of these devices are written into
one page, each over the one before, and `strcpy` copies no null (kernel/src/misc/libc.c:15-18).
Pages are handed out cleared, so the text of a page is what is before its zeros.

What is behind the names of devices is up to the heap, and may be something else at every call.
-/
namespace GaOS.L4.Devices

open GaOS.L4.Files
open GaOS.L4.Ustar (minInt minInt_eq)
open GaOS.L1.PageAllocator (PAGE)

/-- What the kernel uses of a `struct limine_file`. -/
structure LimineFile where
  path : List Nat
  address : Nat
  size : Nat
  deriving DecidableEq, Repr

/-! ## Devices for the modules -/

/-- "/boot/modules/" -/
def MODULES_ROOT : List Nat :=
  [0x2F, 0x62, 0x6F, 0x6F, 0x74, 0x2F, 0x6D, 0x6F, 0x64, 0x75, 0x6C, 0x65, 0x73, 0x2F]

/-- The text of a page after `strcpy(page + offset, src)`.
mirrors kernel/src/misc/libc.c:15-18 -/
def strcpyAt (offset : Nat) (src text : List Nat) : List Nat :=
  text.take offset ++ src ++ text.drop (offset + src.length)

/-- The loop over the modules, from the `i`-th call of `device_create_at` on. A text that
leaves no null in the page is read on behind the page.
mirrors kernel/src/boot/limine.c:100-105 -/
def createModules (behind : Nat → Nat → List Nat) : List LimineFile → Nat → List Nat →
    List Entry → Counts → Except Stop (List Entry × Counts)
  | [], _, _, list, n => .ok (list, n)
  | file :: files, i, text, list, n => do
    let text := strcpyAt 14 file.path text
    if PAGE ≤ text.length then .error .wild
    let (_, list, n) ← deviceCreateAt (behind i) text .module reserved list n
    createModules behind files (i + 1) text list n

/-- mirrors kernel/src/boot/limine.c:86-106 -/
def limineCreateDevice (behind : Nat → Nat → List Nat) (modules : List LimineFile)
    (list : List Entry) (n : Counts) : Except Stop (List Entry × Counts) := do
  let (_, list, n) ← deviceCreateAt (behind 0) MODULES_ROOT .reserved reserved list n
  let count := toInt32 modules.length
  createModules behind (modules.take count.toNat) 1 MODULES_ROOT list n

/-! ## The file of a path -/

/-- `fpath`: the path without the delimiters in front of it, if `path` has none.
mirrors kernel/src/boot/limine.c:62-68 -/
def filePath (path : List Nat) (file : LimineFile) : List Nat :=
  if path.head? = some SLASH then file.path else file.path.dropWhile (· = SLASH)

/-- mirrors kernel/src/boot/limine.c:54-77 -/
def limineGetModule (path : List Nat) (modules : List LimineFile) : Option LimineFile :=
  modules.find? fun file =>
    decide (strncmp (cstr (filePath path file)) (cstr path) path.length = 0)

/-- `base_offset`, counted down.
mirrors kernel/src/filesystem/vfs.c:230-233 -/
def baseOffset (path : List Nat) : Nat → Nat
  | 0 => 0
  | offset + 1 =>
    if cstr path (offset + 1) = SLASH then offset + 1 else baseOffset path offset

/-- What is copied to `basename`, a page with nothing in it.
mirrors kernel/src/filesystem/vfs.c:226-239 -/
def vfsBasename (path : List Nat) (maxLen : Nat) : Option (List Nat) :=
  let offset := baseOffset path path.length
  let offset := if cstr path offset = SLASH then offset + 1 else offset
  let count := minInt maxLen (path.length - offset : Nat)
  if count < 0 then none else some ((path.drop offset).take count.toNat)

/-! ## The choice of the initial ramdisk -/

/-- ".tar" -/
def TAR : List Nat := [0x2E, 0x74, 0x61, 0x72]

/-- The bytes of a buffer up to the null, from an offset on. -/
def readString (path : Nat → Nat) : Nat → Nat → List Nat
  | 0, _ => []
  | left + 1, offset =>
    if path offset = 0 then [] else path offset :: readString path left (offset + 1)

/-- `memcmp(path + strlen(path) - 4, ".tar", 4) == 0`. The paths of modules are longer. -/
def endsInTar (path : List Nat) : Bool := decide (path.drop (path.length - 4) = TAR)

/-- The loop over the devices of the modules: the path of one that is a tarball, or null.
mirrors kernel/src/filesystem/ustar.c:197-203 -/
def detect (behind : Nat → Nat → List Nat) (root : List Entry) :
    Nat → Nat → (Nat → Nat) → Option (Option (List Nat))
  | 0, _, _ => none
  | rounds + 1, i, path => do
    match ← deviceGetByType (behind i) root .module path PAGE i with
    | none => return none
    | some path =>
      let text := readString path PAGE 0
      if endsInTar text then return some text
      detect behind root rounds (i + 1) path

/-- How `ustar_init` ends. -/
inductive Initrd where
  | undetected
  | missing
  | uses (file : LimineFile)
  deriving DecidableEq, Repr

/-- Every round but the last finds another device, so their number bounds the rounds.
mirrors kernel/src/filesystem/ustar.c:192-225 -/
def ustarInit (behind : Nat → Nat → List Nat) (modules : List LimineFile) (root : List Entry) :
    Option Initrd := do
  match ← detect behind root ((records root).length + 1) 0 (fun _ => 0) with
  | none => return .undetected
  | some path =>
    let basename ← vfsBasename path PAGE
    match limineGetModule basename modules with
    | none => return .missing
    | some file => return .uses file

/-! ## Strings -/

variable {u c s path : List Nat}

theorem splitPath_append (u s : List Nat) :
    splitPath (u ++ SLASH :: s) = ((splitPath u).1, (splitPath u).2 ++ components s) := by
  induction u with
  | nil => simp [splitPath, components]
  | cons b u ih =>
    rw [List.cons_append, splitPath, splitPath, ih]
    by_cases hb : b = SLASH
    · by_cases hw : (splitPath u).1 = []
      · simp [hb, hw]
      · simp [hb, hw]
    · simp [hb]

theorem components_append (u s : List Nat) :
    components (u ++ SLASH :: s) = components u ++ components s := by
  unfold components
  rw [splitPath_append]
  by_cases hw : (splitPath u).1 = []
  · simp [hw, components]
  · simp [hw, components]

/-- A path with a delimiter in it, and none at its end. -/
theorem last_component (hs : SLASH ∈ path) (ht : trailing path = false) :
    ∃ u c, path = u ++ SLASH :: c ∧ Word c ∧ components path = components u ++ [c] := by
  induction path with
  | nil => cases hs
  | cons b path ih =>
    by_cases hin : SLASH ∈ path
    · have hne : path ≠ [] := List.ne_nil_of_mem hin
      obtain ⟨a, r, rfl⟩ := List.exists_cons_of_ne_nil hne
      rw [trailing_cons] at ht
      obtain ⟨u, c, he, hw, -⟩ := ih hin ht
      refine ⟨b :: u, c, by rw [he]; rfl, hw, ?_⟩
      rw [he, ← List.cons_append, components_append, components_last hw]
    · have hb : b = SLASH := by
        rcases List.mem_cons.mp hs with h | h
        · exact h.symm
        · exact absurd h hin
      have hne : path ≠ [] := by
        rintro rfl
        simp [trailing, hb] at ht
      refine ⟨[], path, by rw [hb]; rfl, ⟨hne, hin⟩, ?_⟩
      rw [hb, components_slash, components_last ⟨hne, hin⟩]
      rfl

theorem endsInTar_iff : endsInTar path = true ↔ TAR <:+ path := by
  rw [endsInTar, decide_eq_true_eq, List.suffix_iff_eq_drop, eq_comm]
  rfl

/-- The end of a path is the end of its last component. -/
theorem tar_suffix_iff : TAR <:+ u ++ SLASH :: c ↔ TAR <:+ c := by
  constructor
  · intro h
    have hslash : SLASH ∉ TAR := by simp [SLASH, TAR]
    rcases List.suffix_or_suffix_of_suffix h (List.suffix_append u (SLASH :: c)) with h | h
    · rcases List.suffix_cons_iff.mp h with h | h
      · exact absurd (by rw [h]; simp) hslash
      · exact h
    · exact absurd (h.subset (by simp)) hslash
  · intro h
    exact h.trans ((List.suffix_cons SLASH c).trans (List.suffix_append u _))

theorem strcpyAt_over {q : List Nat} (h : q.length ≤ s.length) :
    strcpyAt 14 s (MODULES_ROOT ++ q) = MODULES_ROOT ++ s := by
  have hlen : MODULES_ROOT.length = 14 := rfl
  unfold strcpyAt
  rw [List.take_append_of_le_length (by omega), List.take_of_length_le (by omega),
    List.drop_eq_nil_of_le (by rw [List.length_append]; omega), List.append_nil]

theorem readString_eq {buffer : Nat → Nat} (hs : NoNull s) {left offset : Nat}
    (hlen : s.length < left) (h : ∀ i, i ≤ s.length → buffer (offset + i) = cstr s i) :
    readString buffer left offset = s := by
  induction s generalizing left offset with
  | nil =>
    obtain ⟨left, rfl⟩ : ∃ k, left = k + 1 := ⟨left - 1, by simp at hlen; omega⟩
    have h0 : buffer offset = 0 := h 0 (Nat.le_refl _)
    simp [readString, h0]
  | cons b s ih =>
    obtain ⟨left, rfl⟩ : ∃ k, left = k + 1 := ⟨left - 1, by simp at hlen; omega⟩
    have h0 : buffer offset = b := h 0 (Nat.zero_le _)
    have hbytes : ∀ i, i ≤ s.length → buffer (offset + 1 + i) = cstr s i := by
      intro i hi
      rw [Nat.add_right_comm, Nat.add_assoc]
      exact h (i + 1) (Nat.succ_le_succ hi)
    have hrest := ih hs.tail (Nat.lt_of_succ_lt_succ hlen) hbytes
    simp [readString, h0, hs.head, hrest]

theorem cstr_delimiter (u c : List Nat) : cstr (u ++ SLASH :: c) u.length = SLASH := by
  rw [cstr, List.getD_append_right _ _ _ _ (Nat.le_refl _), Nat.sub_self]
  rfl

/-- The last delimiter is found, from the null on. -/
theorem baseOffset_eq (hc : SLASH ∉ c) (k : Nat) (hk : k ≤ c.length + 1) :
    baseOffset (u ++ SLASH :: c) (u.length + k) = u.length := by
  induction k with
  | zero =>
    rw [Nat.add_zero]
    cases hu : u.length with
    | zero => rfl
    | succ m => rw [baseOffset, ← hu, if_pos (cstr_delimiter u c)]
  | succ k ih =>
    have hbyte : cstr (u ++ SLASH :: c) (u.length + (k + 1)) ≠ SLASH := by
      rw [cstr, List.getD_append_right _ _ _ _ (Nat.le_add_right _ _), Nat.add_sub_cancel_left,
        List.getD_cons_succ]
      intro h
      by_cases hin : k < c.length
      · rw [List.getD_eq_getElem _ _ hin] at h
        exact hc (h ▸ List.getElem_mem hin)
      · rw [List.getD_eq_default _ _ (by omega)] at h
        cases h
    rw [← Nat.add_assoc, baseOffset, Nat.add_assoc, if_neg hbyte]
    exact ih (Nat.le_of_succ_le hk)

theorem baseOffset_last (u : List Nat) (hc : SLASH ∉ c) :
    baseOffset (u ++ SLASH :: c) (u ++ SLASH :: c).length = u.length := by
  rw [List.length_append]
  exact baseOffset_eq hc _ (Nat.le_refl _)

theorem drop_delimiter (u c : List Nat) : (u ++ SLASH :: c).drop (u.length + 1) = c := by
  rw [List.drop_append, List.drop_eq_nil_of_le (Nat.le_succ _)]
  simp

theorem vfsBasename_eq (hc : SLASH ∉ c) (hlen : c.length ≤ PAGE) :
    vfsBasename (u ++ SLASH :: c) PAGE = some c := by
  have hlength : (u ++ SLASH :: c).length = u.length + (c.length + 1) := by simp
  have hcount : minInt PAGE ((u ++ SLASH :: c).length - (u.length + 1) : Nat) = c.length := by
    rw [hlength, minInt_eq (by decide) (by simp only [PAGE] at hlen; omega)]
    simp only [PAGE] at hlen ⊢
    omega
  unfold vfsBasename
  rw [baseOffset_last u hc]
  simp only [cstr_delimiter, if_true, hcount, drop_delimiter]
  rw [if_neg (by omega), Int.toNat_natCast, List.take_length]

/-! ## The loops -/

/-- The search goes by the beginning of the path. -/
theorem limineGetModule_eq (modules : List LimineFile) (hc : NoNull c) (hs : c.head? ≠ some SLASH) :
    limineGetModule c modules =
      modules.find? fun file => c <+: file.path.dropWhile (· = SLASH) := by
  unfold limineGetModule
  congr 1
  funext file
  have hfile : filePath c file = file.path.dropWhile (· = SLASH) := if_neg hs
  have hiff : strncmp (cstr (file.path.dropWhile (· = SLASH))) (cstr c) c.length = 0 ↔
      c <+: file.path.dropWhile (· = SLASH) := by
    rw [strncmp_length_right hc, ← cstr_agree_iff hc]
    exact ⟨fun h i hi => (h i hi).symm, fun h i hi => (h i hi).symm⟩
  rw [hfile]
  exact decide_eq_decide.mpr hiff

variable {behind : Nat → Nat → List Nat}

/-- **The first device of a module whose path ends in .tar**, in the order of the tree. -/
theorem detect_eq {m : Manager} (hi : TreeInv m) (hread : ∀ i, ReadAsCreated (behind i) m.list)
    (hlong : ∀ p ∈ ofType .module m.list, (pathOf p.path).length + 1 ≤ PAGE) (rounds i : Nat)
    (hr : (ofType .module m.list).length - i < rounds) (path : Nat → Nat) :
    detect behind m.list rounds i path =
      some ((((ofType .module m.list).drop i).map fun p => pathOf p.path).find? endsInTar) := by
  induction rounds generalizing i path with
  | zero => omega
  | succ rounds ih =>
    rw [detect]
    cases h : (ofType .module m.list)[i]? with
    | none =>
      have hle := List.getElem?_eq_none_iff.mp h
      rw [deviceGetByType_null hle, List.drop_eq_nil_of_le hle]
      rfl
    | some p =>
      have hp := List.mem_of_getElem? h
      have hwords := (place_words hi hp (by decide)).2
      have hroom := hlong p hp
      have hcopied : AllCopied (PAGE - 1) p.path 0 :=
        allCopied_small hwords (by simp only [PAGE] at hroom ⊢; omega) (by decide)
      obtain ⟨path', hget, hreads⟩ := getByType_reads hi (hread i) h (by decide) (by decide) hroom
        hcopied path
      have htext : readString path' PAGE 0 = pathOf p.path :=
        readString_eq (noNull_pathOf hwords) (by omega) fun k hk => by
          rw [Nat.zero_add]
          exact hreads k hk
      obtain ⟨hlt, he⟩ := List.getElem?_eq_some_iff.mp h
      have hdrop : (ofType .module m.list).drop i = p :: (ofType .module m.list).drop (i + 1) := by
        rw [List.drop_eq_getElem_cons hlt, he]
      rw [hget, hdrop, List.map_cons, List.find?_cons]
      simp only [Option.bind_eq_bind, Option.bind_some, htext]
      split
      · rename_i htar
        simp [htar]
      · rename_i htar
        simp only [htar]
        exact ih (i + 1) (by omega) path'

end GaOS.L4.Devices
