import GaOS.L4Files.BootModules
import GaOS.L4Files.GrownPaths

/-!
# The first tarball among the boot modules

`ustar_init` is to "get first module that is a tarball" (kernel/src/filesystem/ustar.c:196):
the file of the first boot module whose path ends in .tar. It looks for it by way of the
devices that `limine_create_device` makes of the modules, and there is a slip at nearly every
step of that way:

- The paths of the devices are written into one page, and `strcpy` copies no null
  (kernel/src/misc/libc.c:15-18), so behind a shorter path stands the end of a longer one
  (kernel/src/boot/limine.c:103).
- A device is taken for there already when its name is a prefix of a sibling's name
  (kernel/src/devices/manager.c:206-212). A module is refused then, and a directory is
  walked into through a null pointer.
- A name whose length is a multiple of 16 has no null behind it.
- A delimiter at the end of a path is dropped, and the name before it may end in .tar.
- The devices are taken in the order of the tree, where a later module in a directory that
  was made early comes first.
- The file is looked up by the basename of the device (ustar.c:216), so one in a directory is
  not found, and by a prefix of its path (kernel/src/boot/limine.c:70), so an earlier file
  may be found in its place.

`first_tar_used` is the condition: on an `Orderly` list, where none of these comes up, the
first tarball is used, and no ramdisk is reported exactly where there is no tarball.

Counterexample: /kernel.elf and /a.tar (`leftover_name`).

Fix: copy the null, compare whole names, and take the file with the path that was found.
-/
namespace GaOS.Bugs.InitrdChoice

open GaOS.L4.Files
open GaOS.L4.Devices
open GaOS.L1.PageAllocator (PAGE)

/-- "boot" -/
def BOOT : List Nat := [0x62, 0x6F, 0x6F, 0x74]

/-- "modules" -/
def MODULES : List Nat := [0x6D, 0x6F, 0x64, 0x75, 0x6C, 0x65, 0x73]

/-- The path without the delimiters in front of it. -/
def stripped (path : List Nat) : List Nat := path.dropWhile (· = SLASH)

/-- The tree before the devices of the modules are made: names have a null behind them,
there are no modules yet, and nothing at the top is taken for /boot. -/
structure Ready (m : Manager) : Prop where
  reachable : managerLTS.Reachable m
  ends : ∀ dev ∈ records m.list, dev.nameEnds = true
  noModules : ∀ dev ∈ records m.list, dev.type ≠ .module
  noBoot : ∀ e ∈ m.list, ¬BOOT <+: e.record.name

/-- The modules become devices, and then `ustar_init` uses the first file whose path ends in
.tar, or reports that there is none; whatever the heap has behind the names. -/
def UsesFirstTar (modules : List LimineFile) (m : Manager) : Prop :=
  ∀ behind, ∃ list n, limineCreateDevice behind modules m.list m.n = .ok (list, n) ∧
    ∀ behind, ustarInit behind modules list =
      some (match modules.find? (TAR <:+ ·.path) with
        | some file => .uses file
        | none => .undetected)

/-- The first tarball `p` is no file in a directory, no path before it starts with its name,
and no tarball after it is in a directory that stands before it in the tree. -/
structure First (before : List (List Nat)) (p : List Nat) (after : List (List Nat)) : Prop where
  top : SLASH ∉ stripped p
  alone : ∀ q ∈ before, ¬stripped p <+: stripped q
  ahead : ∀ q ∈ after, TAR <:+ q → ∀ c d cs, components q = c :: d :: cs →
    c ≠ [DOT] ∧ ¬Heads (before.map components) c

/-- The paths fit in the page and get no shorter, so that each is written as a whole. None
ends in a delimiter, no name has a length that is a multiple of 16, a name that is a prefix of
a sibling's name is there already, and the first tarball is the first one of the tree. -/
structure Orderly (ms : List (List Nat)) : Prop where
  count : ms.length < 2 ^ 31
  room : ∀ p ∈ ms, MODULES_ROOT.length + p.length < PAGE
  longer : ms.Pairwise fun p q => p.length ≤ q.length
  noTrailing : ∀ p ∈ ms, trailing p = false
  ends : ∀ p ∈ ms, ∀ c ∈ components p, c.length % 16 ≠ 0
  clear : ∀ before p after, ms = before ++ p :: after →
    Clear (before.map components) (components p)
  first : ∀ before p after, ms = before ++ p :: after → TAR <:+ p →
    (∀ q ∈ before, ¬TAR <:+ q) → First before p after

/-! ## Tarballs -/

/-- The last component ends in .tar. -/
def TarPath (p : List (List Nat)) : Prop := ∃ c, p.getLast? = some c ∧ TAR <:+ c

variable {p q : List Nat} {before after done : List (List Nat)}

theorem tarPath_components (ha : p.head? = some SLASH) (ht : trailing p = false) :
    TarPath (components p) ↔ TAR <:+ p := by
  obtain ⟨u, c, rfl, hw, hc⟩ := last_component (List.mem_of_head? ha) ht
  rw [hc, tar_suffix_iff]
  simp [TarPath]

theorem endsInTar_pathOf {cs : List (List Nat)} (hne : cs ≠ []) :
    endsInTar (pathOf cs) = true ↔ TarPath cs := by
  obtain ⟨init, c, rfl⟩ : ∃ init c, cs = init ++ [c] :=
    ⟨cs.dropLast, cs.getLast hne, (List.dropLast_append_getLast hne).symm⟩
  have hpath : pathOf (init ++ [c]) = pathOf init ++ SLASH :: c := by simp [pathOf]
  rw [endsInTar_iff, hpath, tar_suffix_iff]
  simp [TarPath]

theorem stripped_components (p : List Nat) : components (stripped p) = components p := by
  unfold stripped
  induction p with
  | nil => rfl
  | cons b p ih =>
    by_cases hb : b = SLASH
    · rw [List.dropWhile_cons_of_pos (by simpa using hb), ih, hb, components_slash]
    · rw [List.dropWhile_cons_of_neg (by simpa using hb)]

/-- A path that is no file in a directory. -/
theorem components_top (ht : trailing p = false) (ha : p.head? = some SLASH)
    (htop : SLASH ∉ stripped p) : components p = [stripped p] ∧ stripped p ≠ [] := by
  have hne : stripped p ≠ [] := by
    intro hnil
    have hc := stripped_components p
    rw [hnil] at hc
    have hp : p ≠ [] := List.ne_nil_of_mem (List.mem_of_head? ha)
    exact components_ne_nil hp ht hc.symm
  rw [← stripped_components, components_last ⟨hne, htop⟩]
  exact ⟨rfl, hne⟩

theorem tar_stripped (ht : trailing p = false) (ha : p.head? = some SLASH)
    (htop : SLASH ∉ stripped p) (htar : TAR <:+ p) : TAR <:+ stripped p := by
  rw [← tarPath_components ha ht, (components_top ht ha htop).1] at htar
  simpa [TarPath] using htar

/-- The first component is where the path starts. -/
theorem head_prefix_stripped {c : List Nat} (h : (components p).head? = some c) :
    c <+: stripped p := by
  rw [← stripped_components] at h
  have hd : dirOf (stripped p) ≠ [] := by
    intro hd
    by_cases hne : stripped p = []
    · rw [hne] at h
      cases h
    · obtain ⟨s, hs⟩ := slash_step hne hd
      have hhead := List.head_dropWhile_not (fun b => decide (b = SLASH)) hne
      have hslash : (List.dropWhile (fun b => decide (b = SLASH)) p).head hne = SLASH := by
        unfold stripped at hs
        simp [hs]
      simp [hslash] at hhead
  have hc : c = dirOf (stripped p) := by
    rcases word_step hd with ⟨-, -, hc, -⟩ | ⟨s, -, -, hc, -⟩
    · rw [hc] at h
      exact (Option.some.inj h).symm
    · rw [hc] at h
      exact (Option.some.inj h).symm
  rw [hc]
  exact List.takeWhile_prefix _

/-! ## The choice -/

/-- The module `n` is in the list. Before it there is no tarball, and no name but those of
`names`. -/
def Chosen (L : List Shape) (n : List Nat) (names : List Nat → Prop) : Prop :=
  ∃ A e B, L = A ++ e :: B ∧ e.name = n ∧ e.type = .module ∧
    (∀ x ∈ paths .module A, ¬TarPath x) ∧ ∀ s ∈ A, names s.name

/-- There is no tarball, or the first one of the list is the first one in the tree. -/
def Choice (done : List (List Nat)) (L : List Shape) : Prop :=
  ((∀ q ∈ done, ¬TAR <:+ q) ∧ ∀ x ∈ paths .module L, ¬TarPath x) ∨
    ∃ before p after, done = before ++ p :: after ∧ TAR <:+ p ∧ (∀ q ∈ before, ¬TAR <:+ q) ∧
      SLASH ∉ stripped p ∧ (∀ q ∈ before, ¬stripped p <+: stripped q) ∧
      Chosen L (stripped p) fun c => c = [DOT] ∨ Heads (before.map components) c

variable {L L' : List Shape} {n : List Nat} {names : List Nat → Prop} {cs : List (List Nat)}

/-- It stays so when a module is added, unless that is a tarball below one of `names`. -/
theorem Chosen.grow (h : Chosen L n names) (hcs : cs ≠ [])
    (htar : TarPath cs → ∀ c d ds, cs = c :: d :: ds → ¬names c)
    (hgrow : grow .module false cs L = some L') : Chosen L' n names := by
  obtain ⟨A, e, B, rfl, hname, htype, hno, hnames⟩ := h
  obtain ⟨c, cs, rfl⟩ := List.exists_cons_of_ne_nil hcs
  obtain ⟨A', e', B', rfl, hname', htype', hmap, hpaths⟩ := grow_front (by decide) hgrow
  refine ⟨A', e', B', rfl, hname'.trans hname, htype'.trans htype, fun x hx => ?_, fun s hs => ?_⟩
  · rcases hpaths x hx with hx | ⟨rfl, hend, hmem⟩
    · exact hno x hx
    · intro ht
      obtain ⟨s, hs, rfl⟩ := List.mem_map.mp hmem
      obtain ⟨d, ds, rfl⟩ := List.exists_cons_of_ne_nil hend
      exact htar ht _ d ds rfl (hnames s hs)
  · have hmem : s.name ∈ A.map Shape.name := hmap ▸ List.mem_map_of_mem hs
    obtain ⟨a, ha, he⟩ := List.mem_map.mp hmem
    exact he ▸ hnames a ha

/-- The first tarball comes last in the list, behind the names of the modules before it. -/
theorem chosen_first (hf : Fits L (done.map components)) (hno : ∀ x ∈ paths .module L, ¬TarPath x)
    (htar : TAR <:+ n) (halone : ∀ q ∈ done, ¬n <+: stripped q)
    (hgrow : grow .module false [n] L = some L') :
    Chosen L' n fun c => c = [DOT] ∨ Heads (done.map components) c := by
  cases hf with
  | mk hdot hnames hheads hnodup hleaf hbelow =>
    have hclash : ¬∃ s ∈ L, ending false n <+: s.name := by
      intro ⟨s, hs, hp⟩
      have hp : n <+: s.name := hp
      rcases hnames s hs with hname | ⟨m, hm, hhead⟩
      · -- the dot is too short
        rw [hname] at hp
        have hlen := htar.length_le.trans hp.length_le
        exact absurd hlen (by decide)
      · obtain ⟨q, hq, rfl⟩ := List.mem_map.mp hm
        exact halone q hq (hp.trans (head_prefix_stripped hhead))
    rw [L4.Devices.grow, if_neg hclash] at hgrow
    cases hgrow
    exact ⟨L, .mk n .module [], [], rfl, rfl, rfl, hno, hnames⟩

/-- **One module more** keeps the choice. -/
theorem choice_step (hf : Fits L (done.map components)) (h : Choice done L)
    (ha : p.head? = some SLASH) (ht : trailing p = false)
    (hfirst : ∀ before q after, done ++ [p] = before ++ q :: after → TAR <:+ q →
      (∀ r ∈ before, ¬TAR <:+ r) → First before q after)
    (hgrow : grow .module false (components p) L = some L') : Choice (done ++ [p]) L' := by
  have htar := tarPath_components ha ht
  have hcs : components p ≠ [] := components_ne_nil (List.ne_nil_of_mem (List.mem_of_head? ha)) ht
  rcases h with ⟨hdone, hno⟩ | ⟨before, q, after, rfl, hq, hbefore, htop, halone, hchosen⟩
  · by_cases hp : TAR <:+ p
    · have hone := hfirst done p [] rfl hp hdone
      have hcomponents := (components_top ht ha hone.top).1
      have hn := tar_stripped ht ha hone.top hp
      rw [hcomponents] at hgrow
      exact .inr ⟨done, p, [], rfl, hp, hdone, hone.top, hone.alone,
        chosen_first hf hno hn hone.alone hgrow⟩
    · refine .inl ⟨fun r hr => ?_, fun x hx => ?_⟩
      · rcases List.mem_append.mp hr with hr | hr
        · exact hdone r hr
        · rw [List.mem_singleton.mp hr]
          exact hp
      · rcases grow_paths (by decide) hgrow x hx with hx | rfl
        · exact hno x hx
        · exact mt htar.mp hp
  · refine .inr ⟨before, q, after ++ [p], by simp, hq, hbefore, htop, halone, ?_⟩
    refine hchosen.grow hcs (fun hp c d ds hc => ?_) hgrow
    have hone := hfirst before q (after ++ [p]) (by simp) hq hbefore
    have hahead := hone.ahead p (by simp) (htar.mp hp) c d ds hc
    rintro (rfl | hc)
    · exact hahead.1 rfl
    · exact hahead.2 hc

/-! ## The tree of the modules -/

/-- The tree with the devices `l` from before, and the modules `L`. -/
def rootOf (l L : List Shape) : List Shape :=
  l ++ [.mk BOOT .reserved [dot, .mk MODULES .reserved L]]

variable {l : List Shape}

theorem child_mk (name : List Nat) (type : DeviceType) (hL : L ≠ []) :
    (Shape.mk name type L).child = L := by
  obtain ⟨s, L, rfl⟩ := List.exists_cons_of_ne_nil hL
  rfl

theorem find_boot (hboot : ∀ s ∈ l, ¬BOOT <+: s.name) : l.find? (·.name = BOOT) = none := by
  rw [List.find?_eq_none]
  intro s hs he
  rw [decide_eq_true_eq] at he
  exact hboot s hs (he ▸ List.prefix_rfl)

/-- The first call makes /boot/modules. -/
theorem grow_empty (hboot : ∀ s ∈ l, ¬BOOT <+: s.name) :
    grow .reserved true [BOOT, MODULES] l = some (rootOf l [dot]) := by
  have hfind := find_boot hboot
  have hno : ¬∃ s ∈ l, BOOT <+: s.name := fun ⟨s, hs, hp⟩ => hboot s hs hp
  have hmodules : grow .reserved true (MODULES :: []) [dot] =
      some [dot, .mk MODULES .reserved [dot]] := by
    rw [grow, if_neg (by simp [dot, ending, MODULES, DOT])]
    rfl
  rw [grow]
  · simp [hfind, hno, hmodules, rootOf]
  · simp

/-- The other calls come down to the list of the modules. -/
theorem grow_root (hboot : ∀ s ∈ l, ¬BOOT <+: s.name) (hL : L ≠ []) (hcs : cs ≠ []) :
    grow .module false (BOOT :: MODULES :: cs) (rootOf l L) =
      (grow .module false cs L).map (rootOf l) := by
  have hfind := find_boot hboot
  have hroot : (rootOf l L).find? (·.name = BOOT) =
      some (.mk BOOT .reserved [dot, .mk MODULES .reserved L]) := by
    rw [rootOf, List.find?_append, hfind]
    simp
  have hdir : ([dot, Shape.mk MODULES .reserved L]).find? (·.name = MODULES) =
      some (.mk MODULES .reserved L) := by
    simp [dot, MODULES, DOT]
  have hgraft : ∀ L', graft MODULES L' [dot, .mk MODULES .reserved L] =
      [dot, .mk MODULES .reserved L'] := by
    intro L'
    simp [graft, updateFirst, dot, MODULES, DOT]
  have hgraft' : ∀ l', graft BOOT l' (rootOf l L) = l ++ [.mk BOOT .reserved l'] := by
    intro l'
    exact updateFirst_snoc hfind (by simp)
  rw [grow, hroot]
  · simp only
    rw [child_mk _ _ (by simp), grow, hdir]
    · simp only
      rw [child_mk _ _ hL]
      cases grow .module false cs L with
      | none => rfl
      | some L' =>
        simp only [Option.map_some, hgraft, hgraft']
        rfl
    · exact hcs
  · simp

theorem components_root (s : List Nat) :
    components (MODULES_ROOT ++ s) = BOOT :: MODULES :: components s := by
  have hroot : MODULES_ROOT ++ s = SLASH :: (BOOT ++ SLASH :: (MODULES ++ SLASH :: s)) := rfl
  have hboot : Word BOOT := by simp [Word, BOOT, SLASH]
  have hmodules : Word MODULES := by simp [Word, MODULES, SLASH]
  rw [hroot, components_slash, components_word hboot, components_word hmodules]

theorem paths_root (hl : paths .module l = []) :
    paths .module (rootOf l L) = (paths .module L).map fun x => BOOT :: MODULES :: x := by
  simp [rootOf, hl, dot]

/-! ## The calls one after another -/

/-- The tree after the modules `done`. -/
structure Built (l : List Shape) (done : List (List Nat)) (m : Manager) : Prop where
  reachable : managerLTS.Reachable m
  ends : ∀ dev ∈ records m.list, dev.nameEnds = true
  tree : ∃ L, shapes m.list = rootOf l L ∧ Fits L (done.map components) ∧
    (∀ x ∈ paths .module L, x ∈ done.map components) ∧ Choice done L

theorem ends_read {list : List Entry} (h : ∀ dev ∈ records list, dev.nameEnds = true)
    (behind : Nat → List Nat) : ReadAsCreated behind list := by
  intro dev hd
  rw [Record.text, h dev hd, if_pos rfl]

variable {m : Manager} {behind : Nat → Nat → List Nat}

/-- A call that adds its path. -/
theorem create_ok {type : DeviceType} {path : List Nat} {l' : List Shape}
    (hm : managerLTS.Reachable m) (hends : ∀ dev ∈ records m.list, dev.nameEnds = true)
    (hnull : NoNull path) (hshort : path.length < 2 ^ 31)
    (htype : type ≠ .reserved → trailing path = false)
    (hlen : ∀ c ∈ components path, c.length % 16 ≠ 0 ∧
      (ending (trailing path) c).length % 16 ≠ 0)
    (hgrow : grow type (trailing path) (components path) (shapes m.list) = some l')
    (behind : Nat → List Nat) : ∃ answer m',
      deviceCreateAt behind path type reserved m.list m.n = .ok (answer, m'.list, m'.n) ∧
      managerLTS.Reachable m' ∧ (∀ dev ∈ records m'.list, dev.nameEnds = true) ∧
      shapes m'.list = l' := by
  have hi := treeInv_inductive.reachable hm
  have hblocks : ∀ c ∈ components path, endsInBlock (ending (trailing path) c) = true :=
    fun c hc => by simp [endsInBlock, (hlen c hc).2]
  have hshapes := shapes_deviceCreateAt type reserved m.n (ends_read hends behind) hnull hshort
    hblocks hi.ne_nil
  rw [hgrow] at hshapes
  cases hcreate : deviceCreateAt behind path type reserved m.list m.n with
  | error s =>
    rw [hcreate] at hshapes
    cases hshapes
  | ok r =>
    obtain ⟨answer, list, n⟩ := r
    rw [hcreate] at hshapes
    have hl : shapes list = l' := by simpa [Except.map, grown] using hshapes
    have hcreates := deviceCreateAt_creates hnull hi.ne_nil hcreate
    refine ⟨answer, ⟨list, n⟩, rfl, ?_, hcreates.ends hends hlen, hl⟩
    exact hm.step (l := .create path type reserved answer) ⟨hnull, htype, behind, hcreate⟩

theorem First.mono {before after rest : List (List Nat)} (h : First before p (after ++ rest)) :
    First before p after :=
  ⟨h.top, h.alone, fun q hq => h.ahead q (List.mem_append_left _ hq)⟩

/-- One round of the loop. -/
theorem built_step {ms rest : List (List Nat)} (hboot : ∀ s ∈ l, ¬BOOT <+: s.name)
    (ho : Orderly ms) (habs : NoNull p ∧ p.head? = some SLASH) (hms : ms = done ++ p :: rest)
    (hb : Built l done m) (behind : Nat → List Nat) : ∃ answer m',
      deviceCreateAt behind (MODULES_ROOT ++ p) .module reserved m.list m.n =
        .ok (answer, m'.list, m'.n) ∧ Built l (done ++ [p]) m' := by
  obtain ⟨L, hshapes, hfits, hpaths, hchoice⟩ := hb.tree
  have hp : p ∈ ms := by simp [hms]
  have hne : p ≠ [] := List.ne_nil_of_mem (List.mem_of_head? habs.2)
  have ht := ho.noTrailing p hp
  have htrail : trailing (MODULES_ROOT ++ p) = false := by rw [trailing_append _ hne, ht]
  have hcs : components p ≠ [] := components_ne_nil hne ht
  have hcomponents := components_root p
  obtain ⟨L', hgrow, hfits'⟩ := grow_fits .module hfits hcs
    (fun c hc => (mem_components hc).1.1) (ho.clear done p rest hms)
  have hroot := grow_root hboot hfits.ne_nil hcs
  rw [hgrow, Option.map_some, ← hshapes, ← hcomponents, ← htrail] at hroot
  have hnull : NoNull (MODULES_ROOT ++ p) := by
    intro h0
    rcases List.mem_append.mp h0 with h0 | h0
    · exact absurd h0 (by decide)
    · exact habs.1 h0
  have hlen : ∀ c ∈ components (MODULES_ROOT ++ p), c.length % 16 ≠ 0 ∧
      (ending (trailing (MODULES_ROOT ++ p)) c).length % 16 ≠ 0 := by
    intro c hc
    have hone : c.length % 16 ≠ 0 := by
      rw [hcomponents] at hc
      rcases List.mem_cons.mp hc with rfl | hc
      · decide
      · rcases List.mem_cons.mp hc with rfl | hc
        · decide
        · exact ho.ends p hp c hc
    rw [htrail]
    exact ⟨hone, hone⟩
  have hroom := ho.room _ hp
  have hshort : (MODULES_ROOT ++ p).length < 2 ^ 31 := by
    have hpage : PAGE = 4096 := rfl
    rw [List.length_append]
    omega
  obtain ⟨answer, m', hcreate, hreach, hends, hshapes'⟩ := create_ok hb.reachable hb.ends hnull
    hshort (fun _ => htrail) hlen hroot behind
  refine ⟨answer, m', hcreate, hreach, hends, L', hshapes', ?_, fun x hx => ?_, ?_⟩
  · simpa using hfits'
  · rcases grow_paths (by decide) hgrow x hx with hx | rfl
    · exact List.map_append ▸ List.mem_append_left _ (hpaths x hx)
    · simp
  · refine choice_step hfits hchoice habs.2 ht (fun before q after he hq hbefore => ?_) hgrow
    have hsplit : ms = before ++ q :: (after ++ rest) := by
      rw [hms, List.append_cons, he]
      simp
    exact (ho.first before q (after ++ rest) hsplit hq hbefore).mono

/-- **All rounds of the loop.** The text `q` of the last round is written over as a whole. -/
theorem built_all {ms : List (List Nat)} (hboot : ∀ s ∈ l, ¬BOOT <+: s.name) (ho : Orderly ms)
    (habs : ∀ p ∈ ms, NoNull p ∧ p.head? = some SLASH) (behind : Nat → Nat → List Nat)
    (files : List LimineFile) (i : Nat)
    (hms : ms = done ++ files.map (·.path)) (hb : Built l done m)
    (hq : ∀ file ∈ files, q.length ≤ file.path.length) : ∃ m',
      createModules behind files i (MODULES_ROOT ++ q) m.list m.n = .ok (m'.list, m'.n) ∧
      Built l ms m' := by
  induction files generalizing done q i m with
  | nil =>
    rw [List.map_nil, List.append_nil] at hms
    exact ⟨m, rfl, hms ▸ hb⟩
  | cons file files ih =>
    rw [List.map_cons] at hms
    have hp : file.path ∈ ms := by simp [hms]
    obtain ⟨answer, m₁, hcreate, hb₁⟩ := built_step hboot ho (habs _ hp) hms hb (behind i)
    have hlonger := ho.longer
    rw [hms, List.pairwise_append, List.pairwise_cons] at hlonger
    have hnext : ∀ f ∈ files, file.path.length ≤ f.path.length := fun f hf =>
      hlonger.2.1.1 f.path (List.mem_map_of_mem hf)
    obtain ⟨m', hrun, hb'⟩ := ih (i + 1) (by rw [hms]; simp) hb₁ hnext
    refine ⟨m', ?_, hb'⟩
    have hroom := ho.room _ hp
    rw [createModules, strcpyAt_over (hq file (List.mem_cons_self ..))]
    simp only [List.length_append]
    rw [if_neg (by omega), hcreate]
    exact hrun

/-! ## The initial ramdisk -/

theorem length_splitPath (s : List Nat) :
    (splitPath s).1.length + (pathOf (splitPath s).2).length ≤ s.length := by
  induction s with
  | nil => simp [splitPath]
  | cons b s ih =>
    rw [splitPath]
    by_cases hb : b = SLASH
    · by_cases hw : (splitPath s).1 = []
      · simp [hb, hw] at ih ⊢
        omega
      · simp [hb, hw]
        omega
    · simp [hb]
      omega

/-- The path of a module's device is not longer than its own. -/
theorem length_pathOf (ha : p.head? = some SLASH) : (pathOf (components p)).length ≤ p.length := by
  obtain ⟨s, rfl⟩ := List.head?_eq_some_iff.mp ha
  have hle := length_splitPath s
  rw [components_slash, components]
  by_cases hw : (splitPath s).1 = []
  · simp only [hw, if_true, List.length_cons]
    omega
  · simp only [hw, if_false, pathOf_cons, List.length_cons, List.length_append]
    omega

theorem tarPath_below (x : List (List Nat)) : TarPath (BOOT :: MODULES :: x) ↔ TarPath x := by
  cases x with
  | nil => simp [TarPath, TAR, MODULES, List.suffix_iff_eq_drop]
  | cons c x => simp [TarPath, List.getLast?_cons_cons]

theorem endsInTar_below (x : List (List Nat)) :
    endsInTar (pathOf (BOOT :: MODULES :: x)) = true ↔ TarPath x := by
  rw [endsInTar_pathOf (by simp), tarPath_below]

/-- There is no tarball in the tree. -/
theorem find_none (h : ∀ x ∈ paths .module L, ¬TarPath x) :
    ((paths .module L).map fun x => pathOf (BOOT :: MODULES :: x)).find? endsInTar = none := by
  rw [List.find?_eq_none]
  intro path hpath
  obtain ⟨x, hx, rfl⟩ := List.mem_map.mp hpath
  rw [endsInTar_below]
  exact h x hx

theorem Chosen.find (h : Chosen L n names) (htar : TAR <:+ n) :
    ((paths .module L).map fun x => pathOf (BOOT :: MODULES :: x)).find? endsInTar =
      some (pathOf [BOOT, MODULES, n]) := by
  obtain ⟨A, e, B, rfl, rfl, htype, hno, -⟩ := h
  obtain ⟨n, type, children⟩ := e
  simp only [Shape.name_mk, Shape.type_mk] at htar htype ⊢
  have hone : endsInTar (pathOf [BOOT, MODULES, n]) = true := by
    rw [endsInTar_below]
    simpa [TarPath] using htar
  rw [paths_append, List.map_append, List.find?_append, find_none hno, paths_cons, if_pos htype]
  simp only [List.cons_append, List.map_cons, List.find?_cons, hone, Option.none_or]

/-- The name of the first tarball leads back to its file. -/
theorem limineGetModule_first {modules : List LimineFile}
    (hms : modules.map (·.path) = before ++ p :: after) (htar : TAR <:+ p)
    (hbefore : ∀ q ∈ before, ¬TAR <:+ q) (halone : ∀ q ∈ before, ¬stripped p <+: stripped q)
    (hnull : NoNull p) : ∃ file, limineGetModule (stripped p) modules = some file ∧
      modules.find? (TAR <:+ ·.path) = some file := by
  obtain ⟨files, rest, rfl, hfiles, hrest⟩ := List.map_eq_append_iff.mp hms
  obtain ⟨file, rest, rfl, rfl, -⟩ := List.map_eq_cons_iff.mp hrest
  have hearlier : ∀ f ∈ files, f.path ∈ before := fun f hf => hfiles ▸ List.mem_map_of_mem hf
  refine ⟨file, ?_, ?_⟩
  · have hname : NoNull (stripped file.path) := fun h0 =>
      hnull ((List.dropWhile_suffix _).subset h0)
    have hhead : (stripped file.path).head? ≠ some SLASH := by
      intro h
      have hnot := List.head?_dropWhile_not (fun b => decide (b = SLASH)) file.path
      unfold stripped at h
      rw [h] at hnot
      simp at hnot
    rw [limineGetModule_eq _ hname hhead, List.find?_eq_some_iff_append]
    refine ⟨by simp [stripped], files, rest, rfl, fun f hf => ?_⟩
    rw [Bool.not_eq_true', decide_eq_false_iff_not]
    exact halone f.path (hearlier f hf)
  · rw [List.find?_eq_some_iff_append]
    refine ⟨by simpa using htar, files, rest, rfl, fun f hf => ?_⟩
    simpa using hbefore f.path (hearlier f hf)

theorem ustarInit_undetected {modules : List LimineFile} {root : List Entry}
    (h : detect behind root ((records root).length + 1) 0 (fun _ => 0) = some none) :
    ustarInit behind modules root = some .undetected := by
  unfold ustarInit
  rw [h]
  rfl

theorem ustarInit_uses {modules : List LimineFile} {root : List Entry} {file : LimineFile}
    (h : detect behind root ((records root).length + 1) 0 (fun _ => 0) = some (some p))
    (hbase : vfsBasename p PAGE = some n) (hget : limineGetModule n modules = some file) :
    ustarInit behind modules root = some (.uses file) := by
  unfold ustarInit
  rw [h]
  -- a reduction to the basename would make the kernel compute with the size of a page
  refine Option.bind_eq_some_iff.mpr ⟨some p, rfl, ?_⟩
  refine Option.bind_eq_some_iff.mpr ⟨n, hbase, ?_⟩
  rw [hget]
  rfl

/-- The search for a tarball goes through the modules of the tree. -/
theorem detect_root (hi : TreeInv m) (hends : ∀ dev ∈ records m.list, dev.nameEnds = true)
    (hl : paths .module l = []) (hshapes : shapes m.list = rootOf l L)
    (hpaths : ∀ x ∈ paths .module L, x ∈ done.map components)
    (hdone : ∀ p ∈ done, p.head? = some SLASH ∧ MODULES_ROOT.length + p.length < PAGE)
    (behind : Nat → Nat → List Nat) :
    detect behind m.list ((records m.list).length + 1) 0 (fun _ => 0) =
      some (((paths .module L).map fun x => pathOf (BOOT :: MODULES :: x)).find? endsInTar) := by
  have htypes : (ofType .module m.list).map (·.path) =
      (paths .module L).map fun x => BOOT :: MODULES :: x := by
    rw [← paths_shapes, hshapes, paths_root hl]
  have hlong : ∀ x ∈ ofType .module m.list, (pathOf x.path).length + 1 ≤ PAGE := by
    intro x hx
    have hmem : x.path ∈ (paths .module L).map fun x => BOOT :: MODULES :: x :=
      htypes ▸ List.mem_map_of_mem hx
    obtain ⟨y, hy, he⟩ := List.mem_map.mp hmem
    obtain ⟨p, hp, rfl⟩ := List.mem_map.mp (hpaths y hy)
    obtain ⟨habs, hroom⟩ := hdone p hp
    have hle := length_pathOf habs
    rw [← he]
    simp only [pathOf_cons, List.length_cons, List.length_append, BOOT, MODULES, MODULES_ROOT,
      List.length_nil] at hroom ⊢
    omega
  have hrounds : (ofType .module m.list).length - 0 < (records m.list).length + 1 := by
    have hle := List.length_filter_le (fun x : Place => decide (x.record.type = .module))
      (places m.list)
    rw [records, List.length_map]
    exact Nat.lt_succ_of_le hle
  have hfound : ((ofType .module m.list).drop 0).map (fun x => pathOf x.path) =
      (paths .module L).map fun x => pathOf (BOOT :: MODULES :: x) := by
    have hmap := congrArg (List.map pathOf) htypes
    simpa [Function.comp_def] using hmap
  rw [detect_eq hi (fun i => ends_read hends (behind i)) hlong _ 0 hrounds, hfound]

/-- **The first tarball of the tree is the first one of the list.** -/
theorem ustarInit_eq {modules : List LimineFile} (hm : Built l (modules.map (·.path)) m)
    (hl : paths .module l = []) (ho : Orderly (modules.map (·.path)))
    (habs : ∀ p ∈ modules.map (·.path), NoNull p ∧ p.head? = some SLASH)
    (behind : Nat → Nat → List Nat) : ustarInit behind modules m.list =
      some (match modules.find? (TAR <:+ ·.path) with
        | some file => .uses file
        | none => .undetected) := by
  obtain ⟨L, hshapes, -, hpaths, hchoice⟩ := hm.tree
  have hdetect := detect_root (treeInv_inductive.reachable hm.reachable) hm.ends hl hshapes hpaths
    (fun p hp => ⟨(habs p hp).2, ho.room p hp⟩) behind
  rcases hchoice with ⟨hdone, hno⟩ | ⟨before, p, after, hms, htar, hbefore, htop, halone, hchosen⟩
  · have hnone : modules.find? (TAR <:+ ·.path) = none := by
      rw [List.find?_eq_none]
      intro file hfile
      simpa using hdone file.path (List.mem_map_of_mem hfile)
    rw [find_none hno] at hdetect
    rw [ustarInit_undetected hdetect, hnone]
  · have hp : p ∈ modules.map (·.path) := by simp [hms]
    obtain ⟨hnull, habs⟩ := habs p hp
    have hn := tar_stripped (ho.noTrailing p hp) habs htop htar
    have hpath : pathOf [BOOT, MODULES, stripped p] =
        pathOf [BOOT, MODULES] ++ SLASH :: stripped p := by simp [pathOf]
    have hlen : (stripped p).length ≤ PAGE := by
      have hle := (List.dropWhile_suffix (l := p) fun b => decide (b = SLASH)).length_le
      have hroom := ho.room p hp
      exact hle.trans (Nat.le_of_lt (Nat.lt_of_le_of_lt (Nat.le_add_left _ _) hroom))
    obtain ⟨file, hget, hfirst⟩ := limineGetModule_first hms htar hbefore halone hnull
    rw [hchosen.find hn, hpath] at hdetect
    rw [ustarInit_uses hdetect (vfsBasename_eq htop hlen) hget, hfirst]

/-! ## The condition -/

/-- **On orderly lists the first tarball is used**, and no tarball is reported just where
there is none. -/
theorem first_tar_used {modules : List LimineFile} (hr : Ready m)
    (habs : ∀ file ∈ modules, NoNull file.path ∧ file.path.head? = some SLASH)
    (ho : Orderly (modules.map (·.path))) : UsesFirstTar modules m := by
  intro behind
  have hboot : ∀ s ∈ shapes m.list, ¬BOOT <+: s.name := by
    intro s hs
    rw [shapes_eq] at hs
    obtain ⟨e, he, rfl⟩ := List.mem_map.mp hs
    rw [shape_name]
    exact hr.noBoot e he
  have hnone : paths .module (shapes m.list) = [] := by
    rw [paths_shapes, List.map_eq_nil_iff, List.eq_nil_iff_forall_not_mem]
    intro x hx
    obtain ⟨hplace, htype⟩ := mem_ofType.mp hx
    exact hr.noModules x.record (mem_records hplace) htype
  have hcomponents : components MODULES_ROOT = [BOOT, MODULES] := components_root []
  have htrail : trailing MODULES_ROOT = true := rfl
  have hlen : ∀ c ∈ components MODULES_ROOT, c.length % 16 ≠ 0 ∧
      (ending (trailing MODULES_ROOT) c).length % 16 ≠ 0 := by
    rw [hcomponents, htrail]
    decide
  have hgrow := grow_empty hboot
  rw [← hcomponents, ← htrail] at hgrow
  obtain ⟨answer, m₁, hcreate, hreach, hends, hshapes⟩ := create_ok hr.reachable hr.ends (by decide)
    (by decide) (fun h => absurd rfl h) hlen hgrow (behind 0)
  have hbuilt : Built (shapes m.list) [] m₁ :=
    ⟨hreach, hends, [dot], hshapes, fits_dot, by simp [dot], .inl (by simp [dot])⟩
  have hall : ∀ p ∈ modules.map (·.path), NoNull p ∧ p.head? = some SLASH := by
    intro p hp
    obtain ⟨file, hfile, rfl⟩ := List.mem_map.mp hp
    exact habs file hfile
  obtain ⟨m₂, hrun, hbuilt₂⟩ := built_all (q := []) hboot ho hall behind modules 1 rfl hbuilt
    fun _ _ => Nat.zero_le _
  refine ⟨m₂.list, m₂.n, ?_, fun behind => ustarInit_eq hbuilt₂ hnone ho hall behind⟩
  have hcount : (toInt32 modules.length).toNat = modules.length := by
    have hsmall := ho.count
    rw [List.length_map] at hsmall
    rw [toInt32_of_lt (by omega) (by omega), Int.toNat_natCast]
  rw [limineCreateDevice, hcreate]
  simp only [hcount, List.take_length]
  exact hrun

/-! ## Examples -/

/-- The tree with nothing in it. -/
def empty : Manager := ⟨[allocateDummy 0 none], ⟨0, 0⟩⟩

theorem ready_empty : Ready empty := by
  refine ⟨.init ⟨rfl, rfl⟩, ?_, ?_, ?_⟩
  · simp [empty, L4.Devices.allocateDummy]
  · simp [empty, L4.Devices.allocateDummy]
  · simp [empty, L4.Devices.allocateDummy, BOOT, DOT]

/-- `limine_create_device` and then `ustar_init`, with these bytes behind a name without a
null. -/
def boot (after : List Nat) (modules : List LimineFile) : Except Stop (Option Initrd) :=
  (limineCreateDevice (fun _ _ => after) modules empty.list empty.n).map fun r =>
    ustarInit (fun _ _ => after) modules r.1

theorem boot_eq {modules : List LimineFile} (h : UsesFirstTar modules empty) (after : List Nat) :
    boot after modules = .ok (some (match modules.find? (TAR <:+ ·.path) with
      | some file => .uses file
      | none => .undetected)) := by
  obtain ⟨list, n, hrun, huses⟩ := h fun _ _ => after
  rw [boot, hrun, Except.map, huses]

/-- "/k.elf" -/
def KELF : List Nat := [0x2F, 0x6B, 0x2E, 0x65, 0x6C, 0x66]

/-- "/init.tar" -/
def INIT : List Nat := [0x2F, 0x69, 0x6E, 0x69, 0x74, 0x2E, 0x74, 0x61, 0x72]

theorem orderly_pair : Orderly [KELF, INIT] := by
  have hsplit : ∀ {before p after}, [KELF, INIT] = before ++ p :: after →
      (before = [] ∧ p = KELF) ∨ (before = [KELF] ∧ p = INIT ∧ after = []) := by
    intro before p after h
    match before with
    | [] => simp_all
    | [q] => simp_all
    | q :: r :: before => simp at h
  have hkelf : components KELF = [KELF.tail] := rfl
  have hinit : components INIT = [INIT.tail] := rfl
  refine ⟨by decide, by decide, by decide, by decide, by decide, fun before p after h => ?_,
    fun before p after h htar hno => ?_⟩
  · rcases hsplit h with ⟨rfl, rfl⟩ | ⟨rfl, rfl, rfl⟩
    · intro ds x y _ hm
      simp at hm
    · intro ds x y hy hx hyx
      obtain ⟨m, hm, hx⟩ := hx
      rw [List.map_cons, List.map_nil, List.mem_singleton] at hm
      rw [hm, hkelf] at hx
      rw [hinit] at hy
      have hds : ds = [] := by simpa using hy.length_le
      rw [hds, List.nil_append, List.singleton_prefix_cons_iff] at hx hy
      rw [hx, hy] at hyx
      exact absurd hyx (by decide)
  · rcases hsplit h with ⟨rfl, rfl⟩ | ⟨rfl, rfl, rfl⟩
    · exact absurd htar (by decide)
    · refine ⟨by decide, by decide, fun q hq => by cases hq⟩

/-- The second module is a tarball. -/
theorem second_used : UsesFirstTar [⟨KELF, 0, 0⟩, ⟨INIT, 0, 0⟩] empty :=
  first_tar_used ready_empty (by decide) orderly_pair

/-- "/kernel.elf" -/
def KERNEL : List Nat := [0x2F, 0x6B, 0x65, 0x72, 0x6E, 0x65, 0x6C, 0x2E, 0x65, 0x6C, 0x66]

/-- "/a.tar" -/
def ATAR : List Nat := [0x2F, 0x61, 0x2E, 0x74, 0x61, 0x72]

/-- **A shorter path over a longer one.** The device of the tarball is /boot/modules/a.tarl.elf,
and no ramdisk is detected. -/
theorem leftover_name : Ready empty ∧ KERNEL ≠ ATAR ∧
    (∀ p ∈ [KERNEL, ATAR], NoNull p ∧ p.head? = some SLASH ∧
      MODULES_ROOT.length + p.length < PAGE) ∧
    (boot [] [⟨KERNEL, 0, 0⟩, ⟨ATAR, 1, 0⟩]).toOption = some (some .undetected) ∧
    ¬UsesFirstTar [⟨KERNEL, 0, 0⟩, ⟨ATAR, 1, 0⟩] empty := by
  have hboot : (boot [] [⟨KERNEL, 0, 0⟩, ⟨ATAR, 1, 0⟩]).toOption = some (some .undetected) := by
    decide +kernel
  refine ⟨ready_empty, by decide, by decide, hboot, fun h => ?_⟩
  rw [boot_eq h] at hboot
  exact absurd hboot (by decide)

/-! The other slips, one at a time. -/

/-- A module with this path. -/
def file (path : List Char) : LimineFile := ⟨path.map Char.toNat, 0, 0⟩

-- /a is taken for there already
example : (boot [] [file ['/', 'a', 'b'], file ['/', 'a', '/', 'b']]).toOption = none := by
  decide +kernel

-- a name of 16 bytes is read on
example : (boot [0x78] [file ['/', 'i', 'n', 'i', 't', 'i', 'a', 'l', '-', 'd', 'i', 's', 'k', '.',
    't', 'a', 'r']]).toOption = some (some .undetected) := by
  decide +kernel

-- the delimiter at the end is dropped
example : (boot [] [file ['/', 'x', '.', 't', 'a', 'r', '/']]).toOption =
    some (some (.uses (file ['/', 'x', '.', 't', 'a', 'r', '/']))) := by
  decide +kernel

-- y.tar is found first, and has no file of that name at the top
example : (boot [] [file ['/', 'd', '/', 'x'], file ['/', 'a', '.', 't', 'a', 'r'],
    file ['/', 'd', '/', 'y', '.', 't', 'a', 'r']]).toOption = some (some .missing) := by
  decide +kernel

end GaOS.Bugs.InitrdChoice
