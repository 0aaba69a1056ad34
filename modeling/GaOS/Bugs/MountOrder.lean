import GaOS.L4Files.Mount
import Mathlib.Data.List.Nodup

/-!
# The first mount point that the path starts with

`vfs_open` takes the first mount point, in the order of mounting, whose name is a prefix
of the path as a string (kernel/src/filesystem/vfs.c:67-74). The comment says "compare
the mount names and if they're identical break", but nothing looks at the byte behind
the name, and nothing looks for a longer name further down the list.

* /device.txt goes to /dev, as `ice.txt`, although / is mounted.
* With / mounted before /dev nothing ever reaches /dev.

`resolves_right_iff_unshadowed` is the exact condition: no mount point before the
longest one that is a prefix by whole components is a prefix of the path as a string.

Counterexample: the mount points of the kernel, /dev and then /, and /device.txt.

Fix: go through the whole list, keep the longest name, and require a slash or the end
of the path behind it.
-/
namespace GaOS.Bugs.MountOrder

open GaOS.L4.Files

variable {φ : Type}

/-! ## What should hold -/

/-- `/`, or components, each behind a slash. -/
inductive MountName : List Nat → Prop
  | root : MountName [SLASH]
  | components (cs : List (List Nat)) : cs ≠ [] → (∀ c ∈ cs, c ≠ [] ∧ SLASH ∉ c ∧ NoNull c) →
      MountName (cs.flatMap (SLASH :: ·))

/-- Mounting one after the other, from the beginning. -/
def mountAll (calls : List (List Nat × φ)) : List (MountPoint φ) :=
  calls.foldl (fun mounts call => vfsMountFs call.1 call.2 mounts) []

/-- The name is `/`, or the path has a slash or its end behind it. -/
def ComponentPrefix (name path : List Nat) : Prop :=
  name = [SLASH] ∨
    name <+: path ∧ (path.drop name.length = [] ∨ (path.drop name.length).head? = some SLASH)

structure Longest (mounts : List (MountPoint φ)) (path : List Nat) (m : MountPoint φ) : Prop where
  mem : m ∈ mounts
  components : ComponentPrefix m.name path
  longest : ∀ m' ∈ mounts, ComponentPrefix m'.name path → m'.name.length ≤ m.name.length

structure ResolvesRight (mounts : List (MountPoint φ)) (path : List Nat) : Prop where
  longest : ∀ m, Longest mounts path m →
    vfsResolve mounts path = .ok (m.fs, path.drop m.name.length)
  missing : (∀ m ∈ mounts, ¬ComponentPrefix m.name path) →
    vfsResolve mounts path = .error (-ENOENT)

/-! ## The condition -/

structure Unshadowed (mounts : List (MountPoint φ)) (path : List Nat) : Prop where
  before : ∀ before m after, mounts = before ++ m :: after → Longest mounts path m →
    ∀ m' ∈ before, ¬m'.name <+: path
  missing : (∀ m ∈ mounts, ¬ComponentPrefix m.name path) → ∀ m ∈ mounts, ¬m.name <+: path

variable {mounts : List (MountPoint φ)} {path : List Nat}

theorem mountAll_eq (calls : List (List Nat × φ)) :
    mountAll calls = calls.map fun call => ⟨call.1, call.2⟩ := by
  suffices h : ∀ mounts : List (MountPoint φ),
      calls.foldl (fun mounts call => vfsMountFs call.1 call.2 mounts) mounts =
        mounts ++ calls.map fun call => ⟨call.1, call.2⟩ from h []
  induction calls with
  | nil => simp
  | cons call calls ih =>
    intro mounts
    rw [List.foldl_cons, ih, vfsMountFs, List.map_cons, List.append_assoc, List.singleton_append]

theorem MountName.noNull {name : List Nat} (h : MountName name) : NoNull name := by
  cases h with
  | root => simp [NoNull, SLASH]
  | components cs _ hcs =>
    intro h0
    obtain ⟨c, hc, h0⟩ := List.mem_flatMap.mp h0
    rcases List.mem_cons.mp h0 with h0 | h0
    · simp [SLASH] at h0
    · exact (hcs c hc).2.2 h0

/-- By components means as a string. -/
theorem ComponentPrefix.isPrefix {name : List Nat} (h : ComponentPrefix name path)
    (hp : path.head? = some SLASH) : name <+: path := by
  rcases h with rfl | h
  · cases path with
    | nil => simp at hp
    | cons c path =>
      simp only [List.head?_cons, Option.some.injEq] at hp
      simp [hp]
  · exact h.1

/-- Prefixes of one path with the same rest are the same. -/
theorem eq_of_drop {a b : List Nat} (ha : a <+: path) (hb : b <+: path)
    (h : path.drop a.length = path.drop b.length) : a = b := by
  have hlen := congrArg List.length h
  simp only [List.length_drop] at hlen
  have h1 := ha.length_le
  have h2 := hb.length_le
  rw [List.prefix_iff_eq_take.mp ha, List.prefix_iff_eq_take.mp hb]
  congr 1
  omega

/-- What the search finds. -/
theorem vfsResolve_ok_iff (hn : ∀ m ∈ mounts, NoNull m.name) (hp : path.head? = some SLASH)
    {m : MountPoint φ} (hd : (mounts.map MountPoint.name).Nodup) (hm : m ∈ mounts)
    (hpre : m.name <+: path) :
    vfsResolve mounts path = .ok (m.fs, path.drop m.name.length) ↔
      mounts.find? (mountMatches path) = some m := by
  unfold vfsResolve
  rw [if_neg (not_not.mpr hp)]
  constructor
  · intro h
    cases hf : mounts.find? (mountMatches path) with
    | none => simp [hf] at h
    | some m' =>
      rw [hf] at h
      simp only [Except.ok.injEq, Prod.mk.injEq] at h
      have hm' := List.mem_of_find?_eq_some hf
      have hpre' := (mountMatches_iff (hn m' hm')).mp (List.find?_some hf)
      have hname := eq_of_drop hpre' hpre h.2
      rw [List.inj_on_of_nodup_map hd hm' hm hname]
  · intro h
    rw [h]

/-- **When mounts resolve to the longest component prefix.** For every list of mounts
with distinct names and every absolute path. -/
theorem resolves_right_iff_unshadowed (calls : List (List Nat × φ))
    (hn : ∀ call ∈ calls, MountName call.1) (hd : (calls.map Prod.fst).Nodup)
    (hp : path.head? = some SLASH) :
    ResolvesRight (mountAll calls) path ↔ Unshadowed (mountAll calls) path := by
  have hnull : ∀ m ∈ mountAll calls, NoNull m.name := by
    intro m hm
    rw [mountAll_eq] at hm
    obtain ⟨call, hcall, rfl⟩ := List.mem_map.mp hm
    exact (hn call hcall).noNull
  have hnames : ((mountAll calls).map MountPoint.name).Nodup := by
    rw [mountAll_eq, List.map_map]
    exact hd
  generalize mountAll calls = mounts at hnull hnames
  have hmatch : ∀ m ∈ mounts, (mountMatches path m = true ↔ m.name <+: path) :=
    fun m hm => mountMatches_iff (hnull m hm)
  constructor
  · intro h
    constructor
    · intro before m after hsplit hl m' hm' hpre
      have hfind := (vfsResolve_ok_iff hnull hp hnames hl.mem (hl.components.isPrefix hp)).mp
        (h.longest m hl)
      obtain ⟨-, as, bs, heq, hnone⟩ := List.find?_eq_some_iff_append.mp hfind
      have hmem : m' ∈ mounts := hsplit ▸ List.mem_append_left _ hm'
      -- both splits are at the one place where `m` is
      have hnd : (before ++ m :: after).Nodup := hsplit ▸ List.Nodup.of_map _ hnames
      have hnot := (List.nodup_cons.mp (List.nodup_middle.mp hnd)).1
      rw [List.mem_append, not_or] at hnot
      have hbefore := ((List.append_cons_inj_of_notMem hnot.1 hnot.2).mp (hsplit ▸ heq)).1
      have hno := hnone m' (hbefore ▸ hm')
      rw [(hmatch m' hmem).mpr hpre] at hno
      simp at hno
    · intro hnone m hm hpre
      have hres := h.missing hnone
      unfold vfsResolve at hres
      rw [if_neg (not_not.mpr hp)] at hres
      cases hf : mounts.find? (mountMatches path) with
      | none => exact List.find?_eq_none.mp hf m hm ((hmatch m hm).mpr hpre)
      | some m' => simp [hf] at hres
  · intro h
    constructor
    · intro m hl
      apply (vfsResolve_ok_iff hnull hp hnames hl.mem (hl.components.isPrefix hp)).mpr
      obtain ⟨before, after, hsplit⟩ := List.append_of_mem hl.mem
      refine List.find?_eq_some_iff_append.mpr ⟨(hmatch m hl.mem).mpr (hl.components.isPrefix hp),
        before, after, hsplit, fun m' hm' => ?_⟩
      have hpre := h.before before m after hsplit hl m' hm'
      have hmem : m' ∈ mounts := hsplit ▸ List.mem_append_left _ hm'
      simpa using fun hc => hpre ((hmatch m' hmem).mp hc)
    · intro hnone
      have hf : mounts.find? (mountMatches path) = none := List.find?_eq_none.mpr fun m hm hc =>
        h.missing hnone m hm ((hmatch m hm).mp hc)
      unfold vfsResolve
      rw [if_neg (not_not.mpr hp), hf]

/-! ## Counterexample -/

/-- "/dev" -/
def devName : List Nat := [0x2F, 0x64, 0x65, 0x76]

/-- "/device.txt" -/
def deviceTxt : List Nat := [0x2F, 0x64, 0x65, 0x76, 0x69, 0x63, 0x65, 0x2E, 0x74, 0x78, 0x74]

theorem devName_mountName : MountName devName :=
  .components [[0x64, 0x65, 0x76]] (by simp) (by simp [SLASH, NoNull])

/-- The mounts of the kernel, by name. -/
def kernelMounts : List (List Nat × String) := [(devName, "devfs"), ([SLASH], "ustar")]

theorem kernelMounts_names : ∀ call ∈ kernelMounts, MountName call.1 := by
  intro call hcall
  rcases List.mem_cons.mp hcall with rfl | hcall
  · exact devName_mountName
  · rw [List.mem_singleton.mp hcall]
    exact .root

theorem kernelMounts_eq : mountAll kernelMounts = [⟨devName, "devfs"⟩, ⟨[SLASH], "ustar"⟩] := rfl

/-- "/fb0" goes to the root, and nothing is in the way. -/
theorem resolves_right_fb0 : ResolvesRight (mountAll kernelMounts) [0x2F, 0x66, 0x62, 0x30] := by
  refine (resolves_right_iff_unshadowed kernelMounts kernelMounts_names
    (by simp [kernelMounts, devName, SLASH]) rfl).mpr ⟨?_, ?_⟩
  · intro before m after hsplit _ m' hm'
    rw [kernelMounts_eq] at hsplit
    rcases before with _ | ⟨first, _ | ⟨second, before⟩⟩
    · cases hm'
    · rw [List.mem_singleton.mp hm', ← (List.cons.inj hsplit).1]
      simp [devName]
    · simp at hsplit
  · intro hnone
    have hroot := hnone ⟨[SLASH], "ustar"⟩ (by simp [kernelMounts_eq])
    exact absurd (.inl rfl) hroot

/-- **A file of the root goes to the devices.** With the mounts of the kernel the
longest component prefix of /device.txt is the root, and it is opened as `ice.txt`
among the devices. With the mounts in the other order /dev is never reached. -/
theorem look_alike_name :
    vfsResolve (mountAll kernelMounts) deviceTxt =
        .ok ("devfs", [0x69, 0x63, 0x65, 0x2E, 0x74, 0x78, 0x74]) ∧
      ¬ResolvesRight (mountAll kernelMounts) deviceTxt ∧
      ¬ResolvesRight (mountAll kernelMounts.reverse) devName := by
  have h1 : vfsResolve (mountAll kernelMounts) deviceTxt =
      .ok ("devfs", [0x69, 0x63, 0x65, 0x2E, 0x74, 0x78, 0x74]) := rfl
  have h2 : vfsResolve (mountAll kernelMounts.reverse) devName =
      .ok ("ustar", [0x64, 0x65, 0x76]) := rfl
  refine ⟨h1, fun h => ?_, fun h => ?_⟩
  · have hl : Longest (mountAll kernelMounts) deviceTxt ⟨[SLASH], "ustar"⟩ := by
      refine ⟨by simp [kernelMounts_eq], .inl rfl, fun m' hm' hc => ?_⟩
      rw [kernelMounts_eq] at hm'
      rcases List.mem_cons.mp hm' with rfl | hm'
      · simp [ComponentPrefix, devName, deviceTxt, SLASH] at hc
      · obtain rfl := List.mem_singleton.mp hm'
        exact Nat.le_refl _
    have := h1.symm.trans (h.longest _ hl)
    simp at this
  · have hl : Longest (mountAll kernelMounts.reverse) devName ⟨devName, "devfs"⟩ := by
      refine ⟨by simp [mountAll_eq, kernelMounts], .inr ⟨List.prefix_rfl, .inl rfl⟩,
        fun m' hm' _ => ?_⟩
      simp only [mountAll_eq, kernelMounts, List.reverse_cons, List.reverse_nil, List.nil_append,
        List.singleton_append, List.map_cons, List.map_nil, List.mem_cons, List.not_mem_nil,
        or_false] at hm'
      rcases hm' with rfl | rfl
      · simp [devName]
      · exact Nat.le_refl _
    have := h2.symm.trans (h.longest _ hl)
    simp at this

end GaOS.Bugs.MountOrder
