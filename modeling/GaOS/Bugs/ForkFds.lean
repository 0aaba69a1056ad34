import GaOS.L6Syscall.ForkFiles

/-!
# Fork loses descriptors

`sys_fork` duplicates the descriptors below `fd_count`
(kernel/src/syscalls/sys_fork.c:94-101). `fd_count` is one more than the number of open
descriptors, so after a close of a low descriptor the highest ones are not duplicated:
the parent has them, the child does not.

A duplicate is made by opening the path of the node again, and the path is stored
without its null. One whose length is a positive multiple of 16 reads on with what is
behind its block: something else is opened, or nothing, and then the answer of the
failed open is used as a node.

`duplicated_iff_dense` is the exact condition, for tables that are not full. In a full
table the loop goes one slot past the end of both tables.

Counterexample: open three files, close 0 and 1, fork.

Fix: loop up to `fd_max`, and terminate stored paths.
-/
namespace GaOS.Bugs.ForkFds

open GaOS.L1 GaOS.L1.PageAllocator GaOS.L4 GaOS.L4.RoundRobin GaOS.L4.Files GaOS.L6.FileTable

variable {σ η : Type} {P : PageStore σ} {B : Mounted} {H : NameHeap η}
  {text : Nat → World σ (FileState η) → List Nat} {s : Process σ (FileState η)}
  {child task : Task} {w : World σ (FileState η)}

/-! ## What should hold -/

/-- Every open descriptor of the parent has a copy in the child: a node of its own that
is the same but for where its path is kept. The parent is as it was. -/
structure Duplicated (s : Process σ (FileState η)) (child : Task) (w : World σ (FileState η)) :
    Prop where
  null : ∀ i, i < s.caller.fdMax →
    (slot w.machine.mem child i = 0 ↔ slot s.world.machine.mem s.caller i = 0)
  copies : ∀ i, i < s.caller.fdMax → slot s.world.machine.mem s.caller i ≠ 0 →
    ∃ node node', s.world.files.nodes (slot s.world.machine.mem s.caller i) = some node ∧
      w.files.nodes (slot w.machine.mem child i) = some node' ∧ SameNode node node'
  apart : ∀ i j, i < s.caller.fdMax → j < s.caller.fdMax →
    slot s.world.machine.mem s.caller i ≠ 0 →
    slot w.machine.mem child i ≠ slot s.world.machine.mem s.caller j
  distinct : ∀ i j, i < s.caller.fdMax → j < s.caller.fdMax → i ≠ j →
    slot s.world.machine.mem s.caller i ≠ 0 →
    slot w.machine.mem child i ≠ slot w.machine.mem child j
  table : ∀ i, i < s.caller.fdMax →
    slot w.machine.mem s.caller i = slot s.world.machine.mem s.caller i
  nodes : ∀ i, i < s.caller.fdMax → slot s.world.machine.mem s.caller i ≠ 0 →
    w.files.nodes (slot s.world.machine.mem s.caller i) =
      s.world.files.nodes (slot s.world.machine.mem s.caller i)

/-- No open descriptor is greater than the number of open ones. -/
def Dense (s : Process σ (FileState η)) : Prop :=
  ∀ e ∈ s.opened, e.1 ≤ s.opened.length

/-- The paths of all open nodes read back. -/
def PathsRead (H : NameHeap η) (s : Process σ (FileState η)) : Prop :=
  ∀ e ∈ s.opened, ∀ node, s.world.files.nodes e.2 = some node → ReadsBack H s.world.files node

/-! ## The condition -/

section
variable (hi : NodesInv P B H s) (hd : Duplicating H s child s.caller.fdCount w)
include hi hd

theorem dense_of_duplicated (h : Duplicated s child w) : Dense s := by
  intro e he
  obtain ⟨hlt, hne⟩ := hi.inside e he
  have hslot := (hi.slots e.1 e.2 hlt hne).mpr he
  by_contra hgt
  have hnull := hd.null e.1 hlt (.inl (by rw [hi.count]; omega))
  rw [h.null e.1 hlt, hslot] at hnull
  exact hne hnull

theorem pathsRead_of_duplicated (h : Duplicated s child w) : PathsRead H s := by
  intro e he node hnode
  obtain ⟨hlt, hne⟩ := hi.inside e he
  have hslot := (hi.slots e.1 e.2 hlt hne).mpr he
  have hdense := dense_of_duplicated hi hd h e he
  have hin : slot s.world.machine.mem s.caller e.1 ≠ 0 := hslot ▸ hne
  obtain ⟨-, -, -, old, new, hold, hnew, hcopied⟩ :=
    hd.copied e.1 (by rw [hi.count]; omega) hlt hin
  obtain ⟨old', new', hold', hnew', hsame⟩ := h.copies e.1 hlt hin
  obtain rfl : old = old' := Option.some.inj (hold.symm.trans hold')
  obtain rfl : new = new' := Option.some.inj (hnew.symm.trans hnew')
  obtain rfl : old = node := Option.some.inj (hold.symm.trans (hslot ▸ hnode))
  by_contra hrb
  refine hcopied.other hrb ?_
  rw [hsame]

theorem duplicated_of_dense (hdense : Dense s) (hread : PathsRead H s) : Duplicated s child w := by
  -- a slot that is not null is one that the loop has reached, with a node in use
  have hopen : ∀ i, i < s.caller.fdMax → slot s.world.machine.mem s.caller i ≠ 0 →
      i < s.caller.fdCount ∧ (i, slot s.world.machine.mem s.caller i) ∈ s.opened ∧
        H.Busy s.world.files.heap (slot s.world.machine.mem s.caller i) := by
    intro i hlt hne
    have hmem := (hi.slots i _ hlt hne).mp rfl
    obtain ⟨node, hheld, -⟩ := hi.live _ hmem
    have hle : i ≤ s.opened.length := hdense _ hmem
    exact ⟨by rw [hi.count]; omega, hmem, hheld.2.1⟩
  refine ⟨fun i hlt => ?_, fun i hlt hne => ?_, fun i j hlt hjlt hne he => ?_,
    fun i j hlt hjlt hij hne he => ?_, hd.parent, fun i hlt hne => hd.nodes _ (hopen i hlt hne).2.2⟩
  · constructor
    · intro h0
      by_contra hne
      exact (hd.copied i (hopen i hlt hne).1 hlt hne).1 h0
    · intro h0
      exact hd.null i hlt (.inr h0)
  · obtain ⟨-, -, -, node, node', hnode, hnode', hcopied⟩ :=
      hd.copied i (hopen i hlt hne).1 hlt hne
    exact ⟨node, node', hnode, hnode', hcopied.same (hread _ (hopen i hlt hne).2.1 node hnode)⟩
  · obtain ⟨h0, hfresh, -⟩ := hd.copied i (hopen i hlt hne).1 hlt hne
    by_cases hj : slot s.world.machine.mem s.caller j = 0
    · exact h0 (he.trans hj)
    · exact hfresh (he ▸ (hopen j hjlt hj).2.2)
  · by_cases hj : slot s.world.machine.mem s.caller j = 0
    · rw [hd.null j hjlt (.inr hj)] at he
      exact (hd.copied i (hopen i hlt hne).1 hlt hne).1 he
    · exact hd.distinct i j (hopen i hlt hne).1 (hopen j hjlt hj).1 hlt hjlt hij hne hj he

end

/-- **When fork duplicates every descriptor.** In every state of every run of the calls in
which `sys_open` always found room, with fewer than `fd_max` descriptors open and unless an
allocator panics: the descriptors are duplicated exactly if none of them is greater than
their number and all paths read back. -/
theorem duplicated_iff_dense (hs : (nodesLTS P B H text).Reachable s)
    (hroom : s.opened.length < s.caller.fdMax)
    (hpanic : sysForkFds P.toPageSource B H s.caller task s.world ≠ .error .panic) :
    (∃ child w, sysForkFds P.toPageSource B H s.caller task s.world = .ok (child, w) ∧
      Duplicated s child w) ↔ Dense s ∧ PathsRead H s := by
  have hi := (nodes_inductive P B H text).reachable hs
  obtain ⟨hok, hstop⟩ := sysForkFds_spec hi hroom task
  constructor
  · intro ⟨child, w, hf, hdup⟩
    have hd := hok child w hf
    exact ⟨dense_of_duplicated hi hd hdup, pathsRead_of_duplicated hi hd hdup⟩
  · intro ⟨hdense, hread⟩
    cases hf : sysForkFds P.toPageSource B H s.caller task s.world with
    | error stop => exact absurd (by rw [hf, hstop stop hf hread]) hpanic
    | ok r =>
      obtain ⟨child, w⟩ := r
      exact ⟨child, w, rfl, duplicated_of_dense hi (hok child w hf) hdense hread⟩

/-! ## Runs of calls that succeed -/

/-- `sys_open` with an answer that is a descriptor. -/
def openFd (P : PageStore σ) (B : Mounted) (H : NameHeap η)
    (text : Nat → World σ (FileState η) → List Nat) (path : Nat) (s : Process σ (FileState η)) :
    Option (Process σ (FileState η)) :=
  match (fileVfs B H text).openNode path 0 s.world,
    sysOpen P (fileVfs B H text) 1 path 0 s.world s.caller with
  | (.ok node, _), some (.ok fd, log, w, caller) =>
    if node ≠ 0 ∧ s.opened.length < s.caller.fdMax then
      some ⟨w, caller, tableAfter s.table log, (fd, node) :: s.opened⟩
    else none
  | _, _ => none

/-- `sys_close` of an open descriptor. -/
def closeFd (B : Mounted) (H : NameHeap η) (text : Nat → World σ (FileState η) → List Nat)
    (fd : Nat) (s : Process σ (FileState η)) : Option (Process σ (FileState η)) :=
  match sysClose (fileVfs B H text) fd s.world s.caller with
  | .error _ => none
  | .ok (w, caller) => some ⟨w, caller, s.table, s.opened.filter (·.1 ≠ fd)⟩

theorem openFd_reachable {t : Process σ (FileState η)} {path : Nat}
    (hs : (nodesLTS P B H text).Reachable s) (h : openFd P B H text path s = some t) :
    (nodesLTS P B H text).Reachable t := by
  have hi := (nodes_inductive P B H text).reachable hs
  unfold openFd at h
  split at h
  · rename_i node _ fd log w caller hopen hsys
    split at h
    · rename_i hok
      cases h
      refine hs.step (l := .table (.opened log fd node)) ⟨nofun,
        ⟨1, path, 0, hsys, congrArg Prod.fst hopen, hok.1, fun x _ => ?_, rfl, rfl⟩,
        fun _ _ _ _ => hi.toFdInv.room_iff.mpr hok.2⟩
      rw [openNode_machine]
    · cases h
  · cases h

theorem closeFd_reachable {t : Process σ (FileState η)} {fd : Nat}
    (hs : (nodesLTS P B H text).Reachable s) (h : closeFd B H text fd s = some t) :
    (nodesLTS P B H text).Reachable t := by
  unfold closeFd at h
  split at h
  · cases h
  · rename_i w caller hsys
    cases h
    exact hs.step (l := .table (.closed fd)) ⟨nofun, ⟨hsys, fun _ _ => rfl, rfl, rfl⟩,
      fun _ _ _ => nofun⟩

/-! ## A small kernel

The archive has the file ini, every block of the heap is a new one, and the string at any
pointer of the caller is /ini. -/

/-- The last block that was handed out, and the blocks in use. -/
structure SmallBlocks where
  last : Nat
  busy : List Nat

def smallNames : NameHeap SmallBlocks where
  allocate _ h := some (h.last + 1, ⟨h.last + 1, (h.last + 1) :: h.busy⟩)
  deallocate a h := { h with busy := h.busy.filter (· ≠ a) }
  Busy h x := x ∈ h.busy ∧ x ≤ h.last
  grant n h a h' ha := by
    simp only [Option.some.injEq, Prod.mk.injEq] at ha
    obtain ⟨rfl, rfl⟩ := ha
    refine ⟨by omega, fun hb => by omega, fun x => ?_⟩
    simp only [List.mem_cons]
    constructor
    · rintro ⟨rfl | hx, hle⟩
      · exact .inl rfl
      · by_cases he : x = h.last + 1
        · exact .inl he
        · exact .inr ⟨hx, by omega⟩
    · rintro (rfl | ⟨hx, hle⟩)
      · exact ⟨.inl rfl, Nat.le_refl _⟩
      · exact ⟨.inr hx, by omega⟩
  returned h a _ x := by
    simp only [List.mem_filter, decide_eq_true_eq]
    tauto
  behind _ _ := some []
  allocate_behind _ _ _ _ _ _ _ := Iff.rfl
  deallocate_behind _ _ _ _ _ := Iff.rfl

def smallPages : PageStore Nat :=
  { bumpSource 0xFFFF800000000000 64 hhdm_aligned pages64_physical pages64_end with
    deallocate := fun src _ _ => src }

def smallFiles : Mounted where
  archive := [⟨[0x69, 0x6E, 0x69], ⟨5, fun _ => 0, Ustar.zero_byte⟩⟩]
  mounts := [⟨[SLASH], .ustar⟩]

def ini : Nat → World Nat (FileState SmallBlocks) → List Nat := fun _ _ => [0x2F, 0x69, 0x6E, 0x69]

abbrev SmallProcess := Process Nat (FileState SmallBlocks)

def newProcess : Option SmallProcess :=
  ((⟨smallMem, 0⟩ : Machine Nat).pageAllocate smallPages.toPageSource 1).map fun (fds, machine) =>
    ⟨⟨machine, ⟨fun _ => none, [], ⟨0, []⟩⟩⟩, newTask "init" 1 0 fds (fun _ => 0), ⟨fds, 1⟩, []⟩

theorem newProcess_reachable {t : SmallProcess} (h : newProcess = some t) :
    (nodesLTS smallPages smallFiles smallNames ini).Reachable t := by
  unfold newProcess at h
  obtain ⟨⟨fds, machine⟩, hp, ht⟩ := Option.map_eq_some_iff.mp h
  subst ht
  exact .init ⟨_, "init", 1, 0, fds, fun _ => 0, hp, ⟨rfl, rfl, rfl, rfl⟩, rfl, rfl⟩

def openIni : SmallProcess → Option SmallProcess := openFd smallPages smallFiles smallNames ini smallPath

/-- /ini is opened once. -/
def oneOpen : Option SmallProcess := newProcess.bind openIni

/-- /ini is opened three times, and the first two are closed. -/
def twoClosed : Option SmallProcess :=
  (((oneOpen.bind openIni).bind openIni).bind (closeFd smallFiles smallNames ini 0)).bind
    (closeFd smallFiles smallNames ini 1)

/-- The descriptors, the size of the table, and slot 2 of the parent and of the child after
the fork. -/
def forked (s : SmallProcess) : List (Nat × Nat) × Nat × Option (Nat × Nat) :=
  (s.opened, s.caller.fdMax,
    match sysForkFds smallPages.toPageSource smallFiles smallNames s.caller s.caller s.world with
    | .error _ => none
    | .ok (child, w) => some (slot s.world.machine.mem s.caller 2, slot w.machine.mem child 2))

theorem oneOpen_forked : oneOpen.map forked = some ([(0, 1)], 512, some (0, 0)) := by
  decide +kernel

theorem twoClosed_forked : twoClosed.map forked = some ([(2, 5)], 512, some (5, 0)) := by
  decide +kernel

theorem oneOpen_reachable {s : SmallProcess} (h : oneOpen = some s) :
    (nodesLTS smallPages smallFiles smallNames ini).Reachable s := by
  obtain ⟨s₀, h₀, h⟩ := Option.bind_eq_some_iff.mp h
  exact openFd_reachable (newProcess_reachable h₀) h

theorem twoClosed_reachable {s : SmallProcess} (h : twoClosed = some s) :
    (nodesLTS smallPages smallFiles smallNames ini).Reachable s := by
  simp only [twoClosed, Option.bind_eq_some_iff] at h
  obtain ⟨s₄, ⟨s₃, ⟨s₂, ⟨s₁, h₁, h₂⟩, h₃⟩, h₄⟩, h⟩ := h
  have hs₂ := openFd_reachable (oneOpen_reachable h₁) h₂
  have hs₄ := closeFd_reachable (openFd_reachable hs₂ h₃) h₄
  exact closeFd_reachable hs₄ h

theorem forked_ok {s : SmallProcess} {opened : List (Nat × Nat)} {max a b : Nat}
    (h : forked s = (opened, max, some (a, b))) : s.opened = opened ∧ s.caller.fdMax = max ∧
      ∃ child w, sysForkFds smallPages.toPageSource smallFiles smallNames s.caller s.caller s.world =
        .ok (child, w) ∧ slot s.world.machine.mem s.caller 2 = a ∧ slot w.machine.mem child 2 = b := by
  simp only [forked, Prod.mk.injEq] at h
  obtain ⟨ho, hm, h⟩ := h
  split at h
  · cases h
  · rename_i child w hf
    simp only [Option.some.injEq, Prod.mk.injEq] at h
    exact ⟨ho, hm, child, w, hf, h⟩

/-- One open file is duplicated. -/
theorem one_duplicated : ∃ s, (nodesLTS smallPages smallFiles smallNames ini).Reachable s ∧
    s.opened = [(0, 1)] ∧ ∃ child w,
      sysForkFds smallPages.toPageSource smallFiles smallNames s.caller s.caller s.world =
        .ok (child, w) ∧ Duplicated s child w := by
  obtain ⟨s, hs, hf⟩ := Option.map_eq_some_iff.mp oneOpen_forked
  obtain ⟨ho, hm, child, w, hok, -⟩ := forked_ok hf
  have hreach := oneOpen_reachable hs
  refine ⟨s, hreach, ho, (duplicated_iff_dense hreach ?_ ?_).mpr ⟨fun e he => ?_, ?_⟩⟩
  · rw [ho, hm]
    decide
  · rw [hok]
    nofun
  · rw [ho, List.mem_singleton] at he
    rw [he]
    exact Nat.zero_le _
  · exact fun _ _ _ _ => .inr (.inr rfl)

/-- **A descriptor that is lost.** Descriptor 2 is open, and fork leaves it out. -/
theorem high_descriptor_lost : ∃ s, (nodesLTS smallPages smallFiles smallNames ini).Reachable s ∧
    s.opened = [(2, 5)] ∧ s.opened.length < s.caller.fdMax ∧ ∃ child w,
      sysForkFds smallPages.toPageSource smallFiles smallNames s.caller s.caller s.world =
        .ok (child, w) ∧ ¬Duplicated s child w := by
  obtain ⟨s, hs, hf⟩ := Option.map_eq_some_iff.mp twoClosed_forked
  obtain ⟨ho, hm, child, w, hok, hparent, hchild⟩ := forked_ok hf
  refine ⟨s, twoClosed_reachable hs, ho, by rw [ho, hm]; decide, child, w, hok, fun hdup => ?_⟩
  have h0 := (hdup.null 2 (by rw [hm]; decide)).mp hchild
  rw [hparent] at h0
  cases h0

end GaOS.Bugs.ForkFds
