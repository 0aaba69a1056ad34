import GaOS.L6Syscall.NodeTable

/-!
# `sys_fork`: duplicating the descriptors

Model of kernel/src/syscalls/sys_fork.c:88-101. The child gets a table of the same size
and the parent's `fd_count`, which is one more than the descriptors in use. The loop
goes up to `fd_count`, skips null slots and duplicates the node behind any other one.

`Duplicating n` says that the slots below `n` are done: the invariant of the loop. What
a slot gets depends on the path of the node (`Copied`).
-/
namespace GaOS.L6.FileTable

open GaOS.L1 GaOS.L1.PageAllocator GaOS.L4.RoundRobin
open GaOS.L4.Files (Stop Mounted NameHeap FileState VfsNode Grown HeapKept Reopens ReadsBack Opens
  SameNode vfsDup vfsDup_spec vfsDup_ok)

section
variable {σ η : Type} (P : PageSource σ) (B : Mounted) (H : NameHeap η)

/-- mirrors kernel/src/syscalls/sys_fork.c:96-100 -/
def dupFd (parent child : Task) (i : Nat) (w : World σ (FileState η)) :
    Except Stop (World σ (FileState η)) :=
  if slot w.machine.mem parent i = 0 then .ok w
  else
    match vfsDup B H (slot w.machine.mem parent i) w.files with
    | .error stop => .error stop
    | .ok (node, files) =>
      .ok ⟨{ w.machine with mem := setSlot w.machine.mem child i node }, files⟩

/-- The first `n` rounds.
mirrors kernel/src/syscalls/sys_fork.c:94-101 -/
def dupFds (parent child : Task) :
    Nat → World σ (FileState η) → Except Stop (World σ (FileState η))
  | 0, w => .ok w
  | n + 1, w =>
    match dupFds parent child n w with
    | .error stop => .error stop
    | .ok w => dupFd B H parent child n w

/-- mirrors kernel/src/syscalls/sys_fork.c:88-101 -/
def sysForkFds (parent child : Task) (w : World σ (FileState η)) :
    Except Stop (Task × World σ (FileState η)) :=
  match w.machine.pageAllocate P parent.fdAllocatedPages with
  | none => .error .panic
  | some (table, machine) =>
    let child := { child with
      fdCount := parent.fdCount
      fdMax := parent.fdMax
      fdAllocatedPages := parent.fdAllocatedPages
      fdTranslation := table }
    (dupFds B H parent child child.fdCount { w with machine := machine }).map fun w => (child, w)

end

variable {σ η : Type} {P : PageStore σ} {B : Mounted} {H : NameHeap η}
  {s : Process σ (FileState η)} {child : Task} {w w' : World σ (FileState η)}

/-! ## The two tables -/

/-- The child's table has the size of the parent's and is apart from it. -/
structure Tables (s : Process σ (FileState η)) (child : Task) : Prop where
  fits : child.fdTranslation + 8 * s.caller.fdMax ≤ 2 ^ 64
  apart : ∀ i j, i < s.caller.fdMax → j < s.caller.fdMax →
    slotAddress s.caller i ≠ child.fdTranslation + 8 * j

theorem Tables.slotAddress (h : Tables s child) {i : Nat} (hi : i < s.caller.fdMax) :
    slotAddress child i = child.fdTranslation + 8 * i := by
  have hf := h.fits
  have e : mul64 8 i = 8 * i := mul64_of_lt (by omega)
  rw [FileTable.slotAddress, e]
  exact add64_of_lt (by omega)

section
variable (h : Tables s child) {i j : Nat} (hi : i < s.caller.fdMax) (hj : j < s.caller.fdMax)
include h hi hj

theorem Tables.slot_child (mem : Mem) (node : Nat) :
    slot (setSlot mem child i node) child j = if j = i then node else slot mem child j := by
  unfold slot setSlot
  split
  · rename_i he
    rw [he, Mem.store_self]
  · rename_i hne
    apply Mem.store_ne
    rw [h.slotAddress hi, h.slotAddress hj]
    omega

theorem Tables.slot_parent (mem : Mem) (node : Nat) :
    slot (setSlot mem child i node) s.caller j = slot mem s.caller j := by
  unfold slot setSlot
  apply Mem.store_ne
  rw [h.slotAddress hi]
  exact h.apart j i hj hi

end

/-! ## The loop -/

/-- What becomes of a node whose path reads back, and of one whose path does not. -/
structure Copied (H : NameHeap η) (s : FileState η) (node node' : VfsNode) : Prop where
  same : ReadsBack H s node → SameNode node node'
  other : ¬ReadsBack H s node → node'.path ≠ node.path

structure Duplicating (H : NameHeap η) (s : Process σ (FileState η)) (child : Task) (n : Nat)
    (w : World σ (FileState η)) : Prop where
  parent : ∀ i, i < s.caller.fdMax →
    slot w.machine.mem s.caller i = slot s.world.machine.mem s.caller i
  heap : HeapKept H s.world.files.heap w.files.heap
  nodes : ∀ a, H.Busy s.world.files.heap a → w.files.nodes a = s.world.files.nodes a
  grown : Grown s.world.files.devices w.files.devices
  null : ∀ i, i < s.caller.fdMax → n ≤ i ∨ slot s.world.machine.mem s.caller i = 0 →
    slot w.machine.mem child i = 0
  copied : ∀ i, i < n → i < s.caller.fdMax → slot s.world.machine.mem s.caller i ≠ 0 →
    slot w.machine.mem child i ≠ 0 ∧ ¬H.Busy s.world.files.heap (slot w.machine.mem child i) ∧
      H.Busy w.files.heap (slot w.machine.mem child i) ∧
      ∃ node node', s.world.files.nodes (slot s.world.machine.mem s.caller i) = some node ∧
        w.files.nodes (slot w.machine.mem child i) = some node' ∧
        Copied H s.world.files node node'
  distinct : ∀ i j, i < n → j < n → i < s.caller.fdMax → j < s.caller.fdMax → i ≠ j →
    slot s.world.machine.mem s.caller i ≠ 0 → slot s.world.machine.mem s.caller j ≠ 0 →
    slot w.machine.mem child i ≠ slot w.machine.mem child j

/-- A path reads as before as long as its block is in use. -/
theorem readsBack_kept {f f' : FileState η} {node : VfsNode} (hk : HeapKept H f.heap f'.heap)
    (hb : H.Busy f.heap node.pathBlock) : ReadsBack H f' node ↔ ReadsBack H f node := by
  unfold ReadsBack
  rw [hk.behind _ hb]

section
variable (hi : NodesInv P B H s) (ht : Tables s child) {n : Nat} (hn : n < s.caller.fdMax)
  (hd : Duplicating H s child n w)
include hi hn hd

/-- The node of a slot that is not null, when its turn comes. -/
theorem Duplicating.turn (hslot : slot s.world.machine.mem s.caller n ≠ 0) :
    ∃ node, (n, slot s.world.machine.mem s.caller n) ∈ s.opened ∧
      s.world.files.nodes (slot s.world.machine.mem s.caller n) = some node ∧
      w.files.nodes (slot s.world.machine.mem s.caller n) = some node ∧
      Reopens B w.files.devices node ∧
      (ReadsBack H w.files node ↔ ReadsBack H s.world.files node) := by
  have hmem := (hi.slots n _ hn hslot).mp rfl
  obtain ⟨node, hheld, hre, -⟩ := hi.live _ hmem
  exact ⟨node, hmem, hheld.1, (hd.nodes _ hheld.2.1).trans hheld.1, hre.grown hd.grown,
    readsBack_kept hd.heap hheld.2.2⟩

omit hi hn in
/-- A null slot is passed over. -/
theorem Duplicating.skip (h0 : slot s.world.machine.mem s.caller n = 0) :
    Duplicating H s child (n + 1) w := by
  refine ⟨hd.parent, hd.heap, hd.nodes, hd.grown, fun i him hc => hd.null i him ?_,
    fun i hin him hne => ?_, fun i j hin hjn him hjm hij hsi hsj => ?_⟩
  · rcases hc with hc | hc
    · exact .inl (by omega)
    · exact .inr hc
  · have hne' : i ≠ n := fun he => hne (he ▸ h0)
    exact hd.copied i (by omega) him hne
  · have h1 : i ≠ n := fun he => hsi (he ▸ h0)
    have h2 : j ≠ n := fun he => hsj (he ▸ h0)
    exact hd.distinct i j (by omega) (by omega) him hjm hij hsi hsj

include ht in
omit hi in
/-- The duplicate `a` of the node in slot `n` is stored. -/
theorem Duplicating.place (hslot : slot s.world.machine.mem s.caller n ≠ 0) {a : Nat}
    {node new : VfsNode} {files : FileState η} (hopens : Opens H w.files files a new)
    (hnode : s.world.files.nodes (slot s.world.machine.mem s.caller n) = some node)
    (hcopied : Copied H s.world.files node new) :
    Duplicating H s child (n + 1)
      ⟨{ w.machine with mem := setSlot w.machine.mem child n a }, files⟩ := by
  have hchild : ∀ i, i < s.caller.fdMax →
      slot (setSlot w.machine.mem child n a) child i =
        if i = n then a else slot w.machine.mem child i :=
    fun i him => ht.slot_child hn him _ _
  -- what was in use is not at the new address
  have hfresh : ∀ x, H.Busy w.files.heap x → x ≠ a := fun x hx he => hopens.fresh.1 (he ▸ hx)
  have hold : ∀ x, x ≠ a → files.nodes x = w.files.nodes x := fun x hx => by
    rw [hopens.nodes, Function.update_of_ne hx]
  have hearlier : ∀ k, k < n + 1 → k < s.caller.fdMax → k ≠ n →
      slot s.world.machine.mem s.caller k ≠ 0 → slot w.machine.mem child k ≠ a := by
    intro k hk hkm hkn hsk
    exact hfresh _ (hd.copied k (by omega) hkm hsk).2.2.1
  refine ⟨fun i him => ?_, hd.heap.trans hopens.heap, fun x hx => ?_,
    hd.grown.trans hopens.grown, fun i him hc => ?_, fun i hin him hne => ?_,
    fun i j hin hjn him hjm hij hsi hsj => ?_⟩
  · rw [← hd.parent i him]
    exact ht.slot_parent hn him _ _
  · rw [hold x (hfresh x (hd.heap.busy x hx))]
    exact hd.nodes x hx
  · have hne : i ≠ n := by
      rintro rfl
      rcases hc with hc | hc
      · omega
      · exact hslot hc
    rw [hchild i him, if_neg hne]
    refine hd.null i him ?_
    rcases hc with hc | hc
    · exact .inl (by omega)
    · exact .inr hc
  · rw [hchild i him]
    by_cases he : i = n
    · rw [if_pos he, he]
      refine ⟨hopens.pos.1, fun hb => hopens.fresh.1 (hd.heap.busy a hb), hopens.taken.1, node,
        new, hnode, ?_, hcopied⟩
      rw [hopens.nodes, Function.update_self]
    · rw [if_neg he]
      obtain ⟨h1, h2, h3, old, old', h4, h5, h6⟩ := hd.copied i (by omega) him hne
      refine ⟨h1, h2, hopens.heap.busy _ h3, old, old', h4, ?_, h6⟩
      rw [hold _ (hfresh _ h3)]
      exact h5
  · rw [hchild i him, hchild j hjm]
    by_cases hie : i = n
    · have hje : j ≠ n := fun he => hij (hie.trans he.symm)
      rw [if_pos hie, if_neg hje]
      exact Ne.symm (hearlier j hjn hjm hje hsj)
    · by_cases hje : j = n
      · rw [if_neg hie, if_pos hje]
        exact hearlier i hin him hie hsi
      · rw [if_neg hie, if_neg hje]
        exact hd.distinct i j (by omega) (by omega) him hjm hij hsi hsj

include ht in
/-- **One round.** -/
theorem Duplicating.step (hs : dupFd B H s.caller child n w = .ok w') :
    Duplicating H s child (n + 1) w' := by
  unfold dupFd at hs
  rw [hd.parent n hn] at hs
  split at hs
  · rename_i h0
    cases hs
    exact hd.skip h0
  · rename_i hslot
    obtain ⟨node, -, hnode, hnode', hre, hrb⟩ := hd.turn hi hn hslot
    split at hs
    · cases hs
    · rename_i a files hdup
      cases hs
      obtain ⟨new, hopens, hsame, hother⟩ := vfsDup_ok hnode' hre hdup
      exact hd.place ht hn hslot hopens hnode
        ⟨fun hr => hsame (hrb.mpr hr), fun hr => hother fun hr' => hr (hrb.mp hr')⟩

/-- A round with a path that reads back goes wrong only by a panic. -/
theorem Duplicating.stops {stop : Stop} (hs : dupFd B H s.caller child n w = .error stop)
    (hall : ∀ e ∈ s.opened, ∀ node, s.world.files.nodes e.2 = some node →
      ReadsBack H s.world.files node) : stop = .panic := by
  unfold dupFd at hs
  rw [hd.parent n hn] at hs
  split at hs
  · cases hs
  · rename_i hslot
    obtain ⟨node, hmem, hnode, hnode', hre, hrb⟩ := hd.turn hi hn hslot
    rcases vfsDup_spec hnode' hre (hrb.mpr (hall _ hmem node hnode)) with hp | ⟨a, f, new, hok, -⟩
    · rw [hp] at hs
      cases hs
      rfl
    · rw [hok] at hs
      cases hs

end

/-- **The loop.** -/
theorem dupFds_spec (hi : NodesInv P B H s) (ht : Tables s child)
    (h₀ : Duplicating H s child 0 w) (n : Nat) (hn : n ≤ s.caller.fdMax) :
    (∀ w', dupFds B H s.caller child n w = .ok w' → Duplicating H s child n w') ∧
      ∀ stop, dupFds B H s.caller child n w = .error stop →
        (∀ e ∈ s.opened, ∀ node, s.world.files.nodes e.2 = some node →
          ReadsBack H s.world.files node) → stop = .panic := by
  induction n with
  | zero =>
    refine ⟨fun w' hw => ?_, fun stop hw _ => by cases hw⟩
    cases hw
    exact h₀
  | succ n ih =>
    obtain ⟨hok, hstop⟩ := ih (Nat.le_of_succ_le hn)
    rw [dupFds]
    cases hrest : dupFds B H s.caller child n w with
    | error e =>
      refine ⟨nofun, fun stop hw hall => ?_⟩
      cases hw
      exact hstop _ hrest hall
    | ok w₁ =>
      have hd := hok w₁ hrest
      exact ⟨fun w' hw => hd.step hi ht (Nat.lt_of_succ_le hn) hw,
        fun stop hw hall => hd.stops hi (Nat.lt_of_succ_le hn) hw hall⟩

/-! ## The child's table -/

section
variable (hi : NodesInv P B H s) {table : Nat} {machine : Machine σ}
  (hp : s.world.machine.pageAllocate P.toPageSource s.caller.fdAllocatedPages =
    some (table, machine))
include hi hp

/-- The pages that are taken for the child. -/
theorem forkTable_grant :
    Grant P.hhdm (P.Free s.world.machine.src) (P.Free machine.src)
        (P.remaining s.world.machine.src) (P.remaining machine.src) table s.table.pages ∧
      machine.mem = s.world.machine.mem.zero table (max s.table.pages 1 * PAGE) := by
  rw [hi.pages_eq] at hp
  refine Machine.pageAllocate_grant ?_ hp
  have := hi.fits
  simp only [PAGE] at this
  omega

/-- The parent's slots are not in them. -/
theorem forkTable_outside {i : Nat} (h : i < s.caller.fdMax) :
    slotAddress s.caller i < table ∨ table + max s.table.pages 1 * PAGE ≤ slotAddress s.caller i := by
  obtain ⟨hg, -⟩ := forkTable_grant hi hp
  obtain ⟨haddr, hin⟩ := hi.toFdInv.slotAddress h
  rw [haddr]
  by_contra hc
  have h1 := hi.aligned
  have h2 := hg.aligned
  have h3 := hin.2
  have hk : 8 * i / PAGE < s.table.pages := by
    simp only [PAGE] at *; omega
  -- the page of the slot would be one of the new ones
  have hfree := hg.fresh ((s.table.base + 8 * i - table) / PAGE) (by simp only [PAGE] at *; omega)
  refine hi.table_taken _ hk ?_
  have he : s.table.base + 8 * i / PAGE * PAGE =
      table + (s.table.base + 8 * i - table) / PAGE * PAGE := by
    simp only [PAGE] at *; omega
  rw [he]
  exact hfree

theorem forkTable_tables (hc : child.fdTranslation = table) : Tables s child := by
  obtain ⟨hg, -⟩ := forkTable_grant hi hp
  have hmax := hi.max_eq
  rw [hi.pages_eq] at hmax
  have hroom : 8 * s.caller.fdMax ≤ max s.table.pages 1 * PAGE := by
    simp only [PAGE] at *; omega
  refine ⟨?_, fun i j him hjm he => ?_⟩
  · have := hg.below
    rw [hc]
    omega
  · have hout := forkTable_outside hi hp him
    rw [he, hc] at hout
    omega

/-- Before the first round. -/
theorem forkTable_start (hc : child.fdTranslation = table) :
    Duplicating H s child 0 { s.world with machine := machine } := by
  obtain ⟨hg, hmem⟩ := forkTable_grant hi hp
  have ht := forkTable_tables hi hp hc
  have hmax := hi.max_eq
  rw [hi.pages_eq] at hmax
  refine ⟨fun i him => ?_, HeapKept.refl _, fun _ _ => rfl, Grown.refl _, fun i him _ => ?_,
    fun i hin => absurd hin (Nat.not_lt_zero i), fun i j hin => absurd hin (Nat.not_lt_zero i)⟩
  · simp only [slot, hmem]
    exact Mem.zero_out _ (forkTable_outside hi hp him)
  · simp only [slot, hmem, ht.slotAddress him, hc]
    exact Mem.zero_in _ (Nat.le_add_right _ _) (by simp only [PAGE] at *; omega)

end

/-- **The child's descriptors.** With room in the parent's table the loop stays in both
tables. -/
theorem sysForkFds_spec (hi : NodesInv P B H s) (hroom : s.opened.length < s.caller.fdMax)
    (task : Task) :
    (∀ child w, sysForkFds P.toPageSource B H s.caller task s.world = .ok (child, w) →
        Duplicating H s child s.caller.fdCount w) ∧
      ∀ stop, sysForkFds P.toPageSource B H s.caller task s.world = .error stop →
        (∀ e ∈ s.opened, ∀ node, s.world.files.nodes e.2 = some node →
          ReadsBack H s.world.files node) → stop = .panic := by
  have hcount : s.caller.fdCount ≤ s.caller.fdMax := by
    rw [hi.count]
    exact hroom
  unfold sysForkFds
  cases hp : s.world.machine.pageAllocate P.toPageSource s.caller.fdAllocatedPages with
  | none =>
    refine ⟨nofun, fun stop hs _ => ?_⟩
    cases hs
    rfl
  | some r =>
    obtain ⟨table, machine⟩ := r
    simp only
    generalize hc : ({ task with
      fdCount := s.caller.fdCount
      fdMax := s.caller.fdMax
      fdAllocatedPages := s.caller.fdAllocatedPages
      fdTranslation := table } : Task) = child
    have hbase : child.fdTranslation = table := by rw [← hc]
    obtain ⟨hok, hstop⟩ := dupFds_spec hi (forkTable_tables hi hp hbase)
      (forkTable_start hi hp hbase) s.caller.fdCount hcount
    cases hloop : dupFds B H s.caller child s.caller.fdCount { s.world with machine := machine } with
    | error e =>
      refine ⟨nofun, fun stop hs hall => ?_⟩
      cases hs
      exact hstop _ hloop hall
    | ok w₁ =>
      refine ⟨fun child' w hs => ?_, nofun⟩
      simp only [Except.map, Except.ok.injEq, Prod.mk.injEq] at hs
      rw [← hs.1, ← hs.2]
      exact hok w₁ hloop

end GaOS.L6.FileTable
