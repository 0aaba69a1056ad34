import GaOS.L1Memory.PageExclusive
import GaOS.L6Syscall.FileTable

/-!
# Runs of the descriptor calls

A task as `task_scheduler_round_robin_create` makes it, with a table of one zeroed
page, and then any run of `sys_open` and `sys_close` by it. Two ghosts go along:
`table` is the range that the page allocator last handed out for
`fd_translation`, and `opened` the descriptors that `sys_open` returned and that
were not closed since, with their nodes.

`FdInv` ties the fields of the task and the words of the table to the ghosts. It
is kept as long as every `sys_open` finds a free slot below `fd_max` (`Room`);
`roomLTS` has these runs. What happens without room is in `Bugs.FdGrowth`.

The VFS and the rest of the kernel leave the pages of the table alone (`Keeps`):
they belong to the task, and no page has two owners.
-/
namespace GaOS.L6.FileTable

open GaOS.L1 GaOS.L1.PageAllocator GaOS.L2.TableManager GaOS.L4.RoundRobin

structure Process (σ ρ : Type) where
  world : World σ ρ
  caller : Task
  /-- ghost: the pages handed out for the table -/
  table : Range
  /-- ghost: the descriptors in use and their nodes -/
  opened : List (Nat × Nat)

inductive FdEvent where
  /-- `sys_open` stored `node` and returned `fd` -/
  | opened (log : List Access) (fd node : Nat)
  | refused (error : Int)
  | closed (fd : Nat)
  | badFd (fd : Nat)
  /-- anything else that happens in between -/
  | other

section
variable {σ ρ : Type}

/-- The words of the range are the same. -/
def Keeps (r : Range) (m m' : Machine σ) : Prop := ∀ x, r.Has x → m'.mem x = m.mem x

/-- The table after the accesses. -/
def tableAfter (table : Range) : List Access → Range
  | [] => table
  | .reallocate _ _ newPages newBase :: log => tableAfter ⟨newBase, newPages⟩ log
  | _ :: log => tableAfter table log

/-- The fields of a task that the calls on descriptors use. -/
def SameFds (t t' : Task) : Prop :=
  t'.fdCount = t.fdCount ∧ t'.fdMax = t.fdMax ∧ t'.fdTranslation = t.fdTranslation ∧
    t'.fdAllocatedPages = t.fdAllocatedPages

def fdLTS (P : PageStore σ) (V : Vfs σ ρ) : LTS (Process σ ρ) FdEvent where
  init s := ∃ (m : Machine σ) (name : String) (id stack fds : Nat) (simd : SimdState),
    m.pageAllocate P.toPageSource 1 = some (fds, s.world.machine) ∧
    SameFds (newTask name id stack fds simd) s.caller ∧ s.table = ⟨fds, 1⟩ ∧ s.opened = []
  step s e t := match e with
    | .opened log fd node => ∃ rounds path oflag,
        sysOpen P V rounds path oflag s.world s.caller = some (.ok fd, log, t.world, t.caller) ∧
        (V.openNode path oflag s.world).1 = .ok node ∧ node ≠ 0 ∧
        Keeps s.table s.world.machine (V.openNode path oflag s.world).2.machine ∧
        t.table = tableAfter s.table log ∧ t.opened = (fd, node) :: s.opened
    | .refused error => ∃ rounds path oflag,
        sysOpen P V rounds path oflag s.world s.caller =
          some (.error error, [], t.world, t.caller) ∧
        Keeps s.table s.world.machine t.world.machine ∧
        t.table = s.table ∧ t.opened = s.opened
    | .closed fd => sysClose V fd s.world s.caller = .ok (t.world, t.caller) ∧
        Keeps s.table s.world.machine
          (V.close (slot s.world.machine.mem s.caller fd) s.world).machine ∧
        t.table = s.table ∧ t.opened = s.opened.filter (·.1 ≠ fd)
    | .badFd fd => sysClose V fd s.world s.caller = .error (-EBADF) ∧ t = s
    | .other => SameFds s.caller t.caller ∧ Keeps s.table s.world.machine t.world.machine ∧
        t.table = s.table ∧ t.opened = s.opened

/-- Some slot of the table is free. -/
def Room (s : Process σ ρ) : Prop :=
  ∃ fd, fd < s.caller.fdMax ∧ slot s.world.machine.mem s.caller fd = 0

/-- The runs in which `sys_open` always finds room. -/
def roomLTS (P : PageStore σ) (V : Vfs σ ρ) : LTS (Process σ ρ) FdEvent where
  init := (fdLTS P V).init
  step s e t := (fdLTS P V).step s e t ∧ ∀ log fd node, e = .opened log fd node → Room s

end

/-! ## The search -/

theorem findSlot_spec (slots : Nat → Nat) : ∀ left fd,
    fd ≤ findSlot slots left fd ∧ findSlot slots left fd ≤ fd + left ∧
      (∀ j, fd ≤ j → j < findSlot slots left fd → slots j ≠ 0) ∧
      (findSlot slots left fd < fd + left → slots (findSlot slots left fd) = 0)
  | 0, fd => by
    simp only [findSlot]
    exact ⟨Nat.le_refl _, Nat.le_refl _, fun j h1 h2 => by omega, fun h => by omega⟩
  | left + 1, fd => by
    simp only [findSlot]
    split
    · rename_i hne
      obtain ⟨h1, h2, h3, h4⟩ := findSlot_spec slots left (fd + 1)
      refine ⟨by omega, by omega, fun j hj1 hj2 => ?_, fun h => h4 (by omega)⟩
      rcases Nat.eq_or_lt_of_le hj1 with rfl | hj1
      · exact hne
      · exact h3 j hj1 hj2
    · rename_i heq
      exact ⟨Nat.le_refl _, by omega, fun j h1 h2 => by omega, fun _ => not_not.mp heq⟩

/-- With a free slot below `max` the search ends at the first one. -/
theorem findSlot_of_free (slots : Nat → Nat) {max j : Nat} (hj : j < max) (h0 : slots j = 0) :
    findSlot slots (max + 1) 0 < max ∧ slots (findSlot slots (max + 1) 0) = 0 ∧
      ∀ i, i < findSlot slots (max + 1) 0 → slots i ≠ 0 := by
  obtain ⟨-, -, h3, h4⟩ := findSlot_spec slots (max + 1) 0
  have hle : findSlot slots (max + 1) 0 ≤ j := by
    by_contra hlt
    exact h3 j (Nat.zero_le _) (by omega) h0
  exact ⟨by omega, h4 (by omega), fun i hi => h3 i (Nat.zero_le _) hi⟩

/-- Without one it goes past the table. -/
theorem le_findSlot_of_full {slots : Nat → Nat} {max : Nat} (h : ∀ j, j < max → slots j ≠ 0) :
    max ≤ findSlot slots (max + 1) 0 := by
  obtain ⟨-, -, -, h4⟩ := findSlot_spec slots (max + 1) 0
  by_contra hlt
  exact h _ (by omega) (h4 (by omega))

/-! ## The invariant -/

variable {σ ρ : Type} {P : PageStore σ} {V : Vfs σ ρ} {s t : Process σ ρ}

/-- The fields of the task describe the pages that it was given. -/
structure Backed (s : Process σ ρ) : Prop where
  base_eq : s.caller.fdTranslation = s.table.base
  pages_eq : s.caller.fdAllocatedPages = s.table.pages
  max_eq : s.caller.fdMax = s.caller.fdAllocatedPages * PAGE / 8

structure FdInv (s : Process σ ρ) : Prop extends Backed s where
  fits : s.table.base + s.table.pages * PAGE ≤ 2 ^ 64
  keys : (s.opened.map Prod.fst).Nodup
  inside : ∀ e ∈ s.opened, e.1 < s.caller.fdMax ∧ e.2 ≠ 0
  slots : ∀ fd node, fd < s.caller.fdMax → node ≠ 0 →
    (slot s.world.machine.mem s.caller fd = node ↔ (fd, node) ∈ s.opened)
  count : s.caller.fdCount = s.opened.length + 1

theorem FdInv.slotAddress (hi : FdInv s) {fd : Nat} (h : fd < s.caller.fdMax) :
    slotAddress s.caller fd = s.table.base + 8 * fd ∧ s.table.Has (s.table.base + 8 * fd) := by
  have h1 := hi.fits
  have h2 := hi.max_eq
  have h3 : 8 * fd + 8 ≤ s.table.pages * PAGE := by
    rw [hi.pages_eq] at h2
    simp only [PAGE] at *; omega
  refine ⟨?_, Nat.le_add_right _ _, by omega⟩
  have e : mul64 8 fd = 8 * fd := mul64_of_lt (by omega)
  rw [FileTable.slotAddress, e, hi.base_eq]
  exact add64_of_lt (by omega)

/-- What leaves the table alone leaves its slots alone. -/
theorem FdInv.slot_kept (hi : FdInv s) {m : Machine σ} (hk : Keeps s.table s.world.machine m)
    {fd : Nat} (h : fd < s.caller.fdMax) :
    slot m.mem s.caller fd = slot s.world.machine.mem s.caller fd := by
  obtain ⟨haddr, hin⟩ := hi.slotAddress h
  rw [slot, slot, haddr, hk _ hin]

theorem slot_congr {mem : Mem} {task task' : Task}
    (h : task.fdTranslation = task'.fdTranslation) {fd : Nat} :
    slot mem task fd = slot mem task' fd := by
  simp only [slot, FileTable.slotAddress, h]

theorem FdInv.keys_subset (hi : FdInv s) :
    s.opened.map Prod.fst ⊆ List.range s.caller.fdMax := by
  intro fd hfd
  obtain ⟨e, he, rfl⟩ := List.mem_map.mp hfd
  exact List.mem_range.mpr (hi.inside e he).1

/-- Descriptors are below `fd_max` and different, so there are at most that
many. -/
theorem FdInv.length_le (hi : FdInv s) : s.opened.length ≤ s.caller.fdMax := by
  have := (hi.keys.subperm hi.keys_subset).length_le
  rwa [List.length_map, List.length_range] at this

theorem FdInv.max_le (hi : FdInv s) : s.caller.fdMax ≤ 2 ^ 61 := by
  have h1 := hi.fits
  have h2 := hi.max_eq
  rw [hi.pages_eq] at h2
  simp only [PAGE] at *; omega

/-- The invariant looks at the table's words and at four fields of the task
only. -/
theorem FdInv.congr (hi : FdInv s) (hf : SameFds s.caller t.caller)
    (hk : Keeps s.table s.world.machine t.world.machine) (ht : t.table = s.table)
    (ho : t.opened = s.opened) : FdInv t := by
  obtain ⟨f1, f2, f3, f4⟩ := hf
  refine ⟨⟨?_, ?_, ?_⟩, ?_, ho ▸ hi.keys, ?_, fun fd node h1 h2 => ?_, ?_⟩
  · rw [f3, ht]; exact hi.base_eq
  · rw [f4, ht]; exact hi.pages_eq
  · rw [f2, f4]; exact hi.max_eq
  · rw [ht]; exact hi.fits
  · rw [ho, f2]; exact hi.inside
  · rw [f2] at h1
    obtain ⟨h3, h4⟩ := hi.slotAddress h1
    rw [slot_congr f3, slot, h3, hk _ h4, ← h3, ho]
    exact hi.slots fd node h1 h2
  · rw [f1, ho]; exact hi.count

/-- One slot is written. -/
theorem FdInv.slot_setSlot (hi : FdInv s) {fd j : Nat} (node : Nat) (hfd : fd < s.caller.fdMax)
    (hj : j < s.caller.fdMax) (mem : Mem) :
    slot (setSlot mem s.caller fd node) s.caller j =
      if j = fd then node else slot mem s.caller j := by
  unfold slot setSlot
  split
  · rename_i h; rw [h, Mem.store_self]
  · rename_i h
    apply Mem.store_ne
    rw [(hi.slotAddress hfd).1, (hi.slotAddress hj).1]
    omega

theorem FdInv.slot_eq_zero (hi : FdInv s) {fd : Nat} (h : fd < s.caller.fdMax) :
    slot s.world.machine.mem s.caller fd = 0 ↔ fd ∉ s.opened.map Prod.fst := by
  constructor
  · intro h0 hmem
    obtain ⟨⟨f, node⟩, he, rfl⟩ := List.mem_map.mp hmem
    have hn := (hi.inside _ he).2
    exact hn (((hi.slots f node h hn).mpr he).symm.trans h0)
  · intro hnew
    by_contra h0
    exact hnew (List.mem_map.mpr ⟨_, (hi.slots fd _ h h0).mp rfl, rfl⟩)

/-- There is room as long as fewer than `fd_max` descriptors are in use. -/
theorem FdInv.room_iff (hi : FdInv s) : Room s ↔ s.opened.length < s.caller.fdMax := by
  constructor
  · intro ⟨fd, h1, h0⟩
    have hnd := List.nodup_cons.mpr ⟨(hi.slot_eq_zero h1).mp h0, hi.keys⟩
    have hsub := List.cons_subset.mpr ⟨List.mem_range.mpr h1, hi.keys_subset⟩
    have := (hnd.subperm hsub).length_le
    rwa [List.length_cons, List.length_map, List.length_range] at this
  · intro hlen
    by_contra hfull
    have hsub : List.range s.caller.fdMax ⊆ s.opened.map Prod.fst := by
      intro fd hmem
      by_contra hnew
      have h1 := List.mem_range.mp hmem
      exact hfull ⟨fd, h1, (hi.slot_eq_zero h1).mpr hnew⟩
    have := (List.nodup_range.subperm hsub).length_le
    rw [List.length_range, List.length_map] at this
    omega

/-! ## Steps -/

/-- `sys_open` in a table with room: one round, the first free slot. -/
theorem placeNode_room {w : World σ ρ} {caller : Task} {j : Nat} (node rounds : Nat)
    (hj : j < caller.fdMax) (h0 : slot w.machine.mem caller j = 0) :
    ∃ fd, fd < caller.fdMax ∧ slot w.machine.mem caller fd = 0 ∧
      (∀ i, i < fd → slot w.machine.mem caller i ≠ 0) ∧
      placeNode P node (rounds + 1) w caller =
        some (fd, searchLog fd caller.fdMax ++ [.write fd caller.fdMax],
          { w with machine := { w.machine with mem := setSlot w.machine.mem caller fd node } },
          { caller with fdCount := add64 caller.fdCount 1 }) := by
  obtain ⟨h1, h2, h3⟩ := findSlot_of_free (slot w.machine.mem caller) hj h0
  refine ⟨_, h1, h2, h3, ?_⟩
  rw [placeNode]
  simp only
  rw [if_neg (by omega)]

theorem tableAfter_searchLog (table : Range) (fd max : Nat) :
    tableAfter table (searchLog fd max ++ [.write fd max]) = table := by
  unfold searchLog
  generalize List.range (fd + 1) = l
  induction l with
  | nil => rfl
  | cons i l ih => exact ih

/-- What an open in a table with room does. -/
structure OpenedAt (V : Vfs σ ρ) (s t : Process σ ρ) (log : List Access) (fd node : Nat) :
    Prop where
  free : fd < s.caller.fdMax ∧ ∀ n, (fd, n) ∉ s.opened
  log_eq : log = searchLog fd s.caller.fdMax ++ [.write fd s.caller.fdMax]
  inv : FdInv t
  max_eq : t.caller.fdMax = s.caller.fdMax
  table_eq : t.table = s.table
  world : ∃ path oflag, (V.openNode path oflag s.world).1 = .ok node ∧
    t.world.files = (V.openNode path oflag s.world).2.files ∧
    t.world.machine.src = (V.openNode path oflag s.world).2.machine.src

theorem sysOpen_some {rounds path oflag fd node : Nat} {w w' : World σ ρ} {caller caller' : Task}
    {log : List Access}
    (h : sysOpen P V rounds path oflag w caller = some (.ok fd, log, w', caller'))
    (hn : (V.openNode path oflag w).1 = .ok node) :
    placeNode P node rounds (V.openNode path oflag w).2 caller = some (fd, log, w', caller') := by
  unfold sysOpen at h
  split at h
  · cases h
  · revert h
    generalize V.openNode path oflag w = r at hn ⊢
    obtain ⟨r, w₁⟩ := r
    simp only at hn
    subst hn
    intro h
    simp only [Option.bind_eq_bind, Option.bind_eq_some_iff, Prod.exists] at h
    obtain ⟨fd', log', w₂, caller₂, hp, he⟩ := h
    cases he
    exact hp

/-- A node is put into a free slot. -/
theorem FdInv.place (hi : FdInv s) {fd node : Nat} (hlt : fd < s.caller.fdMax) (hn0 : node ≠ 0)
    (hnew : ∀ n, (fd, n) ∉ s.opened)
    (hc : t.caller = { s.caller with fdCount := add64 s.caller.fdCount 1 })
    (htable : t.table = s.table) (hopened : t.opened = (fd, node) :: s.opened)
    (hslot : ∀ i, i < s.caller.fdMax → slot t.world.machine.mem t.caller i =
      if i = fd then node else slot s.world.machine.mem s.caller i) : FdInv t := by
  refine ⟨⟨?_, ?_, ?_⟩, ?_, ?_, ?_, fun i n h1 h2 => ?_, ?_⟩
  · rw [hc, htable]; exact hi.base_eq
  · rw [hc, htable]; exact hi.pages_eq
  · rw [hc]; exact hi.max_eq
  · rw [htable]; exact hi.fits
  · rw [hopened, List.map_cons, List.nodup_cons]
    refine ⟨fun hmem => ?_, hi.keys⟩
    obtain ⟨⟨f, n⟩, he, rfl⟩ := List.mem_map.mp hmem
    exact hnew n he
  · intro e he
    rw [hopened, List.mem_cons] at he
    rw [hc]
    rcases he with rfl | he
    · exact ⟨hlt, hn0⟩
    · exact hi.inside e he
  · rw [hc] at h1
    rw [hslot i h1, hopened, List.mem_cons]
    split
    · rename_i he
      subst he
      constructor
      · intro hh
        exact .inl (by rw [hh])
      · intro hh
        rcases hh with hh | hh
        · exact (Prod.mk.inj hh).2.symm
        · exact absurd hh (hnew n)
    · rename_i hne
      rw [hi.slots i n h1 h2]
      constructor
      · exact .inr
      · intro hh
        rcases hh with hh | hh
        · exact absurd (Prod.mk.inj hh).1 hne
        · exact hh
  · rw [hc, hopened, List.length_cons]
    have h1 := hi.length_le
    have h2 := hi.max_le
    show add64 s.caller.fdCount 1 = _
    rw [hi.count, add64_of_lt (by omega)]

/-- `sys_open` after `vfs_open`, which has left the world `w`: the node goes to the first
free slot. -/
structure Placed (w : World σ ρ) (s t : Process σ ρ) (log : List Access) (fd node : Nat) :
    Prop where
  keeps : Keeps s.table s.world.machine w.machine
  below : fd < s.caller.fdMax
  empty : slot w.machine.mem s.caller fd = 0
  least : ∀ i, i < fd → slot w.machine.mem s.caller i ≠ 0
  log_eq : log = searchLog fd s.caller.fdMax ++ [.write fd s.caller.fdMax]
  world_eq : t.world =
    { w with machine := { w.machine with mem := setSlot w.machine.mem s.caller fd node } }
  caller_eq : t.caller = { s.caller with fdCount := add64 s.caller.fdCount 1 }
  table_eq : t.table = s.table
  opened_eq : t.opened = (fd, node) :: s.opened

theorem FdInv.placed (hi : FdInv s) (hroom : Room s) {log : List Access} {fd node : Nat}
    (hs : (fdLTS P V).step s (.opened log fd node) t) :
    ∃ path oflag, (V.openNode path oflag s.world).1 = .ok node ∧ node ≠ 0 ∧
      Placed (V.openNode path oflag s.world).2 s t log fd node := by
  obtain ⟨rounds, path, oflag, hsys, hnode, hn0, hk, htable, hopened⟩ := hs
  have hp := sysOpen_some hsys hnode
  obtain ⟨j, hj, h0⟩ := hroom
  -- the table that `placeNode` sees is the one before `vfs_open`
  have h0' : slot (V.openNode path oflag s.world).2.machine.mem s.caller j = 0 := by
    rw [hi.slot_kept hk hj, h0]
  refine ⟨path, oflag, hnode, hn0, ?_⟩
  cases rounds with
  | zero => cases hp
  | succ rounds =>
    obtain ⟨fd', hlt, hfree, hmin, hplace⟩ := placeNode_room (P := P) node rounds hj h0'
    rw [hplace] at hp
    simp only [Option.some.injEq, Prod.mk.injEq] at hp
    obtain ⟨rfl, rfl, hw, hc⟩ := hp
    rw [tableAfter_searchLog] at htable
    exact ⟨hk, hlt, hfree, hmin, rfl, hw.symm, hc.symm, htable, hopened⟩

/-- The slots after an open. -/
theorem Placed.slot (hi : FdInv s) {w : World σ ρ} {log : List Access} {fd node : Nat}
    (h : Placed w s t log fd node) {i : Nat} (hlt : i < s.caller.fdMax) :
    slot t.world.machine.mem t.caller i =
      if i = fd then node else slot w.machine.mem s.caller i := by
  rw [h.world_eq, h.caller_eq]
  exact hi.slot_setSlot node h.below hlt w.machine.mem

theorem FdInv.opened (hi : FdInv s) (hroom : Room s) {log : List Access} {fd node : Nat}
    (hs : (fdLTS P V).step s (.opened log fd node) t) : OpenedAt V s t log fd node := by
  obtain ⟨path, oflag, hnode, hn0, hp⟩ := hi.placed hroom hs
  have hi₁ : FdInv (⟨(V.openNode path oflag s.world).2, s.caller, s.table, s.opened⟩ :
      Process σ ρ) := hi.congr ⟨rfl, rfl, rfl, rfl⟩ hp.keeps rfl rfl
  have hnew : ∀ n, (fd, n) ∉ s.opened := by
    intro n hmem
    have := (hi₁.slots fd n hp.below (hi.inside _ hmem).2).mpr hmem
    simp only at this
    exact (hi.inside _ hmem).2 (this.symm.trans hp.empty)
  have hinv : FdInv t := hi₁.place hp.below hn0 hnew hp.caller_eq hp.table_eq hp.opened_eq
    fun i h1 => hp.slot hi h1
  exact ⟨⟨hp.below, hnew⟩, hp.log_eq, hinv, by rw [hp.caller_eq], hp.table_eq, path, oflag, hnode,
    by rw [hp.world_eq], by rw [hp.world_eq]⟩

theorem length_filter_key {l : List (Nat × Nat)} (hk : (l.map Prod.fst).Nodup) {fd node : Nat}
    (hm : (fd, node) ∈ l) : (l.filter (·.1 ≠ fd)).length + 1 = l.length := by
  induction l with
  | nil => cases hm
  | cons e l ih =>
    rw [List.map_cons, List.nodup_cons] at hk
    rcases List.mem_cons.mp hm with rfl | hm
    · have hall : l.filter (·.1 ≠ fd) = l := by
        apply List.filter_eq_self.mpr
        intro e he
        rw [decide_eq_true_eq]
        exact fun hc => hk.1 (List.mem_map.mpr ⟨e, he, hc⟩)
      rw [List.filter_cons_of_neg (by simp), hall, List.length_cons]
    · have hne : e.1 ≠ fd := fun hc => hk.1 (List.mem_map.mpr ⟨_, hm, hc.symm⟩)
      rw [List.filter_cons_of_pos (by simpa using hne), List.length_cons, List.length_cons,
        ih hk.2 hm]

theorem sysClose_ok {fd : Nat} {w w' : World σ ρ} {caller caller' : Task}
    (h : sysClose V fd w caller = .ok (w', caller')) :
    fd < caller.fdMax ∧ slot w.machine.mem caller fd ≠ 0 ∧
      w'.machine.mem = setSlot (V.close (slot w.machine.mem caller fd) w).machine.mem caller fd 0 ∧
      caller' = { caller with fdCount := sub64 caller.fdCount 1 } := by
  unfold sysClose at h
  split at h
  · cases h
  · rename_i hc
    rw [not_or, Nat.not_le] at hc
    cases h
    exact ⟨hc.1, hc.2, rfl, rfl⟩

/-- The slots after a close. -/
theorem FdInv.slot_closed (hi : FdInv s) {fd : Nat} (hs : (fdLTS P V).step s (.closed fd) t)
    {i : Nat} (hi' : i < s.caller.fdMax) :
    slot t.world.machine.mem t.caller i =
      if i = fd then 0 else slot s.world.machine.mem s.caller i := by
  obtain ⟨hsys, hk, -, -⟩ := hs
  obtain ⟨hlt, -, hw, hc⟩ := sysClose_ok hsys
  have hbase : t.caller.fdTranslation = s.caller.fdTranslation :=
    (congrArg Task.fdTranslation hc).trans rfl
  rw [slot_congr hbase, hw, hi.slot_setSlot 0 hlt hi', hi.slot_kept hk hi']

theorem FdInv.closed (hi : FdInv s) {fd : Nat} (hs : (fdLTS P V).step s (.closed fd) t) :
    FdInv t ∧ t.caller.fdMax = s.caller.fdMax := by
  obtain ⟨hsys, hk, htable, hopened⟩ := id hs
  obtain ⟨hlt, h0, -, hc⟩ := sysClose_ok hsys
  have hmem : (fd, slot s.world.machine.mem s.caller fd) ∈ s.opened :=
    (hi.slots fd _ hlt h0).mp rfl
  have hmax : t.caller.fdMax = s.caller.fdMax := (congrArg Task.fdMax hc).trans rfl
  refine ⟨⟨⟨?_, ?_, ?_⟩, ?_, ?_, ?_, fun i n h1 h2 => ?_, ?_⟩, hmax⟩
  · rw [hc, htable]; exact hi.base_eq
  · rw [hc, htable]; exact hi.pages_eq
  · rw [hc]; exact hi.max_eq
  · rw [htable]; exact hi.fits
  · rw [hopened]
    exact hi.keys.sublist (List.Sublist.map _ List.filter_sublist)
  · intro e he
    rw [hopened] at he
    rw [hmax]
    exact hi.inside e (List.mem_filter.mp he).1
  · rw [hmax] at h1
    rw [hi.slot_closed hs h1, hopened, List.mem_filter, decide_eq_true_eq]
    split
    · rename_i he
      constructor
      · intro hh; exact absurd hh.symm h2
      · intro hh; exact absurd he hh.2
    · rename_i hne
      rw [hi.slots i n h1 h2]
      exact ⟨fun hh => ⟨hh, hne⟩, fun hh => hh.1⟩
  · have h1 := length_filter_key hi.keys hmem
    have h2 := hi.length_le
    have h3 := hi.max_le
    rw [hc, hopened]
    show sub64 s.caller.fdCount 1 = _
    rw [hi.count, sub64_of_le (by omega) (by omega)]
    omega

theorem FdInv.refused (hi : FdInv s) {error : Int}
    (hs : (fdLTS P V).step s (.refused error) t) : FdInv t ∧ t.caller = s.caller := by
  obtain ⟨rounds, path, oflag, hsys, hk, htable, hopened⟩ := hs
  have hc : t.caller = s.caller := by
    unfold sysOpen at hsys
    split at hsys
    · simp only [Option.some.injEq, Prod.mk.injEq] at hsys
      exact hsys.2.2.2.symm
    · split at hsys
      · simp only [Option.some.injEq, Prod.mk.injEq] at hsys
        exact hsys.2.2.2.symm
      · simp only [Option.bind_eq_bind, Option.bind_eq_some_iff, Prod.exists] at hsys
        obtain ⟨fd, log, w, caller, -, he⟩ := hsys
        cases he
  exact ⟨hi.congr (hc ▸ ⟨rfl, rfl, rfl, rfl⟩) hk htable hopened, hc⟩

theorem fdInv_init (hs : (fdLTS P V).init s) : FdInv s := by
  obtain ⟨m, name, id, stack, fds, simd, hp, ⟨f1, f2, f3, f4⟩, ht, ho⟩ := hs
  obtain ⟨hg, hm⟩ := Machine.pageAllocate_spec hp
  have hbelow : fds + PAGE ≤ 2 ^ 64 := by simpa using hg.below
  have hmax : s.caller.fdMax = 512 := f2
  have hbase : s.caller.fdTranslation = fds := f3
  have hpages : s.caller.fdAllocatedPages = 1 := f4
  refine ⟨⟨?_, ?_, ?_⟩, ?_, ?_, ?_, fun fd node h1 h2 => ?_, ?_⟩
  · rw [hbase, ht]
  · rw [hpages, ht]
  · rw [hmax, hpages]; rfl
  · rw [ht]; simpa using hbelow
  · rw [ho]; exact List.nodup_nil
  · rw [ho]; intro e he; cases he
  · -- the page was cleared
    have haddr : FileTable.slotAddress s.caller fd = fds + 8 * fd := by
      have e : mul64 8 fd = 8 * fd := mul64_of_lt (by omega)
      rw [FileTable.slotAddress, hbase, e]
      exact add64_of_lt (by simp only [PAGE] at hbelow; omega)
    have hz : slot s.world.machine.mem s.caller fd = 0 := by
      rw [slot, haddr, hm]
      exact Mem.zero_in _ (Nat.le_add_right _ _) (by simp only [PAGE]; omega)
    rw [hz, ho]
    constructor
    · intro hh; exact absurd hh.symm h2
    · intro hh; cases hh
  · rw [f1, ho]; rfl

/-- **Runs with room keep the table in shape.** -/
theorem room_inductive (P : PageStore σ) (V : Vfs σ ρ) : (roomLTS P V).Inductive FdInv where
  init s hs := fdInv_init (V := V) hs
  step s e t hi hst := by
    obtain ⟨hs, hroom⟩ := hst
    cases e with
    | opened log fd node => exact (hi.opened (hroom log fd node rfl) hs).inv
    | refused error => exact (hi.refused hs).1
    | closed fd => exact (hi.closed hs).1
    | badFd fd =>
      obtain ⟨-, rfl⟩ := hs
      exact hi
    | other =>
      obtain ⟨hf, hk, ht, ho⟩ := hs
      exact hi.congr hf hk ht ho

/-- A run with room is a run. -/
theorem reachable_of_room (h : (roomLTS P V).Reachable s) : (fdLTS P V).Reachable s :=
  h.mono (N := fdLTS P V) (fun _ hi => hi) fun _ _ _ hst => hst.1

/-- A call that passes the check uses the node of the descriptor. -/
theorem checkFd_map {mem : Mem} {caller : Task} {fd : Nat} {f : Nat → Int × World σ ρ}
    {r : Int × World σ ρ} (h : (checkFd mem caller fd).map f = .ok r) :
    ∃ node, checkFd mem caller fd = .ok node ∧ r = f node := by
  cases hc : checkFd mem caller fd with
  | error e => rw [hc] at h; cases h
  | ok node =>
    rw [hc] at h
    exact ⟨node, rfl, (Except.ok.inj h).symm⟩

/-- On an open descriptor the check looks at the count only. -/
theorem checkFd_opened (hi : FdInv s) {fd node : Nat} (hm : (fd, node) ∈ s.opened) :
    checkFd s.world.machine.mem s.caller fd =
      if s.opened.length < fd then .error (-EBADF) else .ok node := by
  have hlt : fd < s.caller.fdMax := (hi.inside _ hm).1
  have hn : node ≠ 0 := (hi.inside _ hm).2
  have hslot : slot s.world.machine.mem s.caller fd = node := (hi.slots fd node hlt hn).mpr hm
  unfold checkFd
  rw [hi.count, hslot, if_neg hn]
  rfl

/-! ## A small process

The pages of `smallMap`, a page table in the first page of the direct map that
maps one user page, no null word anywhere, and a VFS that knows one node. -/

abbrev SmallPools := { pools : List Pool // PoolsOk 0xFFFF800000000000 pools }

def smallStore : PageStore SmallPools := poolStore 0xFFFF800000000000 hhdm_aligned

def smallMem : Mem := fun x => if x = 0xFFFF800000000028 then 0x1003 else 3

def smallPath : Nat := 0x8040205000

def smallNode : Nat := 0xFFFF900000000030

def smallVfs : Vfs SmallPools Unit where
  openNode _ _ w := (.ok smallNode, w)
  close _ w := w
  read _ _ _ w := (0, w)
  write _ _ _ w := (0, w)
  lseek _ _ _ w := (0, w)

/-- Only the table differs from `smallMem`. -/
structure Small (s : Process SmallPools Unit) : Prop where
  reachable : (roomLTS smallStore smallVfs).Reachable s
  cr3 : s.caller.registers.cpu.cr3 = 0
  above : 0xFFFF800000000000 + PAGE ≤ s.table.base
  max_eq : s.caller.fdMax = 512
  mem : ∀ x, ¬s.table.Has x → s.world.machine.mem x = smallMem x

/-- The table's page is its own next layer, three times. -/
theorem Small.translate {s : Process SmallPools Unit} (h : Small s) {v : Nat}
    (h3 : pml3Index v = 1) (h2 : pml2Index v = 1) (h1 : pml1Index v = 1) (hp : pIndex v < 512) :
    translateToPhysical smallStore.toPageSource s.world.machine
        (add64 s.caller.registers.cpu.cr3 smallStore.hhdm) v =
      if Present (smallMem (0xFFFF800000000000 + 8 * pIndex v)) then
        getAddress (smallMem (0xFFFF800000000000 + 8 * pIndex v)) else 0 := by
  have hout : ∀ x, x < 0xFFFF800000000000 + PAGE → s.world.machine.mem x = smallMem x := by
    intro x hx
    apply h.mem
    intro hc
    have := hc.1
    have := h.above
    omega
  have h8 : s.world.machine.mem 0xFFFF800000000008 = 3 := hout _ (by decide)
  have hroot : add64 0 0xFFFF800000000000 = 0xFFFF800000000000 := by decide
  have hlayer : getNextLayer smallStore.toPageSource s.world.machine 0xFFFF800000000000 1 =
      0xFFFF800000000000 := by
    have he : entryAddress 0xFFFF800000000000 1 = 0xFFFF800000000008 := by decide
    unfold getNextLayer
    simp only [he, h8]
    decide
  have hentry : entryAddress 0xFFFF800000000000 (pIndex v) = 0xFFFF800000000000 + 8 * pIndex v :=
    add64_of_lt (by omega)
  have hne : ¬0xFFFF800000000000 = 0 := by decide
  unfold translateToPhysical
  rw [h.cr3, show smallStore.toPageSource.hhdm = 0xFFFF800000000000 from rfl, hroot, h3, h2, h1]
  simp only [hlayer, hentry]
  rw [hout _ (by simp only [PAGE]; omega), if_neg hne, if_neg hne, if_neg hne]

theorem Small.isUserMemory {s : Process SmallPools Unit} (h : Small s) :
    isUserMemory smallStore.toPageSource s.world.machine smallPath s.caller = true := by
  unfold FileTable.isUserMemory
  rw [h.translate (by decide) (by decide) (by decide) (by decide)]
  decide

theorem small_init : ∃ s, Small s ∧ s.opened = [] := by
  obtain ⟨pools, hp⟩ : ∃ pools, pageAllocatorCreatePoolsLimine 0xFFFF800000000000 smallMap =
      some pools := createPools_some _ (by decide)
  have hok := createPools_ok (by decide) smallMap_ok (by simp [RegionsDisjoint, smallMap]) hp
  have hav : ∃ p ∈ pools, max 1 1 * PAGE ≤ p.available := by
    rw [createPools_eq hp]; decide
  obtain ⟨⟨fds, src⟩, ha⟩ := Option.isSome_iff_exists.mp
    ((poolSource_isSome_iff (by decide) (s := ⟨pools, hok⟩) (by decide)).mpr hav)
  have hm : (⟨smallMem, ⟨pools, hok⟩⟩ : Machine SmallPools).pageAllocate smallStore.toPageSource 1 =
      some (fds, ⟨smallMem.zero fds PAGE, src⟩) := by
    unfold Machine.pageAllocate
    rw [show smallStore.toPageSource.allocate = (poolSource 0xFFFF800000000000 hhdm_aligned).allocate
      from rfl, ha]
    rfl
  obtain ⟨hg, -⟩ := Machine.pageAllocate_spec hm
  refine ⟨⟨⟨⟨smallMem.zero fds PAGE, src⟩, ()⟩, newTask "init" 1 0 fds (fun _ => 0), ⟨fds, 1⟩, []⟩,
    ⟨.init ⟨_, "init", 1, 0, fds, fun _ => 0, hm, ⟨rfl, rfl, rfl, rfl⟩, rfl, rfl⟩, rfl, hg.above,
      rfl, fun x hx => ?_⟩, rfl⟩
  apply Mem.zero_out
  unfold Range.Has at hx
  simp only [Nat.one_mul, not_and, Nat.not_lt] at hx
  omega

variable {u : Process SmallPools Unit}

/-- A step that stores into one slot and changes the count. The state after it is
written out, so that its fields are never compared with those of `u`. -/
theorem Small.after (h : Small u) {e : FdEvent} {fd node count : Nat} {opened : List (Nat × Nat)}
    (hfd : fd < u.caller.fdMax)
    (hst : (roomLTS smallStore smallVfs).step u e
      ⟨⟨⟨setSlot u.world.machine.mem u.caller fd node, u.world.machine.src⟩, u.world.files⟩,
        { u.caller with fdCount := count }, u.table, opened⟩) :
    ∃ v, Small v ∧ v.opened = opened := by
  obtain ⟨h1, h2⟩ := ((room_inductive _ _).reachable h.reachable).slotAddress hfd
  refine ⟨_, ⟨h.reachable.step hst, h.cr3, h.above, h.max_eq, fun x hx => ?_⟩, rfl⟩
  have hne : x ≠ u.table.base + 8 * fd := fun he => hx (he ▸ h2)
  dsimp only
  rw [setSlot, h1, Mem.store_ne _ _ hne]
  exact h.mem x hx

theorem Small.sysOpen (h : Small u) (rounds : Nat) :
    sysOpen smallStore smallVfs rounds smallPath 0 u.world u.caller =
      (placeNode smallStore smallNode rounds u.world u.caller).map
        fun (fd, log, w, caller) => (.ok fd, log, w, caller) := by
  unfold FileTable.sysOpen
  rw [if_neg (by rw [h.isUserMemory]; simp)]
  simp only [smallVfs, Option.bind_eq_bind]
  cases placeNode smallStore smallNode rounds u.world u.caller with
  | none => rfl
  | some r => rfl

theorem smallNode_ne_zero : smallNode ≠ 0 := by simp [smallNode]

/-- `sys_open` takes the lowest free descriptor. -/
theorem Small.opens (h : Small u) (hroom : u.opened.length < 512) :
    ∃ fd, (∃ v, Small v ∧ v.opened = (fd, smallNode) :: u.opened) ∧
      fd ∉ u.opened.map Prod.fst ∧ ∀ i, i < fd → i ∈ u.opened.map Prod.fst := by
  have hi := (room_inductive _ _).reachable h.reachable
  have hr : Room u := hi.room_iff.mpr (by rw [h.max_eq]; exact hroom)
  obtain ⟨j, hj, h0⟩ := hr
  obtain ⟨fd, hlt, hfree, hmin, hplace⟩ := placeNode_room (P := smallStore) smallNode 0 hj h0
  have hsys := h.sysOpen 1
  rw [hplace, Option.map_some] at hsys
  refine ⟨fd, h.after hlt (e := .opened (searchLog fd u.caller.fdMax ++
    [.write fd u.caller.fdMax]) fd smallNode) ⟨⟨1, smallPath, 0, hsys, rfl, smallNode_ne_zero,
      fun _ _ => rfl, (tableAfter_searchLog _ _ _).symm, rfl⟩, fun _ _ _ _ => ⟨j, hj, h0⟩⟩,
    (hi.slot_eq_zero hlt).mp hfree, fun i hi' => ?_⟩
  by_contra hnew
  exact hmin i hi' ((hi.slot_eq_zero (Nat.lt_trans hi' hlt)).mpr hnew)

/-- Files opened one after the other get the descriptors 0, 1, 2 and so on. -/
theorem small_opened : ∀ n, n ≤ 512 →
    ∃ s, Small s ∧ s.opened = (List.range n).reverse.map fun fd => (fd, smallNode)
  | 0, _ => small_init
  | n + 1, hn => by
    obtain ⟨s, hs, ho⟩ := small_opened n (by omega)
    have hfds : s.opened.map Prod.fst = (List.range n).reverse := by
      rw [ho, List.map_map]
      exact List.map_id _
    obtain ⟨fd, ⟨v, hv, hvo⟩, hnew, hmin⟩ := hs.opens (by rw [ho]; simp; omega)
    rw [hfds, List.mem_reverse, List.mem_range] at hnew
    have hle : fd ≤ n := by
      by_contra hgt
      have := hmin n (by omega)
      rw [hfds, List.mem_reverse, List.mem_range] at this
      omega
    obtain rfl : fd = n := by omega
    refine ⟨v, hv, ?_⟩
    rw [hvo, ho, List.range_succ, List.reverse_append]
    rfl

theorem Small.closes (h : Small u) (fd : Nat) (hfd : (fd, smallNode) ∈ u.opened) :
    ∃ v, Small v ∧ v.opened = u.opened.filter (·.1 ≠ fd) := by
  have hi := (room_inductive _ _).reachable h.reachable
  have hlt : fd < u.caller.fdMax := (hi.inside _ hfd).1
  have hslot : slot u.world.machine.mem u.caller fd = smallNode :=
    (hi.slots fd smallNode hlt smallNode_ne_zero).mpr hfd
  have hopen : ¬(u.caller.fdMax ≤ fd ∨ slot u.world.machine.mem u.caller fd = 0) := by
    rw [hslot, not_or, Nat.not_le]
    exact ⟨hlt, smallNode_ne_zero⟩
  have hsys : sysClose smallVfs fd u.world u.caller =
      .ok (⟨⟨setSlot u.world.machine.mem u.caller fd 0, u.world.machine.src⟩, u.world.files⟩,
        { u.caller with fdCount := sub64 u.caller.fdCount 1 }) := by
    unfold sysClose
    rw [if_neg hopen]
    rfl
  exact h.after (e := .closed fd) hlt ⟨⟨hsys, fun _ _ => rfl, rfl, rfl⟩, fun _ _ _ => nofun⟩

end GaOS.L6.FileTable
