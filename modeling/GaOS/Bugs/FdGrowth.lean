import GaOS.L6Syscall.FileTableInv

/-!
# A full descriptor table

When all `fd_max` slots are taken, `sys_open` leaves the table
(kernel/src/syscalls/sys_open.c:33-45).

* The search compares `fd <= caller->fd_max`, one slot too far, and reads the slot
  before it compares. It always reads slot `fd_max`, the first word after the
  table. If that word is not null, it goes on to `fd_max + 1`, misses
  `fd == caller->fd_max` and stores the node there, in a page of somebody else.
* If the word is null, the table grows, and `fd_allocated_pages` is incremented
  twice: the table has one page more and the field says two
  (`grow_counts_twice`). The next growth then copies and frees a page that is not
  the table's.

`table_kept_iff_room` is the exact condition: until the table is full nothing goes
wrong, and the first `sys_open` on a full table does.

Counterexample: 512 descriptors open, memory after the table not null.

Fix: `while (fd < caller->fd_max && caller->fd_translation[fd] != nullptr)`, and
one increment.
-/
namespace GaOS.Bugs.FdGrowth

open GaOS.L1 GaOS.L1.PageAllocator GaOS.L2.TableManager GaOS.L4.RoundRobin GaOS.L6.FileTable

variable {σ ρ : Type} {P : PageStore σ} {V : Vfs σ ρ} {s t : Process σ ρ}

/-! ## What should hold -/

/-- All accesses are below the `fd_max` of their time, and `page_reallocate` is
called with the base and the true size of the table. -/
def LogOk : Range → List Access → Prop
  | _, [] => True
  | table, .read fd max :: log => fd < max ∧ LogOk table log
  | table, .write fd max :: log => fd < max ∧ LogOk table log
  | table, .reallocate base oldPages newPages newBase :: log =>
    table = ⟨base, oldPages⟩ ∧ LogOk ⟨newBase, newPages⟩ log

structure StepOk (s : Process σ ρ) (e : FdEvent) (t : Process σ ρ) : Prop where
  backed : Backed t
  accesses : ∀ log fd node, e = .opened log fd node → LogOk s.table log ∧ fd < t.caller.fdMax
  kept : ∀ fd node, (fd, node) ∈ s.opened → e ≠ .closed fd →
    slot t.world.machine.mem t.caller fd = node

theorem logOk_reads (table : Range) (max : Nat) (log : List Access) (fds : List Nat) :
    LogOk table (fds.map (.read · max) ++ log) ↔ (∀ fd ∈ fds, fd < max) ∧ LogOk table log := by
  induction fds with
  | nil => simp
  | cons fd fds ih =>
    rw [List.map_cons, List.cons_append, LogOk, ih, List.forall_mem_cons, and_assoc]

/-- A search that ends at `fd` has read slot `fd`. -/
theorem logOk_searchLog (table : Range) (fd max : Nat) (log : List Access) :
    LogOk table (searchLog fd max ++ log) ↔ fd < max ∧ LogOk table log := by
  unfold searchLog
  rw [logOk_reads]
  simp only [List.mem_range]
  constructor
  · intro h; exact ⟨h.1 fd (Nat.lt_succ_self fd), h.2⟩
  · intro h; exact ⟨fun i hi => by omega, h.2⟩

/-- Whatever follows, `sys_open` starts with a search. -/
theorem placeNode_log {node rounds fd : Nat} {w w' : World σ ρ} {caller caller' : Task}
    {log : List Access} (h : placeNode P node rounds w caller = some (fd, log, w', caller')) :
    ∃ rest, log = searchLog (findSlot (slot w.machine.mem caller) (caller.fdMax + 1) 0)
      caller.fdMax ++ rest := by
  cases rounds with
  | zero => cases h
  | succ rounds =>
    rw [placeNode] at h
    simp only at h
    split at h
    · simp only [Option.bind_eq_bind, Option.bind_eq_some_iff, Prod.exists] at h
      obtain ⟨access, w₁, grown, -, fd', log', w₂, task, -, he⟩ := h
      cases he
      exact ⟨_, rfl⟩
    · cases h
      exact ⟨_, rfl⟩

/-! ## The condition -/

/-- Descriptors that stay open keep their nodes. -/
theorem kept_of_inv (ht : FdInv t) {fd node : Nat} (hm : (fd, node) ∈ t.opened) :
    slot t.world.machine.mem t.caller fd = node :=
  (ht.slots fd node (ht.inside _ hm).1 (ht.inside _ hm).2).mpr hm

/-- A step that is not an open. -/
theorem stepOk_of_inv {e : FdEvent} (ht : FdInv t)
    (hne : ∀ log fd node, e ≠ .opened log fd node)
    (hm : ∀ fd node, (fd, node) ∈ s.opened → e ≠ .closed fd → (fd, node) ∈ t.opened) :
    StepOk s e t :=
  ⟨ht.toBacked, fun log fd node he => absurd he (hne log fd node),
    fun fd node h1 h2 => kept_of_inv ht (hm fd node h1 h2)⟩

theorem stepOk_of_room (hi : FdInv s) {e : FdEvent} (hs : (fdLTS P V).step s e t)
    (hroom : ∀ log fd node, e = .opened log fd node → Room s) : StepOk s e t := by
  cases e with
  | opened log fd node =>
    have ho := hi.opened (hroom log fd node rfl) hs
    obtain ⟨-, -, -, -, -, -, -, -, hopened⟩ := hs
    refine ⟨ho.inv.toBacked, fun log' fd' node' he => ?_, fun fd' node' hm _ => ?_⟩
    · cases he
      rw [ho.log_eq, logOk_searchLog, ho.max_eq]
      exact ⟨⟨ho.free.1, ho.free.1, trivial⟩, ho.free.1⟩
    · exact kept_of_inv ho.inv (by rw [hopened]; exact List.mem_cons_of_mem _ hm)
  | refused error =>
    have ht := (hi.refused hs).1
    obtain ⟨-, -, -, -, -, -, hopened⟩ := hs
    exact stepOk_of_inv ht (fun _ _ _ => nofun) fun fd node hm _ => by rw [hopened]; exact hm
  | closed fd =>
    have ht := (hi.closed hs).1
    obtain ⟨-, -, -, hopened⟩ := hs
    refine stepOk_of_inv ht (fun _ _ _ => nofun) fun fd' node hm hne => ?_
    rw [hopened, List.mem_filter, decide_eq_true_eq]
    exact ⟨hm, fun he => hne (congrArg FdEvent.closed he.symm)⟩
  | badFd fd =>
    obtain ⟨-, rfl⟩ := hs
    exact stepOk_of_inv hi (fun _ _ _ => nofun) fun fd node hm _ => hm
  | other =>
    obtain ⟨hf, hk, ht, ho⟩ := hs
    exact stepOk_of_inv (hi.congr hf hk ht ho) (fun _ _ _ => nofun)
      fun fd node hm _ => by rw [ho]; exact hm

/-- Without room the search reads slot `fd_max`. -/
theorem room_of_stepOk (hi : FdInv s) {log : List Access} {fd node : Nat}
    (hs : (fdLTS P V).step s (.opened log fd node) t) (hok : StepOk s (.opened log fd node) t) :
    Room s := by
  obtain ⟨rounds, path, oflag, hsys, hnode, -, hk, -, -⟩ := hs
  obtain ⟨rest, rfl⟩ := placeNode_log (sysOpen_some hsys hnode)
  have hlt := ((logOk_searchLog _ _ _ _).mp (hok.accesses _ _ _ rfl).1).1
  by_contra hfull
  have hslots : ∀ j, j < s.caller.fdMax →
      slot (V.openNode path oflag s.world).2.machine.mem s.caller j ≠ 0 := by
    intro j hj h0
    obtain ⟨h3, h4⟩ := hi.slotAddress hj
    exact hfull ⟨j, hj, by rw [slot, h3, ← hk _ h4, ← h3]; exact h0⟩
  have := le_findSlot_of_full hslots
  omega

/-- **When the table keeps its shape.** In every state of every run in which
`sys_open` found a free slot below `fd_max` so far, the table is backed by exactly
`fd_allocated_pages` pages and has `fd_max` slots; and the next step touches only
slots of the table, returns a descriptor below `fd_max`, keeps every open
descriptor's node and gives `page_reallocate` the true page count, exactly if it is
not a `sys_open` on a table without a free slot. -/
theorem table_kept_iff_room (hs : (roomLTS P V).Reachable s) :
    Backed s ∧ ∀ e t, (fdLTS P V).step s e t →
      (StepOk s e t ↔ ∀ log fd node, e = .opened log fd node → Room s) := by
  have hi := (room_inductive P V).reachable hs
  refine ⟨hi.toBacked, fun e t hst => ⟨fun hok log fd node he => ?_, stepOk_of_room hi hst⟩⟩
  subst he
  exact room_of_stepOk hi hst hok

theorem table_kept_small : ∃ s, (roomLTS smallStore smallVfs).Reachable s ∧ Backed s ∧
    ∀ e t, (fdLTS smallStore smallVfs).step s e t →
      (StepOk s e t ↔ ∀ log fd node, e = .opened log fd node → Room s) := by
  obtain ⟨s, hs, -⟩ := small_init
  exact ⟨s, hs.reachable, table_kept_iff_room hs.reachable⟩

/-! ## A growth

The other half of the defect: even a growth that the search does reach leaves a
wrong page count. -/

/-- One page more is asked for, and two are counted. -/
theorem grow_counts_twice {w w' : World σ ρ} {caller caller' : Task} {access : Access}
    (hlt : caller.fdAllocatedPages + 2 < 2 ^ 64)
    (h : grow P w caller = some (access, w', caller')) :
    access = .reallocate caller.fdTranslation caller.fdAllocatedPages
        (caller.fdAllocatedPages + 1) caller'.fdTranslation ∧
      caller'.fdAllocatedPages = caller.fdAllocatedPages + 2 := by
  have h1 : add64 caller.fdAllocatedPages 1 = caller.fdAllocatedPages + 1 := add64_of_lt (by omega)
  have h2 : add64 (caller.fdAllocatedPages + 1) 1 = caller.fdAllocatedPages + 2 :=
    add64_of_lt (by omega)
  simp only [grow, h1, h2, Option.bind_eq_bind, Option.bind_eq_some_iff, Prod.exists] at h
  obtain ⟨table, machine, -, he⟩ := h
  cases he
  exact ⟨rfl, rfl⟩

/-! ## Counterexample -/

theorem smallMem_ne_zero (x : Nat) : smallMem x ≠ 0 := by
  unfold smallMem
  split
  · exact Nat.succ_ne_zero _
  · exact Nat.succ_ne_zero _

/-- The word after the table is not null. -/
theorem small_slot_max {u : Process SmallPools Unit} (h : Small u) :
    slot u.world.machine.mem u.caller 512 ≠ 0 := by
  have hi := (room_inductive _ _).reachable h.reachable
  have hpages : u.table.pages = 1 := by
    have h1 := hi.max_eq
    rw [h.max_eq, hi.pages_eq] at h1
    simp only [PAGE] at h1; omega
  have hout : ¬u.table.Has (slotAddress u.caller 512) := by
    have h1 := hi.fits
    have h2 := h.above
    rw [slotAddress, hi.base_eq, show mul64 8 512 = 4096 from rfl]
    rw [hpages] at h1
    unfold Range.Has add64
    rw [hpages]
    simp only [PAGE] at *; omega
  rw [slot, h.mem _ hout]
  exact smallMem_ne_zero _

/-- **The search leaves a full table.** With 512 descriptors open the next
`sys_open` stores its node in slot 513 and returns 513. -/
theorem full_table_overrun : ∃ s t, (fdLTS smallStore smallVfs).Reachable s ∧ ∃ log,
    (fdLTS smallStore smallVfs).step s (.opened log 513 smallNode) t ∧
      Access.write 513 512 ∈ log ∧ t.caller.fdMax = 512 ∧
      ¬StepOk s (.opened log 513 smallNode) t := by
  obtain ⟨u, hu, hopened⟩ := small_opened 512 (Nat.le_refl _)
  have hlen : u.opened.length = 512 := by
    rw [hopened, List.length_map, List.length_reverse, List.length_range]
  have hi := (room_inductive _ _).reachable hu.reachable
  have hfull : ∀ j, j < 513 → slot u.world.machine.mem u.caller j ≠ 0 := by
    intro j hj h0
    rcases Nat.eq_or_lt_of_le (Nat.le_of_lt_succ hj) with rfl | hlt
    · exact small_slot_max hu h0
    · have := hi.room_iff.mp ⟨j, by rw [hu.max_eq]; exact hlt, h0⟩
      rw [hlen, hu.max_eq] at this
      exact Nat.lt_irrefl _ this
  have hfind : findSlot (slot u.world.machine.mem u.caller) 513 0 = 513 := by
    obtain ⟨-, h2, -, h4⟩ := findSlot_spec (slot u.world.machine.mem u.caller) 513 0
    by_contra hne
    exact hfull _ (by omega) (h4 (by omega))
  have hplace : placeNode smallStore smallNode 1 u.world u.caller =
      some (513, searchLog 513 512 ++ [.write 513 512],
        ⟨⟨setSlot u.world.machine.mem u.caller 513 smallNode, u.world.machine.src⟩,
          u.world.files⟩, { u.caller with fdCount := add64 u.caller.fdCount 1 }) := by
    rw [placeNode]
    simp only [hu.max_eq, hfind]
    rw [if_neg (by omega)]
  have hsys := hu.sysOpen 1
  rw [hplace, Option.map_some] at hsys
  refine ⟨u, ⟨⟨⟨setSlot u.world.machine.mem u.caller 513 smallNode, u.world.machine.src⟩,
      u.world.files⟩, { u.caller with fdCount := add64 u.caller.fdCount 1 }, u.table,
      (513, smallNode) :: u.opened⟩, reachable_of_room hu.reachable, _,
    ⟨1, smallPath, 0, hsys, rfl, smallNode_ne_zero, fun _ _ => rfl,
      (tableAfter_searchLog _ _ _).symm, rfl⟩,
    List.mem_append_right _ (List.mem_singleton.mpr rfl), hu.max_eq, fun hok => ?_⟩
  have hlt : 513 < u.caller.fdMax := (hok.accesses _ _ _ rfl).2
  rw [hu.max_eq] at hlt
  omega

end GaOS.Bugs.FdGrowth
