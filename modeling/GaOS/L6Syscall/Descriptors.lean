import GaOS.L6Syscall.FileTableInv

/-!
# Descriptors are given out lowest first

Runs of `sys_open` and `sys_close` by one task that opens files only while fewer than
`fd_max` descriptors are in use (`fewerLTS`). By `FdInv.room_iff` these are the runs in
which `sys_open` always finds room, so `FdInv` holds along them. What a step does to
the slots (`OpensLeast`, `ClosesOnly`) is then read off `Placed` and
`FdInv.slot_closed`.

Main result: `descriptors_lowest_first`. It is the law behind the init program's test
that prints 34445 (apps/init/src/main.c:244-256).
-/
namespace GaOS.L6.FileTable

open GaOS.L1 GaOS.L1.PageAllocator GaOS.L4.RoundRobin

variable {σ ρ : Type} {P : PageStore σ} {V : Vfs σ ρ} {s t u : Process σ ρ}

/-- The runs in which `sys_open` is called with fewer than `fd_max` open descriptors. -/
def fewerLTS (P : PageStore σ) (V : Vfs σ ρ) : LTS (Process σ ρ) FdEvent where
  init := (fdLTS P V).init
  step s e t := (fdLTS P V).step s e t ∧
    ∀ log fd node, e = .opened log fd node → s.opened.length < s.caller.fdMax

theorem FdInv.fewer_iff_room (hi : FdInv s) {e : FdEvent} :
    (fewerLTS P V).step s e t ↔ (roomLTS P V).step s e t := by
  unfold fewerLTS roomLTS
  simp only [hi.room_iff]

theorem fewer_inductive (P : PageStore σ) (V : Vfs σ ρ) : (fewerLTS P V).Inductive FdInv where
  init s hs := (room_inductive P V).init s hs
  step s e t hi hst := (room_inductive P V).step s e t hi (hi.fewer_iff_room.mp hst)

theorem fewer_of_room (h : (roomLTS P V).Reachable s) : (fewerLTS P V).Reachable s := by
  have hind : (roomLTS P V).Inductive fun s => FdInv s ∧ (fewerLTS P V).Reachable s :=
    ⟨fun s hs => ⟨(room_inductive P V).init s hs, .init hs⟩, fun s e t hi hst =>
      ⟨(room_inductive P V).step s e t hi.1 hst, hi.2.step (hi.1.fewer_iff_room.mpr hst)⟩⟩
  exact (hind.reachable h).2

/-! ## One call -/

/-- An open takes the least empty slot and changes no other one. -/
structure OpensLeast (s t : Process σ ρ) (fd node : Nat) : Prop where
  below : fd < s.caller.fdMax
  empty : slot s.world.machine.mem s.caller fd = 0
  least : ∀ i, i < fd → slot s.world.machine.mem s.caller i ≠ 0
  stored : slot t.world.machine.mem t.caller fd = node
  others : ∀ i, i < s.caller.fdMax → i ≠ fd →
    slot t.world.machine.mem t.caller i = slot s.world.machine.mem s.caller i

/-- A close empties the slot it names and changes no other one. -/
structure ClosesOnly (s t : Process σ ρ) (fd : Nat) : Prop where
  emptied : slot t.world.machine.mem t.caller fd = 0
  others : ∀ i, i < s.caller.fdMax → i ≠ fd →
    slot t.world.machine.mem t.caller i = slot s.world.machine.mem s.caller i

theorem FdInv.opensLeast (hi : FdInv s) {log : List Access} {fd node : Nat}
    (hst : (fewerLTS P V).step s (.opened log fd node) t) : OpensLeast s t fd node := by
  obtain ⟨hs, hfew⟩ := hst
  have hroom := hi.room_iff.mpr (hfew log fd node rfl)
  obtain ⟨path, oflag, -, -, hp⟩ := hi.placed hroom hs
  refine ⟨hp.below, ?_, fun i hlt => ?_, ?_, fun i hlt hne => ?_⟩
  · rw [← hi.slot_kept hp.keeps hp.below]
    exact hp.empty
  · rw [← hi.slot_kept hp.keeps (Nat.lt_trans hlt hp.below)]
    exact hp.least i hlt
  · rw [hp.slot hi hp.below, if_pos rfl]
  · rw [hp.slot hi hlt, if_neg hne, hi.slot_kept hp.keeps hlt]

theorem FdInv.closesOnly (hi : FdInv s) {fd : Nat} (hst : (fewerLTS P V).step s (.closed fd) t) :
    ClosesOnly s t fd := by
  obtain ⟨hs, -⟩ := hst
  have hlt : fd < s.caller.fdMax := (sysClose_ok hs.1).1
  refine ⟨?_, fun i hi' hne => ?_⟩
  · rw [hi.slot_closed hs hlt, if_pos rfl]
  · rw [hi.slot_closed hs hi', if_neg hne]

/-- Exactly the open descriptors can be closed. -/
theorem FdInv.closable_iff (hi : FdInv s) (V : Vfs σ ρ) (fd : Nat) :
    (∃ r, sysClose V fd s.world s.caller = .ok r) ↔ fd ∈ s.opened.map Prod.fst := by
  constructor
  · intro ⟨⟨w, caller⟩, h⟩
    obtain ⟨hlt, h0, -⟩ := sysClose_ok h
    by_contra hnew
    exact h0 ((hi.slot_eq_zero hlt).mpr hnew)
  · intro hmem
    have hlt := List.mem_range.mp (hi.keys_subset hmem)
    have h0 : slot s.world.machine.mem s.caller fd ≠ 0 :=
      fun h => (hi.slot_eq_zero hlt).mp h hmem
    unfold sysClose
    rw [if_neg (by omega)]
    exact ⟨_, rfl⟩

/-! ## Runs -/

/-- A descriptor stays open, with its node, through every step but its close. -/
theorem opened_kept {e : FdEvent} {fd node : Nat} (hst : (fewerLTS P V).step s e t)
    (hmem : (fd, node) ∈ s.opened) (he : e ≠ .closed fd) : (fd, node) ∈ t.opened := by
  obtain ⟨hs, -⟩ := hst
  cases e with
  | opened log fd' node' =>
    obtain ⟨_, _, _, -, -, -, -, -, ho⟩ := hs
    rw [ho]
    exact List.mem_cons_of_mem _ hmem
  | refused error =>
    obtain ⟨_, _, _, -, -, -, ho⟩ := hs
    rwa [ho]
  | closed fd' =>
    obtain ⟨-, -, -, ho⟩ := hs
    have hne : fd ≠ fd' := fun h => he (by rw [h])
    rw [ho]
    exact List.mem_filter.mpr ⟨hmem, by simpa using hne⟩
  | badFd fd' =>
    obtain ⟨-, rfl⟩ := hs
    exact hmem
  | other =>
    obtain ⟨-, -, -, ho⟩ := hs
    rwa [ho]

theorem opened_kept_run {ls : List FdEvent} {fd node : Nat} (hr : (fewerLTS P V).Run s ls t)
    (hmem : (fd, node) ∈ s.opened) (hls : .closed fd ∉ ls) : (fd, node) ∈ t.opened := by
  induction hr with
  | nil _ => exact hmem
  | cons hst _ ih =>
    rw [List.mem_cons, not_or] at hls
    exact ih (opened_kept hst hmem (Ne.symm hls.1)) hls.2

/-- What the calls do from a state on. -/
structure LowestFirst (P : PageStore σ) (V : Vfs σ ρ) (s : Process σ ρ) : Prop where
  opens : ∀ log fd node t, (fewerLTS P V).step s (.opened log fd node) t → OpensLeast s t fd node
  closes : ∀ fd t, (fewerLTS P V).step s (.closed fd) t → ClosesOnly s t fd
  closable : ∀ fd, (∃ r, sysClose V fd s.world s.caller = .ok r) ↔ fd ∈ s.opened.map Prod.fst
  /-- the descriptor of an open refers to its node until it is closed -/
  refers : ∀ log fd node t ls u, (fewerLTS P V).step s (.opened log fd node) t →
    (fewerLTS P V).Run t ls u → .closed fd ∉ ls → slot u.world.machine.mem u.caller fd = node
  distinct : (s.opened.map Prod.fst).Nodup
  apart : ∀ fd fd', fd ∈ s.opened.map Prod.fst → fd' ∈ s.opened.map Prod.fst → fd ≠ fd' →
    slotAddress s.caller fd ≠ slotAddress s.caller fd'

theorem FdInv.refers (hi : FdInv s) {log : List Access} {fd node : Nat} {ls : List FdEvent}
    (hst : (fewerLTS P V).step s (.opened log fd node) t) (hr : (fewerLTS P V).Run t ls u)
    (hls : .closed fd ∉ ls) : slot u.world.machine.mem u.caller fd = node := by
  obtain ⟨_, _, _, -, -, hn0, -, -, ho⟩ := id hst.1
  have hu : FdInv u := (fewer_inductive P V).run hr ((fewer_inductive P V).step _ _ _ hi hst)
  have hmem : (fd, node) ∈ u.opened :=
    opened_kept_run hr (by rw [ho]; exact List.mem_cons_self) hls
  exact (hu.slots fd node (hu.inside _ hmem).1 hn0).mpr hmem

theorem FdInv.slotAddress_ne (hi : FdInv s) {fd fd' : Nat} (h : fd ∈ s.opened.map Prod.fst)
    (h' : fd' ∈ s.opened.map Prod.fst) (hne : fd ≠ fd') :
    FileTable.slotAddress s.caller fd ≠ FileTable.slotAddress s.caller fd' := by
  rw [(hi.slotAddress (List.mem_range.mp (hi.keys_subset h))).1,
    (hi.slotAddress (List.mem_range.mp (hi.keys_subset h'))).1]
  omega

/-- **Descriptors are allocated lowest first and independently**, in every state of every
run in which files are opened only while fewer than `fd_max` descriptors are in use. -/
theorem descriptors_lowest_first (hs : (fewerLTS P V).Reachable s) : LowestFirst P V s := by
  have hi : FdInv s := (fewer_inductive P V).reachable hs
  exact ⟨fun _ _ _ _ hst => hi.opensLeast hst, fun _ _ hst => hi.closesOnly hst,
    hi.closable_iff V, fun _ _ _ _ _ _ hst hr hls => hi.refers hst hr hls, hi.keys,
    fun _ _ h h' hne => hi.slotAddress_ne h h' hne⟩

/-- Two files are open. -/
theorem lowest_first_small : ∃ s, s.opened = [(1, smallNode), (0, smallNode)] ∧
    LowestFirst smallStore smallVfs s := by
  obtain ⟨s, hs, ho⟩ := small_opened 2 (by decide)
  exact ⟨s, ho, descriptors_lowest_first (fewer_of_room hs.reachable)⟩

end GaOS.L6.FileTable
