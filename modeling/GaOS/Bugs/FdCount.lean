import GaOS.L6Syscall.FileTableInv

/-!
# The descriptor check of read, write and lseek

`sys_close` checks a descriptor against `fd_max`; `sys_read`, `sys_write` and
`sys_lseek` check it against `fd_count` (kernel/src/syscalls/sys_read.c:20,
sys_write.c:20, sys_lseek.c:15). `fd_count` is one more than the number of open
descriptors, so it bounds them only while they are dense: after a close of a
low descriptor the highest ones are refused, although they are open and
`sys_close` still takes them.

`usable_iff_dense` is the exact condition.

Counterexample: open three files, close 0 and 1, read from 2.

Fix: check `fd >= caller->fd_max`, as `sys_close` does.
-/
namespace GaOS.Bugs.FdCount

open GaOS.L1 GaOS.L1.PageAllocator GaOS.L2.TableManager GaOS.L4.RoundRobin GaOS.L6.FileTable

variable {σ ρ : Type} {P : PageStore σ} {V : Vfs σ ρ} {s : Process σ ρ}

/-! ## What should hold -/

/-- The three calls on `fd` reach `node`. Reads and writes are with a buffer that
passes the check on pointers, which comes first. -/
structure Usable (P : PageStore σ) (V : Vfs σ ρ) (s : Process σ ρ) (fd node : Nat) : Prop where
  read : ∀ buffer size, isUserMemory P.toPageSource s.world.machine buffer s.caller = true →
    sysRead P.toPageSource V fd buffer size s.world s.caller = .ok (V.read node buffer size s.world)
  write : ∀ buffer size, isUserMemory P.toPageSource s.world.machine buffer s.caller = true →
    sysWrite P.toPageSource V fd buffer size s.world s.caller =
      .ok (V.write node buffer size s.world)
  lseek : ∀ offset whence,
    sysLseek V fd offset whence s.world s.caller = .ok (V.lseek node offset whence s.world)

structure Refused (P : PageStore σ) (V : Vfs σ ρ) (s : Process σ ρ) (fd : Nat) : Prop where
  read : ∀ buffer size, isUserMemory P.toPageSource s.world.machine buffer s.caller = true →
    sysRead P.toPageSource V fd buffer size s.world s.caller = .error (-EBADF)
  write : ∀ buffer size, isUserMemory P.toPageSource s.world.machine buffer s.caller = true →
    sysWrite P.toPageSource V fd buffer size s.world s.caller = .error (-EBADF)
  lseek : ∀ offset whence, sysLseek V fd offset whence s.world s.caller = .error (-EBADF)

/-- Open descriptors are usable, and on any other one the calls agree with
`sys_close`. -/
structure FdsUsable (P : PageStore σ) (V : Vfs σ ρ) (s : Process σ ρ) : Prop where
  opened : ∀ fd node, (fd, node) ∈ s.opened → Usable P V s fd node
  others : ∀ fd, fd ∉ s.opened.map Prod.fst →
    (Refused P V s fd ↔ sysClose V fd s.world s.caller = .error (-EBADF))

/-! ## The check -/

theorem usable_of_checkFd {fd node : Nat} (h : checkFd s.world.machine.mem s.caller fd = .ok node) :
    Usable P V s fd node := by
  constructor
  · intro buffer size hb
    rw [sysRead, if_neg (not_not.mpr hb), h]
    rfl
  · intro buffer size hb
    rw [sysWrite, if_neg (not_not.mpr hb), h]
    rfl
  · intro offset whence
    rw [sysLseek, h]
    rfl

theorem refused_of_checkFd {fd : Nat}
    (h : checkFd s.world.machine.mem s.caller fd = .error (-EBADF)) : Refused P V s fd := by
  constructor
  · intro buffer size hb
    rw [sysRead, if_neg (not_not.mpr hb), h]
    rfl
  · intro buffer size hb
    rw [sysWrite, if_neg (not_not.mpr hb), h]
    rfl
  · intro offset whence
    rw [sysLseek, h]
    rfl

theorem not_usable_of_refused {fd node : Nat} (hr : Refused P V s fd) : ¬Usable P V s fd node := by
  intro hu
  have h := (hr.lseek 0 0).symm.trans (hu.lseek 0 0)
  cases h

/-- **Per descriptor.** An open descriptor is usable exactly if it is at most the
number of open ones, and is refused by all three calls otherwise. -/
theorem opened_usable_iff (hi : FdInv s) {fd node : Nat} (hm : (fd, node) ∈ s.opened) :
    Usable P V s fd node ↔ fd ≤ s.opened.length := by
  have hc := checkFd_opened hi hm
  constructor
  · intro hu
    by_contra hgt
    rw [if_pos (Nat.not_le.mp hgt)] at hc
    exact not_usable_of_refused (refused_of_checkFd hc) hu
  · intro hle
    rw [if_neg (Nat.not_lt.mpr hle)] at hc
    exact usable_of_checkFd hc

/-- A free slot is refused by everybody. -/
theorem free_refused (hi : FdInv s) (hroom : s.opened.length < s.caller.fdMax) {fd : Nat}
    (hfree : fd ∉ s.opened.map Prod.fst) :
    Refused P V s fd ∧ sysClose V fd s.world s.caller = .error (-EBADF) := by
  rcases Nat.lt_or_ge fd s.caller.fdMax with hlt | hge
  · have h0 := (hi.slot_eq_zero hlt).mpr hfree
    refine ⟨refused_of_checkFd ?_, ?_⟩
    · rw [checkFd, if_pos h0, ite_self]
    · rw [sysClose, if_pos (.inr h0)]
  · refine ⟨refused_of_checkFd ?_, ?_⟩
    · rw [checkFd, if_pos (by rw [hi.count]; omega)]
    · rw [sysClose, if_pos (.inl hge)]

/-- **When open descriptors stay usable.** In every state of every run, with fewer
than `fd_max` descriptors open, the calls reach the nodes of all open descriptors
and agree with `sys_close` on the others exactly if no open descriptor is greater
than the number of open descriptors. -/
theorem usable_iff_dense (hs : (roomLTS P V).Reachable s)
    (hroom : s.opened.length < s.caller.fdMax) :
    FdsUsable P V s ↔ ∀ fd ∈ s.opened.map Prod.fst, fd ≤ s.opened.length := by
  have hi := (room_inductive P V).reachable hs
  constructor
  · intro h fd hfd
    obtain ⟨⟨fd, node⟩, hm, rfl⟩ := List.mem_map.mp hfd
    exact (opened_usable_iff hi hm).mp (h.opened fd node hm)
  · intro hdense
    refine ⟨fun fd node hm => ?_, fun fd hfree => ?_⟩
    · exact (opened_usable_iff hi hm).mpr (hdense fd (List.mem_map_of_mem hm))
    · obtain ⟨h1, h2⟩ := free_refused (P := P) (V := V) hi hroom hfree
      exact ⟨fun _ => h2, fun _ => h1⟩

theorem usable_dense_small : ∃ s, (roomLTS smallStore smallVfs).Reachable s ∧
    (0, smallNode) ∈ s.opened ∧ FdsUsable smallStore smallVfs s := by
  obtain ⟨s, hs, ho⟩ := small_opened 1 (by omega)
  refine ⟨s, hs.reachable, by rw [ho]; exact List.mem_singleton.mpr rfl, ?_⟩
  refine (usable_iff_dense hs.reachable ?_).mpr ?_
  · rw [hs.max_eq, ho]
    simp
  · rw [ho]
    simp

/-! ## Counterexample -/

/-- **An open descriptor is refused.** Three files opened, 0 and 1 closed: 2 is
open, `sys_close` would take it, and `sys_read`, `sys_write` and `sys_lseek`
answer `-EBADF`. -/
theorem open_descriptor_refused : ∃ s, (roomLTS smallStore smallVfs).Reachable s ∧
    s.opened.length < s.caller.fdMax ∧ (2, smallNode) ∈ s.opened ∧
    Refused smallStore smallVfs s 2 ∧ ¬FdsUsable smallStore smallVfs s := by
  obtain ⟨s₃, h₃, ho₃⟩ := small_opened 3 (by omega)
  obtain ⟨s₂, h₂, ho₂⟩ := h₃.closes 0 (by rw [ho₃]; simp)
  obtain ⟨s₁, h₁, ho₁⟩ := h₂.closes 1 (by rw [ho₂, ho₃]; simp)
  have ho : s₁.opened = [(2, smallNode)] := by
    rw [ho₁, ho₂, ho₃]
    rfl
  have hm : (2, smallNode) ∈ s₁.opened := by rw [ho]; exact List.mem_singleton.mpr rfl
  have hi := (room_inductive _ _).reachable h₁.reachable
  have href : Refused smallStore smallVfs s₁ 2 := by
    apply refused_of_checkFd
    rw [checkFd_opened hi hm, ho]
    rfl
  refine ⟨s₁, h₁.reachable, ?_, hm, href, fun h => ?_⟩
  · rw [h₁.max_eq, ho]
    simp
  · exact not_usable_of_refused href (h.opened 2 smallNode hm)

end GaOS.Bugs.FdCount
