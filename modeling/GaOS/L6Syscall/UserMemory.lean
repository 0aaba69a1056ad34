import GaOS.L2Paging.Entry
import GaOS.L6Syscall.FileTableInv

/-!
# What is checked of a pointer from user space

`IS_USER_MEMORY` looks at one address: it is below the direct map, and the walk of
the caller's table finds a frame. All system calls that take a pointer apply it to
the first address and to nothing else, whatever they do with the memory after it
(`sys_read` and `sys_write` pass a length on, `sys_waitpid` stores an `int`).

A walk depends on the page only, so what is known of an address is known of its
page (`isUserMemory_page`), and nothing is known of the next one
(`buffer_leaves_page`).

`sys_waitpid` is here too (kernel/src/syscalls/sys_waitpid.c). It sleeps until the
other task exits; what happens meanwhile is the parameter `wait`.
-/
namespace GaOS.L6.FileTable

open GaOS.L1 GaOS.L1.PageAllocator GaOS.L2.TableManager GaOS.L4.RoundRobin

section
variable {σ ρ : Type}

/-! ## `task_scheduler_round_robin_get_pid` -/

/-- The tasks of one queue, with at most as many as the number; `none` when there
are more.
mirrors kernel/src/schedulers/task/round_robin/round_robin.c:107-123 -/
def findInQueue (tasks : Nat → Task) (head pid : Nat) : Nat → Nat → Option (Option Nat)
  | 0, _ => none
  | n + 1, task =>
    if (tasks task).id = pid then some (some task)
    else
      let next := (tasks task).next
      if next ≠ 0 ∧ next ≠ head then findInQueue tasks head pid n next else some none

/-- From the last context backwards.
mirrors kernel/src/schedulers/task/round_robin/round_robin.c:102-128 -/
def findInContexts (tasks : Nat → Task) (pid fuel : Nat) : List Context → Option (Option Nat)
  | [] => some none
  | context :: rest => do
    match ← findInQueue tasks context.running.head pid fuel context.running.head with
    | some task => return some task
    | none => findInContexts tasks pid fuel rest

/-- mirrors kernel/src/schedulers/task/round_robin/round_robin.c:90-134 -/
def getPid (fuel pid : Nat) (s : Scheduler σ) : Option (Option Nat) :=
  if pid = 0 then some none else findInContexts s.tasks pid fuel s.contexts.reverse

/-! ## `sys_waitpid` -/

/-- Some ancestor of `task` has `id` as its parent.
mirrors kernel/src/syscalls/sys_waitpid.c:29-39 -/
def descendsFrom (fuel id : Nat) (s : Scheduler σ) : Nat → Nat → Option Bool
  | 0, _ => none
  | n + 1, task =>
    if (s.tasks task).ppid = id then some true
    else do
      match ← getPid fuel (s.tasks task).ppid s with
      | some parent => descendsFrom fuel id s n parent
      | none => return false

/-- The `int` that is stored and where to. -/
structure StatusStore where
  statLoc : Nat
  value : Nat

/-- `wait` is what the other tasks do until the one waited for is a zombie; `none`
when a walk or the wait does not end. `exit_code & 0xFF` is the code modulo 256.
mirrors kernel/src/syscalls/sys_waitpid.c:9-60 -/
def sysWaitpid (P : PageSource σ) (fuel : Nat) (wait : Scheduler σ → Option (Scheduler σ))
    (caller : Nat) (pid : Int) (statLoc : Nat) (m : Machine σ) (s : Scheduler σ) :
    Option (Except Int (Int × StatusStore) × Scheduler σ) := do
  let refered ← getPid fuel (pid % 2 ^ 64).toNat s
  match refered with
  | none => return (.error (-ECHILD), s)
  | some task =>
    if pid < 0 ∨ (s.tasks task).isWaited then return (.error (-ECHILD), s)
    else if ¬isUserMemory P m statLoc (s.tasks caller) then return (.error (-EFAULT), s)
    else
      let isChild ← descendsFrom fuel (s.tasks caller).id s fuel task
      if ¬isChild ∨ (s.tasks task).isWaited then return (.error (-ECHILD), s)
      else
        let s ← wait (s.modify task fun task => { task with isWaited := true })
        let value := ((s.tasks task).exitCode % 256).toNat
        return (.ok (pid, ⟨statLoc, value⟩), s)

end

/-! ## One address, one page -/

variable {σ ρ : Type} {P : PageSource σ} {V : Vfs σ ρ} {m : Machine σ} {w : World σ ρ}
  {caller : Task}

/-- The byte at `x` is below the direct map and in a page that is mapped. -/
def UserByte (P : PageSource σ) (m : Machine σ) (task : Task) (x : Nat) : Prop :=
  x < P.hhdm ∧ translateToPhysical P m (add64 task.registers.cpu.cr3 P.hhdm) x ≠ 0

/-- The bytes from `buffer` on that are in its page. -/
def FirstPage (buffer size x : Nat) : Prop :=
  buffer ≤ x ∧ x < buffer + size ∧ x / PAGE = buffer / PAGE

theorem isUserMemory_iff {x : Nat} : isUserMemory P m x caller = true ↔ UserByte P m caller x := by
  unfold isUserMemory UserByte
  rw [Bool.and_eq_true, decide_eq_true_eq, decide_eq_true_eq]

/-- The indices are those of the page. -/
theorem translateToPhysical_page {table x y : Nat} (h : x / PAGE = y / PAGE) :
    translateToPhysical P m table x = translateToPhysical P m table y := by
  have hv : vpn x = vpn y := by
    unfold vpn
    simp only [PAGE] at h; omega
  unfold translateToPhysical
  simp only [pml3Index_eq, pml2Index_eq, pml1Index_eq, pIndex_eq, hv]

/-- The direct map starts at a page, so a page is on one side of it. -/
theorem isUserMemory_page {x y : Nat} (hx : isUserMemory P m x caller = true)
    (h : y / PAGE = x / PAGE) : UserByte P m caller y := by
  obtain ⟨h1, h2⟩ := isUserMemory_iff.mp hx
  refine ⟨?_, by rw [translateToPhysical_page h]; exact h2⟩
  have := P.hhdm_aligned
  simp only [PAGE] at *; omega

/-! ## The calls -/

theorem sysRead_ok {fd buffer size : Nat} {r : Int × World σ ρ}
    (h : sysRead P V fd buffer size w caller = .ok r) :
    isUserMemory P w.machine buffer caller = true ∧
      ∃ node, checkFd w.machine.mem caller fd = .ok node ∧ r = V.read node buffer size w := by
  unfold sysRead at h
  split at h
  · cases h
  · rename_i hu
    exact ⟨not_not.mp hu, checkFd_map h⟩

theorem sysWrite_ok {fd buffer size : Nat} {r : Int × World σ ρ}
    (h : sysWrite P V fd buffer size w caller = .ok r) :
    isUserMemory P w.machine buffer caller = true ∧
      ∃ node, checkFd w.machine.mem caller fd = .ok node ∧ r = V.write node buffer size w := by
  unfold sysWrite at h
  split at h
  · cases h
  · rename_i hu
    exact ⟨not_not.mp hu, checkFd_map h⟩

/-- A status is stored only where `stat_loc` points and after the check of it. -/
theorem sysWaitpid_ok {fuel caller statLoc : Nat} {pid answer : Int} {store : StatusStore}
    {wait : Scheduler σ → Option (Scheduler σ)} {s s' : Scheduler σ}
    (h : sysWaitpid P fuel wait caller pid statLoc m s = some (.ok (answer, store), s')) :
    isUserMemory P m statLoc (s.tasks caller) = true ∧ store.statLoc = statLoc := by
  simp only [sysWaitpid, Option.bind_eq_bind, Option.bind_eq_some_iff] at h
  obtain ⟨refered, -, h⟩ := h
  cases refered with
  | none => cases h
  | some task =>
    simp only at h
    split at h
    · cases h
    · split at h
      · cases h
      · rename_i hu
        rw [Option.bind_eq_some_iff] at h
        obtain ⟨isChild, -, h⟩ := h
        split at h
        · cases h
        · rw [Option.bind_eq_some_iff] at h
          obtain ⟨s₁, -, h⟩ := h
          cases h
          exact ⟨not_not.mp hu, rfl⟩

/-- **What is validated.** For every table, direct map offset, pointer and size: if
`sys_read` or `sys_write` calls the VFS with `(buffer, size)`, then every byte of
the buffer that is in the page of `buffer` is below the direct map and mapped; and
whether the call is made does not depend on the size. The same holds for the bytes
of the `int` that `sys_waitpid` stores through `stat_loc`. -/
theorem first_page_validated (P : PageSource σ) (V : Vfs σ ρ) (m : Machine σ) (w : World σ ρ)
    (caller : Task) :
    (∀ fd buffer size r, sysRead P V fd buffer size w caller = .ok r →
      (∀ x, FirstPage buffer size x → UserByte P w.machine caller x) ∧
      ∀ size', ∃ r', sysRead P V fd buffer size' w caller = .ok r') ∧
    (∀ fd buffer size r, sysWrite P V fd buffer size w caller = .ok r →
      (∀ x, FirstPage buffer size x → UserByte P w.machine caller x) ∧
      ∀ size', ∃ r', sysWrite P V fd buffer size' w caller = .ok r') ∧
    ∀ fuel wait task pid statLoc s answer store s',
      sysWaitpid P fuel wait task pid statLoc m s = some (.ok (answer, store), s') →
      ∀ x, FirstPage store.statLoc 4 x → UserByte P m (s.tasks task) x := by
  refine ⟨fun fd buffer size r h => ?_, fun fd buffer size r h => ?_,
    fun fuel wait task pid statLoc s answer store s' h x hx => ?_⟩
  · obtain ⟨hu, node, hc, -⟩ := sysRead_ok h
    refine ⟨fun x hx => isUserMemory_page hu hx.2.2, fun size' => ⟨V.read node buffer size' w, ?_⟩⟩
    rw [sysRead, if_neg (not_not.mpr hu), hc]
    rfl
  · obtain ⟨hu, node, hc, -⟩ := sysWrite_ok h
    refine ⟨fun x hx => isUserMemory_page hu hx.2.2, fun size' => ⟨V.write node buffer size' w, ?_⟩⟩
    rw [sysWrite, if_neg (not_not.mpr hu), hc]
    rfl
  · obtain ⟨hu, hloc⟩ := sysWaitpid_ok h
    rw [hloc] at hx
    exact isUserMemory_page hu hx.2.2

/-- Reading into `smallPath` from descriptor 0. -/
theorem small_read {u : Process SmallPools Unit} (hu : Small u) (hm : (0, smallNode) ∈ u.opened)
    (size : Nat) : sysRead smallStore.toPageSource smallVfs 0 smallPath size u.world u.caller =
      .ok (smallVfs.read smallNode smallPath size u.world) := by
  have hi := (room_inductive _ _).reachable hu.reachable
  rw [sysRead, if_neg (not_not.mpr hu.isUserMemory), checkFd_opened hi hm, if_neg (Nat.not_lt_zero _)]
  rfl

/-- A zombie with the number 2 that the task at 8 may wait for. -/
def smallScheduler (caller : Task) (src : SmallPools) : Scheduler SmallPools where
  tasks t := if t = 8 then caller else { id := 2, ppid := caller.id, exitCode := 7 }
  contexts := [⟨0, ⟨16, 16, 16, 1⟩⟩]
  lastId := 2
  src := src

theorem small_waitpid {u : Process SmallPools Unit} (hu : Small u) :
    ∃ s', sysWaitpid smallStore.toPageSource 1 some 8 2 smallPath u.world.machine
      (smallScheduler u.caller u.world.machine.src) = some (.ok (2, ⟨smallPath, 7⟩), s') := by
  have huser := hu.isUserMemory
  generalize u.caller = caller at huser ⊢
  have hpid : getPid 1 ((2 : Int) % 2 ^ 64).toNat (smallScheduler caller u.world.machine.src) =
      some (some 16) := rfl
  have hchild : descendsFrom 1 caller.id (smallScheduler caller u.world.machine.src) 1 16 =
      some true := if_pos rfl
  have hcaller : (smallScheduler caller u.world.machine.src).tasks 8 = caller := by
    simp [smallScheduler]
  have hfree : ((smallScheduler caller u.world.machine.src).tasks 16).isWaited = false := rfl
  unfold sysWaitpid
  rw [hpid]
  simp only [Option.bind_eq_bind, Option.bind_some, hcaller, hchild, huser, hfree]
  exact ⟨_, rfl⟩

theorem first_page_validated_small : ∃ u : Process SmallPools Unit,
    (∀ x, FirstPage smallPath 8192 x → UserByte smallStore.toPageSource u.world.machine u.caller x) ∧
    ∀ x, FirstPage smallPath 4 x → UserByte smallStore.toPageSource u.world.machine u.caller x := by
  obtain ⟨u, hu, ho⟩ := small_opened 1 (by omega)
  have hread := small_read hu (by rw [ho]; exact List.mem_singleton.mpr rfl) 8192
  obtain ⟨s', hwait⟩ := small_waitpid hu
  obtain ⟨hr, -, hw⟩ := first_page_validated smallStore.toPageSource smallVfs u.world.machine u.world
    u.caller
  exact ⟨u, (hr _ _ _ _ hread).1, fun x hx => hw _ _ _ _ _ _ _ _ _ hwait x hx⟩

/-- **The rest of a buffer is not validated.** A buffer of two pages is accepted
although only the first one is mapped. -/
theorem buffer_leaves_page : ∃ u : Process SmallPools Unit,
    sysRead smallStore.toPageSource smallVfs 0 smallPath 8192 u.world u.caller =
      .ok (smallVfs.read smallNode smallPath 8192 u.world) ∧
    ¬∀ x, smallPath ≤ x → x < smallPath + 8192 →
      UserByte smallStore.toPageSource u.world.machine u.caller x := by
  obtain ⟨u, hu, ho⟩ := small_opened 1 (by omega)
  refine ⟨u, small_read hu (by rw [ho]; exact List.mem_singleton.mpr rfl) 8192, fun hall => ?_⟩
  have hbyte := hall (smallPath + 4096) (by decide) (by decide)
  apply hbyte.2
  rw [hu.translate (by decide) (by decide) (by decide) (by decide)]
  decide

end GaOS.L6.FileTable
