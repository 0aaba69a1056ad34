import GaOS.Core.LTS
import GaOS.L1Memory.PageSource

/-!
# Which context the GS base points to

Model of kernel/src/arch/x86_64/context/context.c. A CPU keeps two pointers in its GS
base and its kernel GS base: its own context and the running task. Which one is which is
not recorded; it is read off the first word behind the GS base, a magic number in the
CPU's context and the id in a task, and every getter swaps the two when it finds the
other one. The getter of the task does not test for null, so `none` is its access through
a null pointer.

`contextLTS` is a CPU from `arch_context_install` on. `contexts_kept` is that no order of
the calls loses the CPU's context or the task that was installed last. The only order
that is left out is asking for the task while there is none.
-/
namespace GaOS.L4.Context

open GaOS.L1 GaOS.L1.PageAllocator

/-! ## The code -/

def CONTEXT_TYPE_CPU : Nat := 0x55555555

/-- `sizeof(arch_cpu_context_t)`
mirrors kernel/src/arch/x86_64/context/context.h:5-17 -/
def SIZEOF_CPU_CONTEXT : Nat := 48

/-- `MSR_GS_BASE` and `MSR_GS_KERNEL_BASE`. -/
structure Bases where
  gs : Nat
  kernelGs : Nat
  deriving DecidableEq, Repr

def swapgs (r : Bases) : Bases := ⟨r.kernelGs, r.gs⟩

/-- mirrors kernel/src/arch/x86_64/context/context.c:11-14 -/
def archGetCurrentContext (r : Bases) : Nat := r.gs

/-- mirrors kernel/src/arch/x86_64/context/context.c:16-24 -/
def archGetCpuContext (mem : Mem) (r : Bases) : Nat × Bases :=
  let context := archGetCurrentContext r
  let r := if context = 0 ∨ mem context ≠ CONTEXT_TYPE_CPU then swapgs r else r
  (archGetCurrentContext r, r)

/-- mirrors kernel/src/arch/x86_64/context/context.c:58-65 -/
def archGetTaskContext (mem : Mem) (r : Bases) : Option (Nat × Bases) :=
  let context := archGetCurrentContext r
  if context = 0 then none
  else
    let r := if mem context = CONTEXT_TYPE_CPU then swapgs r else r
    some (archGetCurrentContext r, r)

/-- mirrors kernel/src/arch/x86_64/context/context.c:51-56 -/
def archInstallTaskContext (mem : Mem) (r : Bases) (context : Nat) : Option (Nat × Bases) := do
  let (_, r) ← archGetTaskContext mem r
  return (context, { r with gs := context })

/-- mirrors kernel/src/arch/x86_64/context/context.c:26-37 -/
def archContextInstall {σ : Type} (P : PageSource σ) (m : Machine σ) :
    Option (Nat × Bases × Machine σ) := do
  if SIZEOF_CPU_CONTEXT > PAGE then none
  else
    let (context, m) ← m.pageAllocate P 1
    return (context, ⟨context, 0⟩, { m with mem := m.mem.store context CONTEXT_TYPE_CPU })

/-! ## A CPU in use -/

structure Cpu where
  bases : Bases
  mem : Mem

inductive Call where
  /-- with what it returns -/
  | getCpu (context : Nat)
  /-- with what it returns -/
  | getTask (context : Nat)
  | install (task : Nat)
  /-- the rest of the kernel -/
  | other

/-- What the rest of the kernel leaves alone: the kind of the contexts in use. -/
def KeepsKinds (r : Bases) (mem mem' : Mem) : Prop :=
  ∀ c, c ≠ 0 → c = r.gs ∨ c = r.kernelGs →
    (mem' c = CONTEXT_TYPE_CPU ↔ mem c = CONTEXT_TYPE_CPU)

def contextLTS {σ : Type} (P : PageSource σ) (cpu : Nat) : LTS Cpu Call where
  init s := ∃ m m', archContextInstall P m = some (cpu, s.bases, m') ∧ s.mem = m'.mem
  step s l t := match l with
    | .getCpu c => t.mem = s.mem ∧ archGetCpuContext s.mem s.bases = (c, t.bases)
    | .getTask c => t.mem = s.mem ∧ archGetTaskContext s.mem s.bases = some (c, t.bases)
    | .install c => c ≠ 0 ∧ s.mem c ≠ CONTEXT_TYPE_CPU ∧ t.mem = s.mem ∧
        archInstallTaskContext s.mem s.bases c = some (c, t.bases)
    | .other => t.bases = s.bases ∧ KeepsKinds s.bases s.mem t.mem

/-- The task that a call installs, if it does. -/
def Call.installed : Call → Option Nat
  | .install c => some c
  | _ => none

/-- The task that was installed last. -/
def lastInstalled (calls : List Call) : Option Nat := (calls.filterMap Call.installed).getLast?

theorem lastInstalled_snoc (calls : List Call) (l : Call) :
    lastInstalled (calls ++ [l]) = l.installed.or (lastInstalled calls) := by
  cases h : l.installed with
  | none => simp [lastInstalled, h]
  | some c => simp [lastInstalled, h]

/-- Nobody asks for the task before the first one is installed. -/
def Ordered (calls : List Call) : Prop :=
  ∀ before c after, calls = before ++ .getTask c :: after → lastInstalled before ≠ none

theorem Ordered.init {calls : List Call} {l : Call} (h : Ordered (calls ++ [l])) :
    Ordered calls := by
  intro before c after hc
  exact h before c (after ++ [l]) (by simp [hc])

/-! ## The invariant -/

/-- The bases hold the CPU's context and the task, or null before the first one. -/
structure Kept (cpu : Nat) (last : Option Nat) (s : Cpu) : Prop where
  cpu_ne : cpu ≠ 0
  cpu_kind : s.mem cpu = CONTEXT_TYPE_CPU
  task : ∀ c, last = some c → c ≠ 0 ∧ s.mem c ≠ CONTEXT_TYPE_CPU
  bases : s.bases = ⟨cpu, last.getD 0⟩ ∨ ∃ c, last = some c ∧ s.bases = ⟨c, cpu⟩

variable {cpu : Nat} {last : Option Nat} {s : Cpu}

theorem Kept.getCpu (h : Kept cpu last s) :
    archGetCpuContext s.mem s.bases = (cpu, ⟨cpu, last.getD 0⟩) := by
  rcases h.bases with hb | ⟨c, rfl, hb⟩
  · simp [archGetCpuContext, archGetCurrentContext, hb, h.cpu_ne, h.cpu_kind]
  · simp [archGetCpuContext, archGetCurrentContext, hb, (h.task c rfl).2, swapgs]

/-- The task's getter ends with the task in the GS base. -/
theorem Kept.getTask (h : Kept cpu last s) :
    archGetTaskContext s.mem s.bases = some (last.getD 0, ⟨last.getD 0, cpu⟩) := by
  rcases h.bases with hb | ⟨c, rfl, hb⟩
  · simp [archGetTaskContext, archGetCurrentContext, hb, h.cpu_ne, h.cpu_kind, swapgs]
  · simp [archGetTaskContext, archGetCurrentContext, hb, (h.task c rfl).1, (h.task c rfl).2]

theorem Kept.install (h : Kept cpu last s) (c : Nat) :
    archInstallTaskContext s.mem s.bases c = some (c, ⟨c, cpu⟩) := by
  simp [archInstallTaskContext, h.getTask]

theorem kept_init {σ : Type} {P : PageSource σ} (h : (contextLTS P cpu).init s) :
    Kept cpu none s := by
  obtain ⟨m, m', hi, hmem⟩ := h
  simp only [archContextInstall, SIZEOF_CPU_CONTEXT, PAGE, gt_iff_lt, show ¬4096 < 48 by decide,
    if_false, Option.bind_eq_bind, Option.bind_eq_some_iff, Option.pure_def, Option.some.injEq,
    Prod.mk.injEq, Prod.exists] at hi
  obtain ⟨context, m₁, hp, rfl, hb, hm⟩ := hi
  have hne : context ≠ 0 := by
    have := (Machine.pageAllocate_spec hp).1.above
    simp only [PAGE] at this
    omega
  refine ⟨hne, ?_, by simp, .inl hb.symm⟩
  rw [hmem, ← hm]
  exact Mem.store_self _ _ _

/-- Every call keeps them; the task's getter needs a task. -/
theorem kept_step {σ : Type} {P : PageSource σ} {t : Cpu} {l : Call} (h : Kept cpu last s)
    (hask : ∀ c, l = .getTask c → last ≠ none) (hst : (contextLTS P cpu).step s l t) :
    Kept cpu (l.installed.or last) t := by
  cases l with
  | getCpu c =>
    obtain ⟨hmem, hc⟩ := hst
    rw [h.getCpu, Prod.mk.injEq] at hc
    exact ⟨h.cpu_ne, hmem ▸ h.cpu_kind, hmem ▸ h.task, .inl hc.2.symm⟩
  | getTask c =>
    obtain ⟨hmem, hc⟩ := hst
    rw [h.getTask, Option.some.injEq, Prod.mk.injEq] at hc
    obtain ⟨task, rfl⟩ := Option.ne_none_iff_exists'.mp (hask c rfl)
    exact ⟨h.cpu_ne, hmem ▸ h.cpu_kind, hmem ▸ h.task, .inr ⟨task, rfl, hc.2.symm⟩⟩
  | install c =>
    obtain ⟨hne, hkind, hmem, hc⟩ := hst
    rw [h.install, Option.some.injEq, Prod.mk.injEq] at hc
    refine ⟨h.cpu_ne, hmem ▸ h.cpu_kind, fun c' he => ?_, .inr ⟨c, rfl, hc.2.symm⟩⟩
    cases he
    exact ⟨hne, hmem ▸ hkind⟩
  | other =>
    obtain ⟨hb, hkeep⟩ := hst
    -- both contexts are in the bases, so that their kinds stay
    have hcpu : cpu = s.bases.gs ∨ cpu = s.bases.kernelGs := by
      rcases h.bases with hb | ⟨c, -, hb⟩
      · exact .inl (by rw [hb])
      · exact .inr (by rw [hb])
    have htask : ∀ c, last = some c → c = s.bases.gs ∨ c = s.bases.kernelGs := by
      intro c hc
      rcases h.bases with hb | ⟨c', hc', hb⟩
      · exact .inr (by rw [hb, hc]; rfl)
      · rw [hc, Option.some.injEq] at hc'
        exact .inl (by rw [hb, hc'])
    refine ⟨h.cpu_ne, (hkeep cpu h.cpu_ne hcpu).mpr h.cpu_kind, fun c hc => ?_, hb ▸ h.bases⟩
    have hc := (Option.none_or (o := last)) ▸ hc
    have ⟨hne, hkind⟩ := h.task c hc
    exact ⟨hne, fun hk => hkind ((hkeep c hne (htask c hc)).mp hk)⟩

theorem kept_run {σ : Type} {P : PageSource σ} {s₀ : Cpu} {calls : List Call}
    (h₀ : (contextLTS P cpu).init s₀) (hrun : (contextLTS P cpu).Run s₀ calls s)
    (ho : Ordered calls) : Kept cpu (lastInstalled calls) s := by
  refine LTS.Run.history (I := fun calls s => Ordered calls → Kept cpu (lastInstalled calls) s)
    hrun (fun _ => kept_init h₀) (fun calls s l t ih hst ho => ?_) ho
  rw [lastInstalled_snoc]
  refine kept_step (ih ho.init) (fun c hc => ?_) hst
  exact ho calls c [] (by rw [hc])

/-- **No context is lost.** After any calls on a CPU, none of which asks for the task before
the first one is installed: one of the bases holds the CPU's context and the other one
null or the task that was installed last; the CPU's getter returns the CPU's context, the
task's getter the task that was installed last, and installing another one works. -/
theorem contexts_kept {σ : Type} {P : PageSource σ} {s₀ : Cpu} {calls : List Call}
    (h₀ : (contextLTS P cpu).init s₀) (hrun : (contextLTS P cpu).Run s₀ calls s)
    (ho : Ordered calls) :
    (s.bases = ⟨cpu, (lastInstalled calls).getD 0⟩ ∨
      s.bases = ⟨(lastInstalled calls).getD 0, cpu⟩) ∧
    (archGetCpuContext s.mem s.bases).1 = cpu ∧
    (∀ c, lastInstalled calls = some c →
      (archGetTaskContext s.mem s.bases).map Prod.fst = some c) ∧
    ∀ c, (archInstallTaskContext s.mem s.bases c).map Prod.fst = some c := by
  have h := kept_run h₀ hrun ho
  refine ⟨?_, by rw [h.getCpu], fun c hc => ?_, fun c => ?_⟩
  · rcases h.bases with hb | ⟨c, hc, hb⟩
    · exact .inl hb
    · exact .inr (by rw [hb, hc]; rfl)
  · rw [h.getTask, hc]
    rfl
  · rw [h.install]
    rfl

/-- The first task of a CPU. -/
theorem contexts_kept_first : ∃ (P : PageSource Nat) (cpu : Nat) (s₀ s : Cpu),
    (contextLTS P cpu).init s₀ ∧
      (contextLTS P cpu).Run s₀ [.getCpu cpu, .install 0x9000, .getCpu cpu] s ∧
      (archGetCpuContext s.mem s.bases).1 = cpu ∧
      (archGetTaskContext s.mem s.bases).map Prod.fst = some 0x9000 := by
  let P := bumpSource 0xFFFF800000000000 64 hhdm_aligned pages64_physical pages64_end
  obtain ⟨⟨cpu, b, m⟩, h⟩ := Option.isSome_iff_exists.mp
    (show (archContextInstall P ⟨fun _ => 0, 0⟩).isSome by rfl)
  have htask : (archContextInstall P ⟨fun _ => 0, 0⟩).map (fun r => r.2.2.mem 0x9000) = some 0 := by
    rfl
  rw [h, Option.map_some, Option.some.injEq] at htask
  have h₀ : (contextLTS P cpu).init ⟨b, m.mem⟩ := ⟨_, m, h, rfl⟩
  have hk := kept_init h₀
  have hkind : m.mem 0x9000 ≠ CONTEXT_TYPE_CPU := by
    rw [htask]
    decide
  have h1 : (contextLTS P cpu).step ⟨b, m.mem⟩ (.getCpu cpu) ⟨⟨cpu, 0⟩, m.mem⟩ := ⟨rfl, hk.getCpu⟩
  have hk1 := kept_step hk (by simp) h1
  have h2 : (contextLTS P cpu).step ⟨⟨cpu, 0⟩, m.mem⟩ (.install 0x9000) ⟨⟨0x9000, cpu⟩, m.mem⟩ :=
    ⟨by decide, hkind, rfl, hk1.install 0x9000⟩
  have hk2 := kept_step hk1 (by simp) h2
  have h3 : (contextLTS P cpu).step ⟨⟨0x9000, cpu⟩, m.mem⟩ (.getCpu cpu) ⟨⟨cpu, 0x9000⟩, m.mem⟩ :=
    ⟨rfl, hk2.getCpu⟩
  have hrun := LTS.Run.cons h1 (.cons h2 (.cons h3 (.nil _)))
  have ho : Ordered [.getCpu cpu, .install 0x9000, .getCpu cpu] := by
    intro before c after hc
    have hmem : Call.getTask c ∈ [Call.getCpu cpu, .install 0x9000, .getCpu cpu] := by
      rw [hc]
      simp
    simp at hmem
  obtain ⟨-, hcpu, hlast, -⟩ := contexts_kept h₀ hrun ho
  exact ⟨P, cpu, _, _, h₀, hrun, hcpu, hlast 0x9000 rfl⟩

end GaOS.L4.Context
