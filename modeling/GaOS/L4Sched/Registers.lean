import GaOS.L4Sched.QueueInv

/-!
# No task runs with another task's registers

`Ideal` is what multitasking promises, computed from the events of a run alone:
which task each processor runs, and for each task the registers that it must be
given next, those of its last interrupt or, before it has run, those it was
created with. The kernel has no such record. It only has `current`, which a pop
sets in one of its branches, also for tasks that the selection loop then passes
over. `Faithful` says that the two agree, and is kept by every step of `cpuLTS`,
where each processor is enabled once and then alternates between running a task
and rescheduling.
-/
namespace GaOS.L4.RoundRobin

open GaOS.L1

/-! ## Processors -/

inductive Phase where
  /-- `task_scheduler_round_robin_enable` was not called yet -/
  | off
  /-- the code of a task runs -/
  | user
  /-- in the selection loop of `task_scheduler_round_robin_reschedule` -/
  | selecting
  deriving DecidableEq

/-- The phases of all processors after an event; `none` where a processor cannot
be the source of it. -/
def phasesAfter (φ : Nat → Phase) : Event → Option (Nat → Phase)
  | .enable c _ _ => if φ c = .off then some (Function.update φ c .user) else none
  | .interrupt c _ _ => if φ c = .user then some (Function.update φ c .selecting) else none
  | .skip c _ => if φ c = .selecting then some φ else none
  | .resume c _ _ => if φ c = .selecting then some (Function.update φ c .user) else none
  | _ => some φ

structure Cpus (σ : Type) where
  scheduler : Scheduler σ
  phase : Nat → Phase

/-- The scheduler as the processors use it. -/
def cpuLTS {σ : Type} (P : PageSource σ) (image : Image) : LTS (Cpus σ) Event where
  init s := (schedulerLTS P image).init s.scheduler ∧ s.phase = fun _ => .off
  step s e s' := (schedulerLTS P image).step s.scheduler e s'.scheduler ∧
    phasesAfter s.phase e = some s'.phase

/-! ## The ideal -/

structure Ideal where
  /-- the task that the processor of a context runs -/
  running : Nat → Option Nat
  creation : Nat → Registers
  /-- as of a task's last interrupt -/
  interrupted : Nat → Option Registers

def Ideal.after (i : Ideal) : Event → Ideal
  | .install _ task r | .create _ task r | .fill task r =>
    { i with creation := Function.update i.creation task r }
  | .enable c task _ | .resume c task _ =>
    { i with running := Function.update i.running c (some task) }
  | .interrupt c _ r =>
    match i.running c with
    | some task => { i with
        running := Function.update i.running c none
        interrupted := Function.update i.interrupted task (some r) }
    | none => i
  | _ => i

def ideal (es : List Event) : Ideal :=
  es.foldl Ideal.after ⟨fun _ => none, fun _ => {}, fun _ => none⟩

theorem ideal_append (es : List Event) (e : Event) : ideal (es ++ [e]) = (ideal es).after e :=
  List.foldl_append ..

/-- What a task must be given when it gets a processor. -/
def Ideal.registers (i : Ideal) (t : Nat) : Registers := (i.interrupted t).getD (i.creation t)

/-! ## The kernel keeps to it -/

variable {σ : Type} {P : PageSource σ} {image : Image} {s s' : Scheduler σ} {φ φ' : Nat → Phase}
  {L : Nat → List Nat} {i : Ideal} {c t : Nat} {e : Event} {es : List Event}

structure Faithful (s : Scheduler σ) (φ : Nat → Phase) (L : Nat → List Nat) (i : Ideal) :
    Prop where
  running : ∀ c, φ c = .user → ∃ q, s.queue c = some q ∧ i.running c = some q.current ∧
    (s.tasks q.current).empty = false
  /-- what `enable` will pop -/
  first : ∀ c t m, φ c = .off → L c = t :: m → (s.tasks t).empty = false
  /-- a task that was interrupted is not filled again -/
  ran : ∀ t r, i.interrupted t = some r → (∃ d, t ∈ L d) ∧ (s.tasks t).empty = false
  saved : ∀ d, ∀ t ∈ L d, i.registers t = (s.tasks t).registers

/-- A new task joins; its registers are those it was created with. -/
theorem Faithful.made {task : Task} {r : Registers} (h : Represents P s L) (hf : Faithful s φ L i)
    (hm : Made P s s' L c t task) (hr : r = (s'.tasks t).registers)
    (hfirst : L c = [] → task.empty = false) :
    Faithful s' φ (Function.update L c (L c ++ [t]))
      { i with creation := Function.update i.creation t r } := by
  have hold : ∀ d x, x ∈ L d → (s'.tasks x).unlinked = (s.tasks x).unlinked :=
    fun d x hx => hm.old x fun he => hm.fresh d (he ▸ hx)
  have hempty : ∀ d x, x ∈ L d → (s.tasks x).empty = false → (s'.tasks x).empty = false :=
    fun d x hx he => (empty_eq_of_unlinked (hold d x hx)).trans he
  have hmem : ∀ d x, x ∈ L d → x ∈ Function.update L c (L c ++ [t]) d := by
    intro d x hx
    by_cases hd : d = c
    · subst hd; simp [hx]
    · rwa [Function.update_of_ne hd]
  have hnew : i.interrupted t = none := by
    cases hi : i.interrupted t with
    | none => rfl
    | some r =>
      obtain ⟨⟨d, hd⟩, -⟩ := hf.ran t r hi
      exact absurd hd (hm.fresh d)
  refine ⟨fun d hd => ?_, fun d x m hd hl => ?_, fun x r' hx => ?_, fun d x hx => ?_⟩
  · obtain ⟨q, hq, hrun, he⟩ := hf.running d hd
    obtain ⟨q', hq', hcur⟩ := hm.current d q hq
    refine ⟨q', hq', by rw [hcur]; exact hrun, ?_⟩
    rw [hcur]
    exact hempty d q.current (h.holds d q hq).current he
  · by_cases hdc : d = c
    · subst hdc
      rw [Function.update_self] at hl
      cases hlc : L d with
      | nil =>
        rw [hlc] at hl
        cases hl
        rw [empty_eq_of_unlinked hm.new]
        exact hfirst hlc
      | cons y m' =>
        rw [hlc] at hl
        cases hl
        exact hempty d x (by simp [hlc]) (hf.first d x m' hd hlc)
    · rw [Function.update_of_ne hdc] at hl
      exact hempty d x (by simp [hl]) (hf.first d x m hd hl)
  · obtain ⟨⟨d, hd⟩, he⟩ := hf.ran x r' hx
    exact ⟨⟨d, hmem d x hd⟩, hempty d x hd he⟩
  · by_cases hxt : x = t
    · subst hxt
      simp only [Ideal.registers, hnew, Option.getD_none, Function.update_self]
      exact hr
    · have hxd : x ∈ L d := by
        by_cases hd : d = c
        · subst hd
          rw [Function.update_self] at hx
          simpa [hxt] using hx
        · rwa [Function.update_of_ne hd] at hx
      have := hf.saved d x hxd
      simp only [Ideal.registers, Function.update_of_ne hxt] at this ⊢
      rw [this, registers_eq_of_unlinked (hold d x hxd)]

/-- A processor pops `t`; if it goes on with `t`, `current` says so. -/
theorem Faithful.popped {m : List Nat} {running : Nat → Option Nat} (hf : Faithful s φ L i)
    (hm : Popped P s s' L c t m) (hφ : ∀ d, d ≠ c → φ' d = φ d) (hoff : φ' c ≠ .off)
    (hother : ∀ d, d ≠ c → running d = i.running d)
    (huser : φ' c = .user → running c = some t ∧ (s.tasks t).empty = false) :
    Faithful s' φ' (Function.update L c (m ++ [t])) { i with running := running } := by
  have hempty : ∀ x, (s'.tasks x).empty = (s.tasks x).empty :=
    fun x => empty_eq_of_unlinked (hm.same x)
  have hmem : ∀ d x, x ∈ Function.update L c (m ++ [t]) d ↔ x ∈ L d := by
    intro d x
    by_cases hd : d = c
    · subst hd; rw [Function.update_self, hm.first]; simp [or_comm]
    · rw [Function.update_of_ne hd]
  refine ⟨fun d hd => ?_, fun d x m' hd hl => ?_, fun x r hx => ?_, fun d x hx => ?_⟩
  · by_cases hdc : d = c
    · subst hdc
      obtain ⟨q, hq, hcur⟩ := hm.current
      obtain ⟨hrun, he⟩ := huser hd
      exact ⟨q, hq, by rw [hcur]; exact hrun, by rw [hcur, hempty, he]⟩
    · rw [hφ d hdc] at hd
      obtain ⟨q, hq, hrun, he⟩ := hf.running d hd
      exact ⟨q, (hm.others d hdc).trans hq, (hother d hdc).trans hrun, (hempty _).trans he⟩
  · have hdc : d ≠ c := fun he => hoff (he ▸ hd)
    rw [Function.update_of_ne hdc] at hl
    rw [hφ d hdc] at hd
    exact (hempty x).trans (hf.first d x m' hd hl)
  · obtain ⟨⟨d, hd⟩, he⟩ := hf.ran x r hx
    exact ⟨⟨d, (hmem d x).mpr hd⟩, (hempty x).trans he⟩
  · exact (hf.saved d x ((hmem d x).mp hx)).trans (registers_eq_of_unlinked (hm.same x)).symm

/-- Steps that write to tasks but leave the queues alone. -/
theorem Faithful.data {i' : Ideal} (h : Represents P s L) (hf : Faithful s φ L i)
    (hst : (schedulerLTS P image).step s e s') (hq : ∀ d, s'.queue d = s.queue d)
    (hoff : ∀ d, φ' d = .off → φ d = .off)
    (huser : ∀ d, φ' d = .user → φ d = .user ∧ i'.running d = i.running d)
    (hran : ∀ t r, i'.interrupted t = some r →
      (∃ r, i.interrupted t = some r) ∨ ((∃ d, t ∈ L d) ∧ (s.tasks t).empty = false))
    (hsaved : ∀ d, ∀ t ∈ L d, i'.registers t = (s'.tasks t).registers) : Faithful s' φ' L i' := by
  have hempty : ∀ d x, x ∈ L d → (s.tasks x).empty = false → (s'.tasks x).empty = false :=
    fun d x hx => (step_task h hx hst).filled
  refine ⟨fun d hd => ?_, fun d x m hd hl => ?_, fun x r hx => ?_, hsaved⟩
  · obtain ⟨hd, hsame⟩ := huser d hd
    obtain ⟨q, hqd, hrun, he⟩ := hf.running d hd
    exact ⟨q, (hq d).trans hqd, hsame.trans hrun, hempty d _ (h.holds d q hqd).current he⟩
  · exact hempty d x (by simp [hl]) (hf.first d x m (hoff d hd) hl)
  · have hx' : (∃ d, x ∈ L d) ∧ (s.tasks x).empty = false := by
      rcases hran x r hx with ⟨r', hr'⟩ | hx
      · exact hf.ran x r' hr'
      · exact hx
    obtain ⟨⟨d, hd⟩, he⟩ := hx'
    exact ⟨⟨d, hd⟩, hempty d x hd he⟩

/-- Steps that change nothing the ideal knows of. -/
theorem Faithful.still (h : Represents P s L) (hf : Faithful s φ L i)
    (hst : (schedulerLTS P image).step s e s') (hq : ∀ d, s'.queue d = s.queue d)
    (hw : e.written = none) : Faithful s' φ L i := by
  refine hf.data h hst hq (fun d hd => hd) (fun d hd => ⟨hd, rfl⟩) (fun t r hr => .inl ⟨r, hr⟩) ?_
  intro d t ht
  rw [hf.saved d t ht, (step_task h ht hst).kept fun r hr => by rw [hw] at hr; cases hr]

theorem Faithful.fill {r : Registers} (h : Represents P s L) (hf : Faithful s φ L i)
    (hst : (schedulerLTS P image).step s (.fill t r) (fill t r s))
    (hempty : (s.tasks t).empty = true) :
    Faithful (RoundRobin.fill t r s) φ L { i with creation := Function.update i.creation t r } := by
  refine hf.data h hst (fun _ => rfl) (fun d hd => hd) (fun d hd => ⟨hd, rfl⟩)
    (fun t r hr => .inl ⟨r, hr⟩) fun d x hx => ?_
  have hstep := step_task h hx hst
  by_cases hxt : x = t
  · subst hxt
    have hnew : i.interrupted x = none := by
      cases hi : i.interrupted x with
      | none => rfl
      | some r' =>
        have := (hf.ran x r' hi).2
        rw [hempty] at this
        cases this
    rw [hstep.written r rfl]
    simp [Ideal.registers, hnew]
  · rw [hstep.kept fun r' hr => hxt (by cases hr; rfl), ← hf.saved d x hx]
    simp [Ideal.registers, Function.update_of_ne hxt]

/-- A timer interrupt: the registers go where the ideal wants them. -/
theorem Faithful.interrupt {r : Registers} {q : Queue} (h : Represents P s L)
    (hf : Faithful s φ L i) (hq : s.queue c = some q) (hc : φ c = .user)
    (hst : (schedulerLTS P image).step s (.interrupt c q.current r)
      (RoundRobin.fill q.current r s)) :
    i.running c = some q.current ∧
      Faithful (RoundRobin.fill q.current r s) (Function.update φ c .selecting) L
        (i.after (.interrupt c q.current r)) := by
  obtain ⟨q', hq', hrun, he⟩ := hf.running c hc
  rw [hq] at hq'
  cases hq'
  refine ⟨hrun, ?_⟩
  have hafter : i.after (.interrupt c q.current r) = { i with
      running := Function.update i.running c none
      interrupted := Function.update i.interrupted q.current (some r) } := by
    simp [Ideal.after, hrun]
  rw [hafter]
  have hne : ∀ d p, p ≠ .selecting → Function.update φ c Phase.selecting d = p →
      d ≠ c ∧ φ d = p := by
    intro d p hp hd
    by_cases hdc : d = c
    · subst hdc
      rw [Function.update_self] at hd
      exact absurd hd.symm hp
    · rw [Function.update_of_ne hdc] at hd
      exact ⟨hdc, hd⟩
  refine hf.data h hst (fun _ => rfl) (fun d hd => (hne d _ (by simp) hd).2) (fun d hd => ?_)
    (fun x r' hx => ?_) fun d x hx => ?_
  · obtain ⟨hdc, hd⟩ := hne d _ (by simp) hd
    exact ⟨hd, Function.update_of_ne hdc ..⟩
  · by_cases hxt : x = q.current
    · subst hxt
      exact .inr ⟨⟨c, (h.holds c q hq).current⟩, he⟩
    · exact .inl ⟨r', by simpa [Function.update_of_ne hxt] using hx⟩
  · have hstep := step_task h hx hst
    by_cases hxt : x = q.current
    · subst hxt
      rw [hstep.written r rfl]
      simp [Ideal.registers]
    · rw [hstep.kept fun r' hr => hxt (by cases hr; rfl), ← hf.saved d x hx]
      simp [Ideal.registers, Function.update_of_ne hxt]

/-- `t` gets the processor of context `c`. -/
theorem Faithful.given {m : List Nat} (hf : Faithful s φ L i) (hm : Popped P s s' L c t m)
    (hempty : (s.tasks t).empty = false) :
    Faithful s' (Function.update φ c .user) (Function.update L c (m ++ [t]))
      { i with running := Function.update i.running c (some t) } := by
  refine hf.popped hm (fun d hd => Function.update_of_ne hd ..) (by simp)
    (fun d hd => Function.update_of_ne hd ..) fun _ => ⟨Function.update_self .., hempty⟩

theorem step_faithful (h : Represents P s L) (hf : Faithful s φ L i)
    (hst : (schedulerLTS P image).step s e s') (hφ : phasesAfter φ e = some φ') :
    Faithful s' φ' (queuesAfter L e) (i.after e) := by
  cases step_effect hst with
  | install hs =>
    cases hφ
    obtain ⟨-, stack, hm⟩ := installContext_spec h hs
    exact hf.made h hm rfl fun _ => rfl
  | create hs =>
    cases hφ
    obtain ⟨hbusy, stack, fds, hm⟩ := create_spec h hs
    exact hf.made h hm rfl fun h0 => absurd h0 hbusy
  | fill hempty =>
    cases hφ
    exact hf.fill h hst hempty
  | start _ =>
    cases hφ
    exact hf.still h hst (fun _ => rfl) rfl
  | exit _ =>
    cases hφ
    exact hf.still h hst (fun _ => rfl) rfl
  | memory _ =>
    cases hφ
    exact hf.still h hst (fun _ => rfl) rfl
  | interrupt hq =>
    obtain ⟨hc, he⟩ := Option.ite_none_right_eq_some.mp hφ
    cases he
    exact (hf.interrupt h hq hc hst).2
  | @enable c t _ hp =>
    obtain ⟨hc, he⟩ := Option.ite_none_right_eq_some.mp hφ
    cases he
    obtain ⟨m, hm⟩ := pop_spec h hp
    have hgiven := hf.given hm (hf.first c t m hc hm.first)
    simpa [queuesAfter, hm.first, Ideal.after] using hgiven
  | @resume c t _ hp hrun =>
    obtain ⟨hc, he⟩ := Option.ite_none_right_eq_some.mp hφ
    cases he
    obtain ⟨m, hm⟩ := pop_spec h hp
    have hgiven := hf.given hm ((empty_eq_of_unlinked (hm.same t)).symm.trans hrun.1)
    simpa [queuesAfter, hm.first, Ideal.after] using hgiven
  | @skip c t _ hp _ =>
    obtain ⟨hc, he⟩ := Option.ite_none_right_eq_some.mp hφ
    cases he
    obtain ⟨m, hm⟩ := pop_spec h hp
    -- nobody runs on `c`, so it does not matter what `current` is now
    have hskip : Faithful s' φ (Function.update L c (m ++ [t])) i :=
      hf.popped hm (fun _ _ => rfl) (by simp [hc]) (fun _ _ => rfl) (by simp [hc])
    simpa [queuesAfter, hm.first, Ideal.after] using hskip

theorem run_faithful {s₀ s : Cpus σ} (h₀ : (cpuLTS P image).init s₀)
    (hr : (cpuLTS P image).Run s₀ es s) :
    Represents P s.scheduler (queues es) ∧
      Faithful s.scheduler s.phase (queues es) (ideal es) := by
  refine hr.history (I := fun es s => Represents P s.scheduler (queues es) ∧
    Faithful s.scheduler s.phase (queues es) (ideal es)) ⟨represents_init h₀.1, ?_⟩ ?_
  · refine ⟨fun c hc => ?_, fun c t m _ hl => ?_, fun t r hr => ?_, fun d t ht => ?_⟩
    · rw [h₀.2] at hc
      cases hc
    · cases hl
    · cases hr
    · cases ht
  · intro es s e s' h hst
    rw [queues_append, ideal_append]
    exact ⟨step_represents h.1 hst.1, step_faithful h.1 h.2 hst.1 hst.2⟩

theorem Faithful.saves {r : Registers} (h : Represents P s L) (hf : Faithful s φ L i)
    (hst : (schedulerLTS P image).step s (.interrupt c t r) s') (hc : φ c = .user) :
    i.running c = some t ∧ (s'.tasks t).registers = r ∧ ∀ x, x ≠ t → s'.tasks x = s.tasks x := by
  cases step_effect hst with
  | interrupt hq =>
    refine ⟨(hf.interrupt h hq hc hst).1, ?_, fun x hx => tasks_modify_of_ne hx⟩
    unfold RoundRobin.fill
    rw [tasks_modify_self]

theorem Faithful.resumes {r : Registers} (h : Represents P s L) (hf : Faithful s φ L i)
    (hst : (schedulerLTS P image).step s e s') (he : e = .resume c t r ∨ e = .enable c t r) :
    r = i.registers t := by
  have hpop : ∀ {c t}, pop c s = some (t, s') → (s'.tasks t).registers = i.registers t := by
    intro c t hp
    obtain ⟨m, hm⟩ := pop_spec h hp
    rw [hf.saved c t (by simp [hm.first]), registers_eq_of_unlinked (hm.same t)]
  rcases he with rfl | rfl
  · cases step_effect hst with
    | resume hp _ => exact hpop hp
  · cases step_effect hst with
    | enable hp => exact hpop hp

/-- **No task runs with another task's registers.** In every run: the registers
of an interrupted processor are saved in the task that it was running, and no
other task is touched; and the registers that a task is resumed with are those
of its last interrupt or, if it has not run yet, those it was created with. -/
theorem registers_kept {s₀ s s' : Cpus σ} (h₀ : (cpuLTS P image).init s₀)
    (hr : (cpuLTS P image).Run s₀ es s) (hst : (cpuLTS P image).step s e s') :
    (∀ c t r, e = .interrupt c t r → (ideal es).running c = some t ∧
      (s'.scheduler.tasks t).registers = r ∧
      ∀ x, x ≠ t → s'.scheduler.tasks x = s.scheduler.tasks x) ∧
    ∀ c t r, e = .resume c t r ∨ e = .enable c t r → r = (ideal es).registers t := by
  obtain ⟨h, hf⟩ := run_faithful h₀ hr
  obtain ⟨hst, hφ⟩ := hst
  refine ⟨fun c t r he => ?_, fun c t r he => hf.resumes h hst he⟩
  subst he
  obtain ⟨hc, -⟩ := Option.ite_none_right_eq_some.mp hφ
  exact hf.saves h hst hc

/-! ## The handler as a whole -/

/-- The selection loop as steps of its processor. -/
theorem selectNext_run {n : Nat} (hc : φ c = .selecting) (hs : selectNext n c s = some (t, s')) :
    ∃ skipped : List Nat, (cpuLTS P image).Run ⟨s, φ⟩
      (skipped.map (Event.skip c) ++ [.resume c t (s'.tasks t).registers])
      ⟨s', Function.update φ c .user⟩ := by
  induction n generalizing s with
  | zero => cases hs
  | succ n ih =>
    obtain ⟨u, s₁, hp⟩ := selectNext_some hs
    rw [selectNext_succ hp] at hs
    by_cases hu : (s₁.tasks u).Runnable
    · rw [if_pos hu] at hs
      cases hs
      have hst : (cpuLTS P image).step ⟨s, φ⟩ (.resume c t (s'.tasks t).registers)
          ⟨s', Function.update φ c .user⟩ :=
        ⟨.inl ⟨.pop c, by simp [perform, hp, hu]⟩, if_pos hc⟩
      exact ⟨[], .cons hst (.nil _)⟩
    · rw [if_neg hu] at hs
      obtain ⟨skipped, hr⟩ := ih hs
      have hst : (cpuLTS P image).step ⟨s, φ⟩ (.skip c u) ⟨s₁, φ⟩ :=
        ⟨.inl ⟨.pop c, by simp [perform, hp, hu]⟩, if_pos hc⟩
      exact ⟨u :: skipped, .cons hst hr⟩

/-- `reschedule` is a run of its processor from one task to the next. -/
theorem reschedule_run (P : PageSource σ) (image : Image) {n : Nat} {r rs : Registers}
    (hc : φ c = .user) (hs : reschedule n c r s = some (t, rs, s')) :
    ∃ u, ∃ skipped : List Nat, (cpuLTS P image).Run ⟨s, φ⟩
      (.interrupt c u r :: (skipped.map (Event.skip c) ++ [.resume c t rs])) ⟨s', φ⟩ := by
  simp only [reschedule, Option.bind_eq_bind, Option.bind_eq_some_iff] at hs
  obtain ⟨⟨u, s₁⟩, hsave, ⟨t', s₂⟩, hsel, he⟩ := hs
  cases he
  obtain ⟨skipped, hr⟩ := selectNext_run (φ := Function.update φ c .selecting)
    (Function.update_self ..) hsel
  have hφ : Function.update (Function.update φ c .selecting) c .user = φ := by
    rw [Function.update_idem, ← hc, Function.update_eq_self]
  rw [hφ] at hr
  have hst : (cpuLTS P image).step ⟨s, φ⟩ (.interrupt c u r)
      ⟨s₁, Function.update φ c .selecting⟩ :=
    ⟨.inl ⟨.interrupt c r, by simp [perform, hsave]⟩, if_pos hc⟩
  exact ⟨u, skipped, .cons hst hr⟩

theorem ideal_skips (es : List Event) (c : Nat) (skipped : List Nat) :
    ideal (es ++ skipped.map (Event.skip c)) = ideal es := by
  induction skipped generalizing es with
  | nil => rw [List.map_nil, List.append_nil]
  | cons u skipped ih =>
    rw [List.map_cons, ← List.singleton_append, ← List.append_assoc, ih, ideal_append]
    rfl

/-- A call of the handler: what was running gets the interrupted registers, and
the task it switches to gets its own. -/
theorem reschedule_registers {n : Nat} {r rs : Registers} {s₀ s : Cpus σ}
    (h₀ : (cpuLTS P image).init s₀) (hr : (cpuLTS P image).Run s₀ es s) (hc : s.phase c = .user)
    (hs : reschedule n c r s.scheduler = some (t, rs, s')) :
    ∃ u, (ideal es).running c = some u ∧ rs = if t = u then r else (ideal es).registers t := by
  obtain ⟨h, hf⟩ := run_faithful h₀ hr
  obtain ⟨u, skipped, hrun⟩ := reschedule_run P image hc hs
  cases hrun with
  | @cons _ s₁ _ _ _ hst hrest =>
    obtain ⟨s₂, hskips, hlast⟩ := hrest.of_append
    cases hlast with
    | cons hst₂ _ =>
      obtain ⟨hrunning, -, -⟩ := hf.saves h hst.1 hc
      obtain ⟨h₂, hf₂⟩ := run_faithful h₀ ((hr.snoc hst).append hskips)
      have hrs := hf₂.resumes h₂ hst₂.1 (.inl rfl)
      rw [ideal_skips, ideal_append] at hrs
      refine ⟨u, hrunning, ?_⟩
      rw [hrs]
      simp only [Ideal.after, hrunning, Ideal.registers]
      by_cases htu : t = u
      · subst htu; simp
      · simp [htu]

/-! ## A run -/

theorem cpu_run {s s' : Scheduler σ} (hr : (schedulerLTS P image).Run s es s')
    (hφ : es.foldlM phasesAfter φ = some φ') : (cpuLTS P image).Run ⟨s, φ⟩ es ⟨s', φ'⟩ := by
  induction hr generalizing φ with
  | nil _ =>
    cases hφ
    exact .nil _
  | @cons s t u e es hst _ ih =>
    rw [List.foldlM_cons, Option.bind_eq_bind, Option.bind_eq_some_iff] at hφ
    obtain ⟨φ₁, h1, h2⟩ := hφ
    exact .cons ⟨hst, h1⟩ (ih h2)

/-- The first processor is interrupted while its queue has grown to two tasks. -/
theorem registers_kept_boot : ∃ es t, ∃ s : Cpus Nat,
    (cpuLTS bootSource bootImage).Run ⟨bootScheduler, fun _ => .off⟩ es s ∧
      (∃ q, s.scheduler.queue 0 = some q ∧ q.current = t ∧ q.count = 2) ∧
      (ideal es).running 0 = some t := by
  have hrun : (performAll bootSource bootImage bootScheduler (bootOps.take 7)).map (fun x =>
      ((x.1.foldlM phasesAfter fun _ => .off).map (· 0), (x.2.queue 0).map Queue.count)) =
        some (some .user, some 2) := by
    decide +kernel
  obtain ⟨⟨es, s⟩, hops, he⟩ := Option.map_eq_some_iff.mp hrun
  obtain ⟨hphase, hcount⟩ := Prod.mk.inj he
  obtain ⟨φ, hφ, hc⟩ := Option.map_eq_some_iff.mp hphase
  obtain ⟨q, hq, hq2⟩ := Option.map_eq_some_iff.mp hcount
  have hr := cpu_run (performAll_run bootSource bootImage hops) hφ
  have hst : (cpuLTS bootSource bootImage).step ⟨s, φ⟩ (.interrupt 0 q.current {})
      ⟨fill q.current {} s, Function.update φ 0 .selecting⟩ := by
    refine ⟨.inl ⟨.interrupt 0 {}, ?_⟩, if_pos hc⟩
    simp [perform, saveState, hq, fill]
  have h₀ : (cpuLTS bootSource bootImage).init ⟨bootScheduler, fun _ => .off⟩ := ⟨rfl, rfl⟩
  refine ⟨es, q.current, ⟨s, φ⟩, hr, ⟨q, hq, rfl, hq2⟩, ?_⟩
  exact ((registers_kept h₀ hr hst).1 0 q.current {} rfl).1

end GaOS.L4.RoundRobin
