import GaOS.L4Sched.RunQueue

/-!
# The queue invariant over all runs

Every step of the scheduler keeps the kernel's queues in line with the lists that
the events of the run describe (`step_represents`), and `queue_invariant` reads
the shape of the kernel's queues off that. `step_task` says what a step can do to
the data of a task that is in a queue.
-/
namespace GaOS.L4.RoundRobin

open GaOS.L1

variable {σ : Type} {P : PageSource σ} {image : Image} {s s' : Scheduler σ} {L : Nat → List Nat}
  {q : Queue} {c t : Nat}

/-! ## Steps -/

/-- The steps of `schedulerLTS`, one by one. -/
inductive Effect (P : PageSource σ) (image : Image) (s : Scheduler σ) :
    Event → Scheduler σ → Prop
  | install {cpuId t : Nat} {simd : SimdState} {s' : Scheduler σ} :
      installContext P image cpuId simd s = some (t, s') →
      Effect P image s (.install s.contexts.length t (s'.tasks t).registers) s'
  | create {own c t : Nat} {name : String} {simd : SimdState} {s' : Scheduler σ} :
      create P own name simd s = some (c, t, s') →
      Effect P image s (.create c t (s'.tasks t).registers) s'
  | fill {t : Nat} {r : Registers} :
      (s.tasks t).empty = true → Effect P image s (.fill t r) (fill t r s)
  | start {t : Nat} : (s.tasks t).empty = true → Effect P image s (.start t) (start t s)
  | exit {t : Nat} {code : Int} :
      (s.tasks t).id ≠ 0 → Effect P image s (.exit t code) (sysExit t code s)
  | enable {c t : Nat} {s' : Scheduler σ} :
      pop c s = some (t, s') → Effect P image s (.enable c t (s'.tasks t).registers) s'
  | interrupt {c : Nat} {q : Queue} {r : Registers} :
      s.queue c = some q → Effect P image s (.interrupt c q.current r) (fill q.current r s)
  | skip {c t : Nat} {s' : Scheduler σ} :
      pop c s = some (t, s') → ¬(s'.tasks t).Runnable → Effect P image s (.skip c t) s'
  | resume {c t : Nat} {s' : Scheduler σ} :
      pop c s = some (t, s') → (s'.tasks t).Runnable →
      Effect P image s (.resume c t (s'.tasks t).registers) s'
  | memory {src : σ} :
      (∀ t, s.Linked t → ¬P.Free src t) → Effect P image s .memory { s with src := src }

theorem step_effect {e : Event} (h : (schedulerLTS P image).step s e s') :
    Effect P image s e s' := by
  rcases h with ⟨op, hop⟩ | ⟨rfl, src, rfl, hfree⟩
  · cases op with
    | install cpuId simd =>
      simp only [perform, Option.bind_eq_bind, Option.bind_eq_some_iff] at hop
      obtain ⟨⟨t, s1⟩, h1, he⟩ := hop
      cases he
      exact .install h1
    | create own name simd =>
      simp only [perform, Option.bind_eq_bind, Option.bind_eq_some_iff] at hop
      obtain ⟨⟨c, t, s1⟩, h1, he⟩ := hop
      cases he
      exact .create h1
    | fill t r =>
      simp only [perform, Option.ite_none_right_eq_some] at hop
      obtain ⟨h1, he⟩ := hop
      cases he
      exact .fill h1
    | start t =>
      simp only [perform, Option.ite_none_right_eq_some] at hop
      obtain ⟨h1, he⟩ := hop
      cases he
      exact .start h1
    | exit t code =>
      simp only [perform, Option.ite_none_right_eq_some] at hop
      obtain ⟨h1, he⟩ := hop
      cases he
      exact .exit h1
    | enable c =>
      simp only [perform, RoundRobin.enable, Option.bind_eq_bind, Option.bind_eq_some_iff] at hop
      obtain ⟨⟨t, r, s1⟩, ⟨⟨t', s2⟩, h1, he⟩, he'⟩ := hop
      cases he
      cases he'
      exact .enable h1
    | interrupt c r =>
      simp only [perform, saveState, Option.bind_eq_bind, Option.bind_eq_some_iff] at hop
      obtain ⟨⟨t, s1⟩, ⟨q, hq, he⟩, he'⟩ := hop
      cases he
      cases he'
      exact .interrupt hq
    | pop c =>
      simp only [perform, Option.bind_eq_bind, Option.bind_eq_some_iff] at hop
      obtain ⟨⟨t, s1⟩, h1, he⟩ := hop
      split at he
      · rename_i hrun
        cases he
        exact .resume h1 hrun
      · rename_i hrun
        cases he
        exact .skip h1 hrun
  · exact .memory hfree

theorem tasks_modify_self {f : Task → Task} : (s.modify t f).tasks t = f (s.tasks t) :=
  modify_self ..

theorem tasks_modify_of_ne {x : Nat} {f : Task → Task} (hx : x ≠ t) :
    (s.modify t f).tasks x = s.tasks x := modify_of_ne _ _ hx

theorem modify_links {f : Task → Task}
    (hf : ∀ task, (f task).next = task.next ∧ (f task).parentQueue = task.parentQueue) (x : Nat) :
    ((s.modify t f).tasks x).next = (s.tasks x).next ∧
      ((s.modify t f).tasks x).parentQueue = (s.tasks x).parentQueue := by
  by_cases hx : x = t
  · rw [hx, tasks_modify_self]; exact hf _
  · rw [tasks_modify_of_ne hx]; exact ⟨rfl, rfl⟩

/-- Writes to a task's own data do not concern the queues. -/
theorem Represents.modify {f : Task → Task} (h : Represents P s L)
    (hf : ∀ task, (f task).next = task.next ∧ (f task).parentQueue = task.parentQueue) :
    Represents P (s.modify t f) L :=
  h.congr (fun _ => rfl) (fun _ x _ => modify_links hf x) fun d x hx => (h.page d x hx).used

theorem Popped.rotated {m : List Nat} (h : Popped P s s' L c t m) :
    Represents P s' (Function.update L c ((L c).tail ++ (L c).head?.toList)) := by
  rw [h.first]; exact h.represents

theorem Represents.tasks_eq (h : Represents P s L) (hq : s.queue c = some q) :
    L c = s.queueTasks q := (h.holds c q hq).tasks_eq

/-- The lists of the queues follow the events. -/
theorem step_represents {e : Event} (h : Represents P s L)
    (hst : (schedulerLTS P image).step s e s') : Represents P s' (queuesAfter L e) := by
  cases step_effect hst with
  | install hs =>
    obtain ⟨-, _, hm⟩ := installContext_spec h hs
    exact hm.represents
  | create hs =>
    obtain ⟨-, _, _, hm⟩ := create_spec h hs
    exact hm.represents
  | fill _ => exact h.modify fun _ => ⟨rfl, rfl⟩
  | start _ => exact h.modify fun _ => ⟨rfl, rfl⟩
  | exit _ => exact h.modify fun _ => ⟨rfl, rfl⟩
  | interrupt _ => exact h.modify fun _ => ⟨rfl, rfl⟩
  | enable hp =>
    obtain ⟨m, hm⟩ := pop_spec h hp
    exact hm.rotated
  | skip hp _ =>
    obtain ⟨m, hm⟩ := pop_spec h hp
    exact hm.rotated
  | resume hp _ =>
    obtain ⟨m, hm⟩ := pop_spec h hp
    exact hm.rotated
  | memory hfree =>
    refine h.congr (fun _ => rfl) (fun _ _ _ => ⟨rfl, rfl⟩) fun d x hx => hfree x ?_
    cases hd : s.queue d with
    | none => rw [h.absent d hd] at hx; cases hx
    | some q => exact ⟨d, q, hd, h.tasks_eq hd ▸ hx⟩

/-! ## What a step does to a task -/

theorem id_eq_of_unlinked {a b : Task} (h : a.unlinked = b.unlinked) : a.id = b.id := by
  have : a.unlinked.id = b.unlinked.id := by rw [h]
  exact this

theorem empty_eq_of_unlinked {a b : Task} (h : a.unlinked = b.unlinked) : a.empty = b.empty := by
  have : a.unlinked.empty = b.unlinked.empty := by rw [h]
  exact this

theorem registers_eq_of_unlinked {a b : Task} (h : a.unlinked = b.unlinked) :
    a.registers = b.registers := by
  have : a.unlinked.registers = b.unlinked.registers := by rw [h]
  exact this

theorem runMode_eq_of_unlinked {a b : Task} (h : a.unlinked = b.unlinked) :
    a.runMode = b.runMode := by
  have : a.unlinked.runMode = b.unlinked.runMode := by rw [h]
  exact this

theorem runnable_of_unlinked {a b : Task} (h : a.unlinked = b.unlinked) (hb : b.Runnable) :
    a.Runnable := by
  have hr : a.unlinked.Runnable ↔ b.unlinked.Runnable := by rw [h]
  exact hr.mpr hb

/-- The registers that an event stores, and the task it stores them in. -/
def Event.written : Event → Option (Nat × Registers)
  | .fill task r | .interrupt _ task r => some (task, r)
  | _ => none

/-- What a step may do to a task that is in a queue. -/
structure TaskStep (e : Event) (t : Nat) (a b : Task) : Prop where
  id : b.id = a.id
  filled : a.empty = false → b.empty = false
  /-- only `start` clears the flag -/
  waiting : e ≠ .start t → b.empty = a.empty
  started : e = .start t → b.empty = false
  runMode : (∀ code, e ≠ .exit t code) → b.runMode = a.runMode
  runnable : a.Runnable → (∀ code, e ≠ .exit t code) → b.Runnable
  written : ∀ r, e.written = some (t, r) → b.registers = r
  kept : (∀ r, e.written ≠ some (t, r)) → b.registers = a.registers

theorem TaskStep.same {e : Event} {a b : Task} (h : b.unlinked = a.unlinked)
    (hw : ∀ r, e.written ≠ some (t, r)) (hs : e ≠ .start t) : TaskStep e t a b where
  id := id_eq_of_unlinked h
  filled he := (empty_eq_of_unlinked h).trans he
  waiting _ := empty_eq_of_unlinked h
  started he := absurd he hs
  runMode _ := runMode_eq_of_unlinked h
  runnable hr _ := runnable_of_unlinked h hr
  written r hr := absurd hr (hw r)
  kept _ := registers_eq_of_unlinked h

theorem step_task {d : Nat} {e : Event} (h : Represents P s L) (ht : t ∈ L d)
    (hst : (schedulerLTS P image).step s e s') : TaskStep e t (s.tasks t) (s'.tasks t) := by
  have hnone : ∀ r, (none : Option (Nat × Registers)) ≠ some (t, r) := fun _ h => by cases h
  cases step_effect hst with
  | install hs =>
    obtain ⟨-, _, hm⟩ := installContext_spec h hs
    exact .same (hm.old t fun he => hm.fresh d (he ▸ ht)) hnone nofun
  | create hs =>
    obtain ⟨-, _, _, hm⟩ := create_spec h hs
    exact .same (hm.old t fun he => hm.fresh d (he ▸ ht)) hnone nofun
  | @fill a r hempty =>
    by_cases ha : t = a
    · subst ha
      unfold fill
      rw [tasks_modify_self]
      refine ⟨rfl, fun he => ?_, fun _ => rfl, nofun, fun _ => rfl, fun hr _ => ?_, fun r' hr => ?_,
        fun hw => absurd rfl (hw r)⟩
      · rw [hempty] at he; cases he
      · have := hr.1; rw [hempty] at this; cases this
      · cases hr; rfl
    · refine .same (by unfold fill; rw [tasks_modify_of_ne ha]) (fun r' hr => ?_) nofun
      cases hr
      exact ha rfl
  | @start a hempty =>
    by_cases ha : t = a
    · subst ha
      unfold start
      rw [tasks_modify_self]
      refine ⟨rfl, fun _ => rfl, fun hne => absurd rfl hne, fun _ => rfl, fun _ => rfl,
        fun hr _ => ?_, fun r' hr => absurd hr (hnone r'), fun _ => rfl⟩
      have := hr.1
      rw [hempty] at this
      cases this
    · refine .same (by unfold start; rw [tasks_modify_of_ne ha]) hnone fun he => ?_
      cases he
      exact ha rfl
  | @exit a code hid =>
    by_cases ha : t = a
    · subst ha
      unfold sysExit
      rw [tasks_modify_self]
      exact ⟨rfl, fun he => he, fun _ => rfl, nofun, fun hne => absurd rfl (hne code),
        fun _ hne => absurd rfl (hne code), fun r' hr => absurd hr (hnone r'), fun _ => rfl⟩
    · exact .same (by unfold sysExit; rw [tasks_modify_of_ne ha]) hnone nofun
  | @interrupt a q r hq =>
    unfold fill
    by_cases ha : t = q.current
    · subst ha
      rw [tasks_modify_self]
      refine ⟨rfl, fun he => he, fun _ => rfl, nofun, fun _ => rfl, fun hr _ => hr, fun r' hr => ?_,
        fun hw => absurd rfl (hw r)⟩
      cases hr; rfl
    · refine .same (by rw [tasks_modify_of_ne ha]) (fun r' hr => ?_) nofun
      cases hr
      exact ha rfl
  | enable hp =>
    obtain ⟨m, hm⟩ := pop_spec h hp
    exact .same (hm.same t) hnone nofun
  | skip hp _ =>
    obtain ⟨m, hm⟩ := pop_spec h hp
    exact .same (hm.same t) hnone nofun
  | resume hp _ =>
    obtain ⟨m, hm⟩ := pop_spec h hp
    exact .same (hm.same t) hnone nofun
  | memory _ => exact .same rfl hnone nofun

/-! ## Runs -/

theorem represents_init (h : (schedulerLTS P image).init s) : Represents P s fun _ => [] := by
  have hnone : ∀ c, s.queue c = none := by
    intro c
    simp only [schedulerLTS] at h
    simp [Scheduler.queue, h]
  refine ⟨fun c q hq => ?_, fun _ _ => rfl, fun c t ht => by cases ht⟩
  rw [hnone c] at hq
  cases hq

theorem run_represents {s₀ : Scheduler σ} {es : List Event} (h₀ : (schedulerLTS P image).init s₀)
    (hr : (schedulerLTS P image).Run s₀ es s) : Represents P s (queues es) := by
  refine hr.history (I := fun es s => Represents P s (queues es)) (represents_init h₀) ?_
  intro es s e s' h hst
  rw [queues_append]
  exact step_represents h hst

/-- **The queues stay walkable.** In every run, on every context: following
`next` from `head` meets `count` different tasks, the `count`-th is `last`, whose
own link is null or goes back to `head`, and `current` is one of them. Every task
that was ever created or installed is in the queue of exactly one context, the
one its `parent_queue` names. -/
theorem queue_invariant {s₀ : Scheduler σ} {es : List Event}
    (h₀ : (schedulerLTS P image).init s₀) (hr : (schedulerLTS P image).Run s₀ es s) :
    (∀ c q, s.queue c = some q →
      (s.queueTasks q).length = q.count ∧ (s.queueTasks q).Nodup ∧
      0 < q.count ∧ (fun t => (s.tasks t).next)^[q.count - 1] q.head = q.last ∧
      ((s.tasks q.last).next = 0 ∨ (s.tasks q.last).next = q.head) ∧
      q.current ∈ s.queueTasks q) ∧
    ∀ t ∈ es.filterMap Event.made, ∃ c q, s.queue c = some q ∧ t ∈ s.queueTasks q ∧
      (s.tasks t).parentQueue = some c ∧
      ∀ c' q', s.queue c' = some q' → t ∈ s.queueTasks q' → c' = c := by
  have h := run_represents h₀ hr
  refine ⟨fun c q hq => ?_, fun t ht => ?_⟩
  · have hh := h.holds c q hq
    have hpos : 0 < q.count := hh.count ▸ List.length_pos_of_mem hh.current
    rw [h.tasks_eq hq] at hh
    refine ⟨hh.count.symm, hh.ring.nodup, hpos, ?_, hh.ring.close, hh.current⟩
    have hback := hh.ring.back
    rw [List.getLast?_eq_getElem?, ← hh.count, Scheduler.queueTasks,
      List.getElem?_iterate _ _ _ _ (by omega)] at hback
    exact Option.some.inj hback
  · obtain ⟨c, hc⟩ := mem_queues_of_made ht
    cases hq : s.queue c with
    | none => rw [h.absent c hq] at hc; cases hc
    | some q =>
      refine ⟨c, q, hq, h.tasks_eq hq ▸ hc, h.owner_eq hc, fun c' q' hq' ht' => ?_⟩
      rw [← h.tasks_eq hq'] at ht'
      exact Option.some.inj ((h.owner_eq ht').symm.trans (h.owner_eq hc))

def bootSource : PageSource Nat :=
  bumpSource 0xFFFF800000000000 256 hhdm_aligned (by decide) (by decide)

def bootImage : Image := ⟨0xFFFF800000100000, 0xFFFFFFFF80001000⟩

def bootScheduler : Scheduler Nat := ⟨fun _ => {}, [], 0, 0⟩

/-- Two processors: tasks are pushed to open and to closed queues. -/
def bootOps : List Op :=
  [.install 0 fun _ => 0, .create 0 "/init.elf" fun _ => 0, .enable 0, .install 1 fun _ => 0,
    .create 0 "/sh.elf" fun _ => 0, .enable 1, .create 1 "/ls.elf" fun _ => 0,
    .interrupt 0 {}, .pop 0, .pop 0]

theorem boot_run : ∃ es s, (schedulerLTS bootSource bootImage).Run bootScheduler es s ∧
    (es.filterMap Event.made).length = 5 ∧ ∃ q, s.queue 0 = some q ∧ q.count = 2 := by
  have hrun : (performAll bootSource bootImage bootScheduler bootOps).map (fun x =>
      ((x.1.filterMap Event.made).length, (x.2.queue 0).map Queue.count)) = some (5, some 2) := by
    decide +kernel
  obtain ⟨⟨es, s⟩, hops, he⟩ := Option.map_eq_some_iff.mp hrun
  obtain ⟨hmade, hcount⟩ := Prod.mk.inj he
  obtain ⟨q, hq, hc⟩ := Option.map_eq_some_iff.mp hcount
  exact ⟨es, s, performAll_run bootSource bootImage hops, hmade, q, hq, hc⟩

theorem queue_invariant_boot : ∃ es s, (schedulerLTS bootSource bootImage).Run bootScheduler es s ∧
    (es.filterMap Event.made).length = 5 ∧ ∃ q, s.queue 0 = some q ∧ q.count = 2 ∧
      (s.queueTasks q).Nodup := by
  obtain ⟨es, s, hr, hmade, q, hq, hc⟩ := boot_run
  have h₀ : (schedulerLTS bootSource bootImage).init bootScheduler := rfl
  exact ⟨es, s, hr, hmade, q, hq, hc, ((queue_invariant h₀ hr).1 0 q hq).2.1⟩

end GaOS.L4.RoundRobin
