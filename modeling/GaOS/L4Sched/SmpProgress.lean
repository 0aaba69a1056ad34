import GaOS.L4Sched.SmpRuns

/-!
# Every processor comes up

`State.left` counts the steps that the code of all processors has left to take. Each
step takes one off (`left_run`), and while some processor has not come to its first
task, some processor is not spinning (`progress`). So the start-up ends under every
order of steps in which a processor that can go on does.
-/
namespace GaOS.L4.Smp

variable {m : Machine} {s t : State} {p : Nat}

/-! ## The steps that are left -/

def Bsp.left (m : Machine) : Bsp → Nat
  | .bootstrap => 4 * m.lapicIds.length + 14
  | .scan i => 4 * (m.lapicIds.length - i) + 13
  | .acquire i => 4 * (m.lapicIds.length - i) + 12
  | .wake i => 4 * (m.lapicIds.length - i) + 11
  | .await i => 4 * (m.lapicIds.length - i) + 10
  | .online => 12
  | .install place => 11 - place.phase
  | .load => 4
  | .release => 3
  | .spin => 2
  | .enable => 1
  | .running _ => 0

def Ap.left : Ap → Nat
  | .off => 15
  | .boot => 14
  | .wait => 13
  | .install place => 12 - place.phase
  | .count => 5
  | .read => 4
  | .write _ => 3
  | .finish => 2
  | .enable => 1
  | .running _ => 0

def State.left (m : Machine) (s : State) : Nat := s.bsp.left m + ∑ p ∈ m.aps, (s.ap p).left

theorem left_bsp (h : Control m s) (hrun : bspStep m s = some t) :
    t.bsp.left m < s.bsp.left m ∧ ∀ q, (t.ap q).left ≤ (s.ap q).left := by
  cases hb : s.bsp with
  | install place =>
    simp only [bspStep, hb] at hrun
    obtain ⟨⟨next, s'⟩, hstep, rfl⟩ := Option.map_eq_some_iff.mp hrun
    obtain ⟨hsame, -, hnext⟩ := installStep_control hstep
    refine ⟨?_, fun q => by simp [hsame.ap]⟩
    have hle : place.phase ≤ 6 := by cases place <;> simp [Install.phase]
    cases next with
    | none =>
      simp only [Option.elim_none] at hnext
      simp only [Option.elim_none, Bsp.left]
      omega
    | some place' =>
      simp only [Option.elim_some] at hnext
      simp only [Option.elim_some, Bsp.left]
      omega
  | enable =>
    simp only [bspStep, hb] at hrun
    obtain ⟨⟨e, s'⟩, hpop, rfl⟩ := Option.map_eq_some_iff.mp hrun
    obtain ⟨c, rfl⟩ := popOwn_frame hpop
    simp [Bsp.left]
  | running e => simp [bspStep, hb] at hrun
  | scan i =>
    have hcount := h.count (by simp [hb, Bsp.phase])
    simp only [bspStep, hb, hcount] at hrun
    split at hrun
    · split at hrun
      · cases hrun
      · split at hrun
        all_goals
          simp only [Option.some.injEq] at hrun
          subst hrun
          simp only [Bsp.left, Nat.le_refl, implies_true, and_true]
          omega
    · simp only [Option.some.injEq] at hrun
      subst hrun
      simp only [Bsp.left, Nat.le_refl, implies_true, and_true]
      omega
  | wake i =>
    obtain ⟨cpu, hi, hcpu⟩ := h.index i (.inr (.inl hb))
    have hoff : s.ap cpu = .off := (h.woken i cpu hi hcpu).mpr (by simp [hb, Bsp.woken])
    simp only [bspStep, hb, hi, Option.some.injEq] at hrun
    subst hrun
    refine ⟨by simp [Bsp.left], fun q => ?_⟩
    by_cases hq : q = cpu
    · simp [hq, hoff, Ap.left]
    · simp [hq]
  | await i =>
    obtain ⟨cpu, hi, -⟩ := h.index i (.inr (.inr hb))
    have hlt := (List.getElem?_eq_some_iff.mp hi).1
    simp only [bspStep, hb] at hrun
    split at hrun
    · cases hrun
    · simp only [Option.some.injEq] at hrun
      subst hrun
      simp only [Bsp.left, Nat.le_refl, implies_true, and_true]
      omega
  | bootstrap | acquire | spin =>
    simp only [bspStep, hb] at hrun
    split at hrun
    all_goals
      simp only [reduceCtorEq, Option.some.injEq] at hrun
    all_goals
      subst hrun
      simp [Bsp.left]
  | online | load | release =>
    simp only [bspStep, hb, Option.some.injEq] at hrun
    subst hrun
    simp [Bsp.left, Install.phase]

theorem left_ap (hrun : apStep p s = some t) :
    t.bsp = s.bsp ∧ ∃ a, t.ap = Function.update s.ap p a ∧ a.left < (s.ap p).left := by
  cases ha : s.ap p with
  | install place =>
    simp only [apStep, ha] at hrun
    obtain ⟨⟨next, s'⟩, hstep, rfl⟩ := Option.map_eq_some_iff.mp hrun
    obtain ⟨hsame, -, hnext⟩ := installStep_control hstep
    refine ⟨hsame.bsp, _, congrArg (Function.update · p _) hsame.ap, ?_⟩
    have hle : place.phase ≤ 6 := by cases place <;> simp [Install.phase]
    cases next with
    | none =>
      simp only [Option.elim_none] at hnext
      simp only [Option.elim_none, Ap.left]
      omega
    | some place' =>
      simp only [Option.elim_some] at hnext
      simp only [Option.elim_some, Ap.left]
      omega
  | enable =>
    simp only [apStep, ha] at hrun
    obtain ⟨⟨e, s'⟩, hpop, rfl⟩ := Option.map_eq_some_iff.mp hrun
    obtain ⟨c, rfl⟩ := popOwn_frame hpop
    exact ⟨rfl, _, rfl, by simp [Ap.left]⟩
  | off => simp [apStep, ha] at hrun
  | running e => simp [apStep, ha] at hrun
  | wait | count =>
    simp only [apStep, ha] at hrun
    split at hrun
    · cases hrun
    · simp only [Option.some.injEq] at hrun
      subst hrun
      exact ⟨rfl, _, rfl, by simp [Ap.left, Install.phase]⟩
  | boot | read | write | finish =>
    simp only [apStep, ha, Option.some.injEq] at hrun
    subst hrun
    exact ⟨rfl, _, rfl, by simp [Ap.left]⟩

theorem left_run (h : Control m s) (hrun : run m p s = some t) : t.left m < s.left m := by
  unfold run at hrun
  split at hrun
  · obtain ⟨hlt, hle⟩ := left_bsp h hrun
    exact Nat.add_lt_add_of_lt_of_le hlt (Finset.sum_le_sum fun q _ => hle q)
  · obtain ⟨hbsp, a, hap, hlt⟩ := left_ap hrun
    have hoff : s.ap p ≠ .off := fun hoff => by simp [apStep, hoff] at hrun
    rw [State.left, State.left, hbsp]
    refine Nat.add_lt_add_left (Finset.sum_lt_sum (fun q _ => ?_) ⟨p, h.mem_aps hoff, ?_⟩) _
    · rw [hap]
      by_cases hq : q = p
      · rw [hq, Function.update_self]
        exact Nat.le_of_lt hlt
      · rw [Function.update_of_ne hq]
    · rw [hap, Function.update_self]
      exact hlt

/-- The steps of a kernel that is up do not count. -/
theorem left_setCurrent {e : Entry} (h : (s.current m p).isSome) :
    (s.setCurrent m p e).left m = s.left m := by
  unfold State.current at h
  unfold State.setCurrent
  split at h
  · rename_i he
    cases hb : s.bsp <;> simp_all [Bsp.current, State.left, Bsp.left]
  · rename_i he
    rw [if_neg he]
    refine congrArg (s.bsp.left m + ·) (Finset.sum_congr rfl fun q _ => ?_)
    by_cases hq : q = p
    · cases ha : s.ap p <;> simp_all [Ap.current, State.setAp, Ap.left]
    · simp [State.setAp, hq]

/-! ## Someone can go on -/

theorem run_install {place : Install} (hplace : s.place m p = some place) :
    run m p s = (installStep p s place).map fun r => r.2.goOn m p r.1 := by
  unfold State.place at hplace
  unfold run State.goOn
  split at hplace
  · rename_i he
    subst he
    cases hb : s.bsp <;> simp_all [Bsp.place, bspStep]
  · rename_i he
    rw [if_neg he]
    cases ha : s.ap p <;> simp_all [Ap.place, apStep]

theorem installStep_free {place : Install} (h : s.lastContextLock = false ∨ place.phase ≠ 1) :
    ∃ r, installStep p s place = some r := by
  cases place with
  | lock c => simp_all [installStep, Install.phase]
  | allocate | link | publish | unlock | attach | idle => exact ⟨_, rfl⟩

theorem place_of_installed (h1 : 1 ≤ s.installed m p) (h6 : s.installed m p ≤ 6) :
    ∃ place, s.place m p = some place ∧ place.phase = s.installed m p := by
  unfold State.installed at *
  unfold State.place
  split at h1
  · rename_i he
    rw [if_pos he] at h6 ⊢
    cases hb : s.bsp <;> simp_all [Bsp.installed, Bsp.phase, Bsp.place]
  · rename_i he
    rw [if_neg he] at h6 ⊢
    cases ha : s.ap p <;> simp_all [Ap.installed, Ap.phase, Ap.place]

/-- One that waits for the chain waits for one that can go on. -/
theorem install_progress {place : Install} (h : Control m s)
    (hplace : s.place m p = some place) : ∃ q t, run m q s = some t := by
  have hgo : ∀ {q place}, s.place m q = some place →
      s.lastContextLock = false ∨ place.phase ≠ 1 → ∃ q t, run m q s = some t := by
    intro q place hq hfree
    obtain ⟨r, hr⟩ := installStep_free (p := q) hfree
    exact ⟨q, _, (run_install hq).trans (congrArg _ hr)⟩
  cases hlock : s.lastContextLock with
  | false => exact hgo hplace (.inl hlock)
  | true =>
    obtain ⟨q, hlo, hhi⟩ := h.lastContext.set.mp hlock
    obtain ⟨place', hq, hphase⟩ := place_of_installed (m := m) (s := s) (p := q)
      (by omega) (by omega)
    exact hgo hq (.inr (by omega))

/-- A processor other than the bootstrap processor that is not counted yet, or not yet at
its first task, has a step itself or waits for one that has. -/
theorem ap_progress (h : Control m s) (hc : Contexts m s) (hp : p ∈ m.aps)
    (hbsp : 6 ≤ s.bsp.phase) (hnone : s.current m p = none) : ∃ q t, run m q s = some t := by
  obtain ⟨hne, hmem⟩ := Machine.mem_aps.mp hp
  have hgo : ∀ q, q ≠ m.bspLapicId → (apStep q s).isSome = true → ∃ q t, run m q s = some t :=
    fun q hq hstep => by
      obtain ⟨t, ht⟩ := Option.isSome_iff_exists.mp hstep
      exact ⟨q, t, (if_neg hq).trans ht⟩
  cases ha : s.ap p with
  | off =>
    obtain ⟨i, hi⟩ := List.mem_iff_getElem?.mp hmem
    have hwoken := (h.woken i p hi hne).mp ha
    have hlt := (List.getElem?_eq_some_iff.mp hi).1
    cases hb : s.bsp <;> simp_all [Bsp.woken, Bsp.phase]
    all_goals omega
  | boot => exact hgo p hne (by simp [apStep, ha])
  | wait =>
    have hclear : s.enableLock = false := by
      have hen := h.enable
      cases hlock : s.enableLock with
      | false => rfl
      | true => exact absurd (hen.mp hlock).2 (by omega)
    exact hgo p hne (by simp [apStep, ha, hclear])
  | install place =>
    have hplace : s.place m p = some place := by simp [State.place, hne, ha, Ap.place]
    exact install_progress h hplace
  | count =>
    cases hlock : s.completionLock with
    | false => exact hgo p hne (by simp [apStep, ha, hlock])
    | true =>
      obtain ⟨q, hlo, hhi⟩ := h.completion.set.mp hlock
      have hq : q ≠ m.bspLapicId := by
        rintro rfl
        rw [h.bsp_off] at hlo
        simp [Ap.phase] at hlo
      cases haq : s.ap q <;> simp [haq, Ap.phase] at hlo hhi
      all_goals exact hgo q hq (by simp [apStep, haq])
  | read => exact hgo p hne (by simp [apStep, ha])
  | write n => exact hgo p hne (by simp [apStep, ha])
  | finish => exact hgo p hne (by simp [apStep, ha])
  | enable =>
    have hen : s.Enabling m p := by simp [State.Enabling, hne, ha]
    obtain ⟨s', hs'⟩ := hc.enabling hen
    exact ⟨p, _, (run_enabling hen).trans (congrArg _ hs')⟩
  | running e => simp [State.current, hne, ha, Ap.current] at hnone

def State.Up (m : Machine) (s : State) : Prop := ∀ p ∈ m.lapicIds, (s.current m p).isSome

theorem progress (h : Control m s) (hc : Contexts m s) : s.Up m ∨ ∃ q t, run m q s = some t := by
  have hgo : (bspStep m s).isSome = true → s.Up m ∨ ∃ q t, run m q s = some t := fun hstep => by
    obtain ⟨t, ht⟩ := Option.isSome_iff_exists.mp hstep
    exact .inr ⟨m.bspLapicId, t, (if_pos rfl).trans ht⟩
  cases hb : s.bsp with
  | bootstrap =>
    have hclear : s.enableLock = false := by
      cases hlock : s.enableLock with
      | false => rfl
      | true => simpa [hb, Bsp.phase] using h.enable.mp hlock
    exact hgo (by simp [bspStep, hb, hclear])
  | scan i =>
    have hcount := h.count (by simp [hb, Bsp.phase])
    refine hgo ?_
    simp only [bspStep, hb, hcount]
    split
    · rename_i hi
      rw [List.getElem?_eq_getElem hi]
      simp only
      split <;> rfl
    · rfl
  | acquire i =>
    -- nobody boots, so nobody has the lock
    have hclear : s.bootstrapLock = false := by
      cases hlock : s.bootstrapLock with
      | false => rfl
      | true =>
        obtain ⟨q, hq⟩ := h.bootstrap.set.mp hlock
        unfold State.HoldsBootstrap at hq
        split at hq
        · simp [hb] at hq
        · exact absurd hq (h.no_boot (by simp [hb]) q)
    exact hgo (by simp [bspStep, hb, hclear])
  | wake i =>
    obtain ⟨cpu, hi, -⟩ := h.index i (.inr (.inl hb))
    exact hgo (by simp [bspStep, hb, hi])
  | await i =>
    cases hlock : s.bootstrapLock with
    | false => exact hgo (by simp [bspStep, hb, hlock])
    | true =>
      -- the processor that boots clears the lock
      obtain ⟨q, hq⟩ := h.bootstrap.set.mp hlock
      unfold State.HoldsBootstrap at hq
      split at hq
      · simp [hb] at hq
      · rename_i hne
        obtain ⟨t, ht⟩ : ∃ t, apStep q s = some t :=
          Option.isSome_iff_exists.mp (by simp [apStep, hq])
        exact .inr ⟨q, t, (if_neg hne).trans ht⟩
  | online => exact hgo (by simp [bspStep, hb])
  | install place =>
    have hplace : s.place m m.bspLapicId = some place := by simp [State.place, hb, Bsp.place]
    exact .inr (install_progress h hplace)
  | load => exact hgo (by simp [bspStep, hb])
  | release => exact hgo (by simp [bspStep, hb])
  | spin =>
    by_cases hall : s.counted m = m.aps
    · have hcount := h.count (by simp [hb, Bsp.phase])
      have hcard := m.card_aps
      have hsmall := m.small
      have hcomplete : s.complete = sub64 s.processorCount 1 := by
        rw [h.complete, hall, hcount, sub64_of_le (by omega) hsmall]
        omega
      exact hgo (by simp [bspStep, hb, hcomplete])
    · obtain ⟨q, hq, hnot⟩ : ∃ q ∈ m.aps, q ∉ s.counted m := by
        by_contra hno
        push Not at hno
        exact hall (Finset.Subset.antisymm (Finset.filter_subset _ _) hno)
      refine .inr (ap_progress h hc hq (by simp [hb, Bsp.phase]) ?_)
      have hne := (Machine.mem_aps.mp hq).1
      rw [State.mem_counted, not_and] at hnot
      have hlt := hnot hq
      cases ha : s.ap q <;> simp_all [State.current, Ap.current, Ap.phase]
  | enable =>
    have hen : s.Enabling m m.bspLapicId := by simp [State.Enabling, hb]
    obtain ⟨s', hs'⟩ := hc.enabling hen
    exact .inr ⟨_, _, (run_enabling hen).trans (congrArg _ hs')⟩
  | running e =>
    by_cases hup : s.Up m
    · exact .inl hup
    · unfold State.Up at hup
      push Not at hup
      obtain ⟨q, hq, hnone⟩ := hup
      have hnone : s.current m q = none := by simpa using hnone
      have hne : q ≠ m.bspLapicId := by
        rintro rfl
        simp [State.current, hb, Bsp.current] at hnone
      exact .inr (ap_progress h hc (Machine.mem_aps.mpr ⟨hne, hq⟩) (by simp [hb, Bsp.phase]) hnone)

/-! ## Main results -/

def Label.isRun : Label → Bool
  | .run _ => true
  | _ => false

theorem left_step (h : Control m s) {l : Label} (hst : (smpLTS m).step s l t) :
    t.left m + [l].countP Label.isRun ≤ s.left m := by
  cases l with
  | run p =>
    have hlt := left_run h hst
    simp only [Label.isRun, List.countP_singleton, if_true]
    exact hlt
  | create p free =>
    obtain ⟨-, -, -, -, -, -, rfl⟩ := create_frame hst
    simp [Label.isRun, State.left]
  | tick p n =>
    simp only [smpLTS, tick] at hst
    split at hst
    · rename_i hcur
      obtain ⟨⟨e, s'⟩, hpops, rfl⟩ := Option.map_eq_some_iff.mp hst
      obtain ⟨contexts, rfl⟩ := pops_frame hpops
      have hleft := left_setCurrent (s := { s with contexts := contexts }) (e := e) hcur
      simp only [Label.isRun, List.countP_singleton, Bool.false_eq_true, if_false, Nat.add_zero]
      exact Nat.le_of_eq hleft
    · cases hst

/-- **The start-up always ends.** Whatever order the processors take their steps in, and
whatever tasks are created meanwhile, the start-up code takes at most 19 steps for each
processor; and from every state on the way the start-up code alone leads to one where
each processor runs a task. -/
theorem start_up_ends (m : Machine) :
    (∀ ls s, (smpLTS m).Run {} ls s → ls.countP Label.isRun ≤ 19 * m.lapicIds.length) ∧
    ∀ s, (smpLTS m).Reachable s →
      ∃ ls t, (smpLTS m).Run s ls t ∧ t.Up m ∧ ∀ l ∈ ls, l.isRun = true := by
  refine ⟨fun ls s hrun => ?_, fun s hs => ?_⟩
  · have hle := control_inductive.countP_le (fun s l t h hst => left_step h hst) hrun control_init
    have hinit : State.left m {} = 4 * m.lapicIds.length + 14 + 15 * m.aps.card := by
      simp [State.left, Bsp.left, Ap.left, Nat.mul_comm]
    have hcard := m.card_aps
    omega
  · refine smp_inductive.leads (P := fun l => l.isRun = true) (μ := State.left m) (fun s h => ?_)
      (smp_inductive.reachable hs)
    rcases progress h.1 h.2 with hup | ⟨q, t, hrun⟩
    · exact .inl hup
    · exact .inr ⟨.run q, t, rfl, hrun, left_run h.1 hrun⟩

theorem start_up_ends_three : ∃ ls t, (smpLTS threeProcessors).Run {} ls t ∧
    t.Up threeProcessors ∧ ls.length ≤ 57 := by
  obtain ⟨hle, hup⟩ := start_up_ends threeProcessors
  obtain ⟨ls, t, hrun, ht, hall⟩ := hup {} (.init rfl)
  have hcount := hle ls t hrun
  rw [List.countP_eq_length.mpr hall] at hcount
  exact ⟨ls, t, hrun, ht, hcount⟩

end GaOS.L4.Smp
