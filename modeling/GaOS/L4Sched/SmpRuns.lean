import GaOS.L4Sched.SmpContexts

/-!
# What holds once the processors are up

The two invariants together over every run of the processors. `chain_complete`: the
context of every processor is in the chain, once. `enable_idle` and `create_target`:
a processor starts with its own idle task, and no task is put in front of one.
-/
namespace GaOS.L4.Smp

variable {m : Machine} {s t : State} {p : Nat}

/-! ## Pops -/

theorem popOwn_cases {e : Entry} (h : popOwn p s = some (e, t)) :
    ∃ c x q, s.own p = some c ∧ s.contexts[c]? = some x ∧ x.queue = e :: q ∧
      t = s.modifyContext c fun x => { x with queue := q ++ [e] } := by
  simp only [popOwn, Option.bind_eq_bind, Option.bind_eq_some_iff] at h
  obtain ⟨c, hc, x, hx, ⟨e', queue⟩, hpop, h⟩ := h
  simp only [Option.pure_def, Option.some.injEq, Prod.mk.injEq] at h
  obtain ⟨rfl, rfl⟩ := h
  cases hq : x.queue with
  | nil =>
    rw [hq] at hpop
    cases hpop
  | cons e q =>
    rw [hq] at hpop
    cases hpop
    exact ⟨c, x, q, hc, hx, hq, rfl⟩

/-- A processor that pops is done with `install_context`. -/
structure Ready (m : Machine) (s : State) (p : Nat) : Prop where
  installed : s.installed m p = 7
  place : s.place m p = none
  phase : p = m.bspLapicId → 7 ≤ s.bsp.phase

theorem Enabling.ready (h : s.Enabling m p) : Ready m s p := by
  unfold State.Enabling at h
  split at h
  · rename_i he
    exact ⟨by simp [he, h, Bsp.installed, Bsp.phase], by simp [he, State.place, h, Bsp.place],
      by simp [h, Bsp.phase]⟩
  · rename_i he
    exact ⟨by simp [installed_ap he, h, Ap.installed, Ap.phase],
      by simp [he, State.place, h, Ap.place], fun hp => absurd hp he⟩

theorem ready_of_current (h : (s.current m p).isSome) : Ready m s p := by
  unfold State.current at h
  split at h
  · rename_i he
    cases hb : s.bsp <;> simp_all [Bsp.current]
    exact ⟨by simp [hb, Bsp.installed, Bsp.phase], by simp [State.place, hb, Bsp.place],
      by simp [hb, Bsp.phase]⟩
  · rename_i he
    cases ha : s.ap p <;> simp_all [Ap.current]
    exact ⟨by simp [installed_ap he, ha, Ap.installed, Ap.phase],
      by simp [he, State.place, ha, Ap.place], fun hp => absurd hp he⟩

/-- A processor goes on with `e`: nothing else changes. -/
structure GoesOn (m : Machine) (s t : State) (p : Nat) (e : Entry) : Prop where
  contexts : t.contexts = s.contexts
  lastContext : t.lastContext = s.lastContext
  own : t.own = s.own
  installed : ∀ q, t.installed m q = s.installed m q
  place : ∀ q, t.place m q = s.place m q
  current : ∀ q, t.current m q = if q = p then some e else s.current m q
  phase : t.bsp.phase < 7 → s.bsp.phase < 7

theorem Ready.goesOn (h : Ready m s p) (e : Entry) : GoesOn m s (s.setCurrent m p e) p e := by
  by_cases hp : p = m.bspLapicId
  · have hset : s.setCurrent m p e = { s with bsp := .running e } := if_pos hp
    have h7 := h.installed
    have hplace := h.place
    rw [hp, installed_bsp] at h7
    rw [hp, State.place, if_pos rfl] at hplace
    rw [hset]
    refine ⟨rfl, rfl, rfl, installed_of_bsp rfl h7.symm, fun q => ?_, fun q => ?_, ?_⟩
    · simp only [State.place, hplace]
      rfl
    · by_cases hq : q = m.bspLapicId
      · simp [State.current, hp, hq, Bsp.current]
      · simp [State.current, hp, hq]
    · simp [Bsp.phase]
  · have hset : s.setCurrent m p e = s.setAp p (.running e) := if_neg hp
    have hplace := h.place
    rw [State.place, if_neg hp] at hplace
    rw [hset]
    refine ⟨rfl, rfl, rfl, fun q => ?_, fun q => ?_, fun q => ?_, fun hlt => hlt⟩
    · rw [installed_of_ap (s := s) (t := s.setAp p (.running e)) hp rfl rfl]
      split
      · rename_i he
        rw [he, h.installed]
        rfl
      · rfl
    · by_cases hq : q = p
      · simp only [State.place, State.setAp, hq, hp, if_false, Function.update_self, hplace]
        rfl
      · simp [State.place, State.setAp, hq]
    · by_cases hq : q = p
      · simp [State.current, State.setAp, hq, hp, Ap.current]
      · simp [State.current, State.setAp, hq]

/-- The first of the queue goes behind the others, and the processor goes on with it. -/
theorem Contexts.pop {e : Entry} (h : Contexts m s) (hr : Ready m s p)
    (hpop : popOwn p s = some (e, t)) : Contexts m (t.setCurrent m p e) := by
  obtain ⟨c, x, q, hc, hx, hq, rfl⟩ := popOwn_cases hpop
  have hown := h.own p c hc
  have hcpu : x.cpuId = p := Owns.cpu ⟨x, hx, rfl⟩ hown
  have hok := h.queues c x hx
  have hready : Ready m (s.modifyContext c fun x => { x with queue := q ++ [e] }) p :=
    ⟨hr.installed, hr.place, hr.phase⟩
  have hg := hready.goesOn e
  generalize (s.modifyContext c fun x => { x with queue := q ++ [e] }).setCurrent m p e = u at hg
  have hinst : ∀ i, u.installed m i = s.installed m i := hg.installed
  have hplace : ∀ i, u.place m i = s.place m i := hg.place
  have hcurrent : ∀ i, u.current m i = if i = p then some e else s.current m i := hg.current
  have hcontexts : u.contexts = s.contexts.modify c fun x => { x with queue := q ++ [e] } :=
    hg.contexts
  refine h.keep (hcontexts ▸ sameLinks_queue c fun _ => q ++ [e]) hg.lastContext
    (fun i => by rw [hinst]) (fun i => by rw [hinst]; exact id) (fun i => by rw [hinst])
    (fun i => by rw [hinst]) (fun i place j hi => h.place i place j (hplace i ▸ hi))
    (fun i j hi => hplace i ▸ hi) (hg.own ▸ h.own) ?_ ?_ ?_
  · intro i h6
    rw [hinst] at h6
    rw [hg.own]
    exact h.attached i h6
  · intro i y hy
    rw [hcontexts, getElem?_modify_context] at hy
    obtain ⟨z, hz, rfl⟩ := Option.map_eq_some_iff.mp hy
    by_cases he : c = i
    · -- the queue of the processor itself: the same tasks in another order
      subst he
      rw [hx] at hz
      cases hz
      rw [if_pos rfl]
      have hmem : ∀ e', e' ∈ q ++ [e] ↔ e' ∈ x.queue := fun e' => by
        rw [hq, List.mem_append, List.mem_singleton, List.mem_cons, or_comm]
      have h7 : u.installed m x.cpuId = 7 := by rw [hinst, hcpu, hr.installed]
      refine ⟨fun hle => ?_, fun _ => ?_, fun _ hnone => ?_, fun i hi => ?_,
        fun hne hlt e' he' => ?_⟩
      · simp only [h7] at hle
        omega
      · exact (hmem _).mpr (hok.idle (hinst _ ▸ h7))
      · simp [hcurrent, hcpu] at hnone
      · exact hok.own i ((hmem _).mp hi)
      · exact hok.quiet hne (hg.phase hlt) e' ((hmem e').mp he')
    · rw [if_neg he]
      refine (h.queues i z hz).mono (by rw [hinst]) ?_ hg.phase
      have hne : z.cpuId ≠ p := fun hzp => he (Owns.unique h.ids hown ⟨z, hz, hzp⟩)
      rw [hcurrent, if_neg hne]
  · intro i e' hi j y hy hi'
    rw [hcontexts, getElem?_modify_context] at hy
    obtain ⟨z, hz, rfl⟩ := Option.map_eq_some_iff.mp hy
    by_cases he : c = j
    · subst he
      rw [hx] at hz
      cases hz
      rw [if_pos rfl] at hi' ⊢
      have hip : i = p := hi'.symm.trans hcpu
      rw [hcurrent, if_pos hip] at hi
      cases hi
      simp
    · rw [if_neg he] at hi' ⊢
      have hne : i ≠ p := fun hip => he (Owns.unique h.ids hown ⟨z, hz, hi'.trans hip⟩)
      rw [hcurrent, if_neg hne] at hi
      exact h.current i e' hi j z hz hi'

theorem popOwn_setCurrent (e : Entry) :
    popOwn p (s.setCurrent m p e) = (popOwn p s).map fun r => (r.1, r.2.setCurrent m p e) := by
  have hown : (s.setCurrent m p e).own = s.own := by
    unfold State.setCurrent
    split <;> rfl
  have hcontexts : (s.setCurrent m p e).contexts = s.contexts := by
    unfold State.setCurrent
    split <;> rfl
  have hmodify : ∀ c f, (s.setCurrent m p e).modifyContext c f =
      (s.modifyContext c f).setCurrent m p e := fun c f => by
    unfold State.setCurrent State.modifyContext
    split <;> rfl
  simp only [popOwn, hown, hcontexts, hmodify]
  cases s.own p with
  | none => rfl
  | some c =>
    cases hx : s.contexts[c]? with
    | none => simp [hx]
    | some x => cases hq : popFromQueue x.queue <;> simp [hx, hq]

theorem setCurrent_setCurrent (e e' : Entry) :
    (s.setCurrent m p e).setCurrent m p e' = s.setCurrent m p e' := by
  unfold State.setCurrent
  split
  · rfl
  · simp [State.setAp]

theorem pops_setCurrent {n : Nat} (e : Entry) :
    pops p n (s.setCurrent m p e) = (pops p n s).map fun r => (r.1, r.2.setCurrent m p e) := by
  induction n generalizing s with
  | zero => exact popOwn_setCurrent e
  | succ n ih =>
    simp only [pops, popOwn_setCurrent]
    cases popOwn p s with
    | none => rfl
    | some r => exact ih

theorem Ready.pop {e : Entry} (h : Ready m s p) (hpop : popOwn p s = some (e, t)) :
    Ready m t p := by
  obtain ⟨contexts, rfl⟩ := popOwn_frame hpop
  exact ⟨h.installed, h.place, h.phase⟩

theorem Ready.setCurrent (h : Ready m s p) (e : Entry) : Ready m (s.setCurrent m p e) p := by
  have hg := h.goesOn e
  refine ⟨(hg.installed p).trans h.installed, (hg.place p).trans h.place, fun hp => ?_⟩
  have h7 := h.phase hp
  have hlt := hg.phase
  omega

/-- Several pops, and the last one counts. -/
theorem Contexts.pops {n : Nat} {e : Entry} (h : Contexts m s) (hr : Ready m s p)
    (hpops : pops p n s = some (e, t)) : Contexts m (t.setCurrent m p e) := by
  induction n generalizing s t with
  | zero => exact h.pop hr hpops
  | succ n ih =>
    simp only [Smp.pops, Option.bind_eq_bind, Option.bind_eq_some_iff] at hpops
    obtain ⟨⟨e', s'⟩, hpop, hrest⟩ := hpops
    have hlater : Smp.pops p n (s'.setCurrent m p e') = some (e, t.setCurrent m p e') := by
      rw [pops_setCurrent, hrest]
      rfl
    have hgoal := ih (h.pop hr hpop) ((hr.pop hpop).setCurrent e') hlater
    rwa [setCurrent_setCurrent] at hgoal

/-! ## Creating a task -/

theorem chainFrom_eq {contexts : List Context} {start : Option Nat} {l : List Nat} {n : Nat}
    (h : Linked contexts start l) (hn : l.length ≤ n) : chainFrom contexts n start = l := by
  suffices ∀ {q start l n}, Seg none (previousOf contexts) (nextOf contexts) q start
      (l.map some) → l.length ≤ n → chainFrom contexts n start = l from this h.seg hn
  intro q start l n
  induction l generalizing q start n with
  | nil =>
    rintro rfl -
    cases n <;> rfl
  | cons c l ih =>
    rintro ⟨rfl, -, -, hrest⟩ hle
    obtain ⟨k, rfl⟩ : ∃ k, n = k + 1 := ⟨n - 1, by simp at hle; omega⟩
    have hnext := ih hrest (by simpa using hle)
    simp only [previousOf, Option.bind_some] at hnext
    simp only [chainFrom, hnext]

/-- A loop that keeps its choice or takes the next one ends with one of them. -/
theorem foldl_choice {f : Nat × Nat → Nat → Nat × Nat}
    (hf : ∀ acc c, (f acc c).2 = acc.2 ∨ (f acc c).2 = c) (l : List Nat) (acc : Nat × Nat) :
    (l.foldl f acc).2 ∈ acc.2 :: l := by
  induction l generalizing acc with
  | nil => simp
  | cons c l ih =>
    rw [List.foldl_cons]
    rcases List.mem_cons.mp (ih (f acc c)) with he | hmem
    · rcases hf acc c with h | h
      · rw [he, h]
        exact List.mem_cons_self
      · rw [he, h]
        exact List.mem_cons_of_mem _ List.mem_cons_self
    · exact List.mem_cons_of_mem _ (List.mem_cons_of_mem _ hmem)

theorem leastBusy_mem (contexts : List Context) (own : Nat) (l : List Nat) :
    leastBusy contexts own l ∈ own :: l := by
  unfold leastBusy
  refine foldl_choice (fun acc c => ?_) l _
  dsimp only
  split
  · exact .inr rfl
  · exact .inl rfl

theorem Chain.length_le {l : List Nat} (hl : Chain m s l) (hnd : l.Nodup) :
    l.length ≤ s.contexts.length := by
  have hsub : l ⊆ List.range s.contexts.length := fun c hc => by
    obtain ⟨q, hq, -⟩ := (hl.mem c).mp hc
    exact List.mem_range.mpr hq.lt
  simpa using (hnd.subperm hsub).length_le

/-- The walk from `last_context` finds the published contexts. -/
theorem Chain.walk {l : List Nat} (hl : Chain m s l) (hno : ∀ q, s.installed m q ≠ 3) :
    chainFrom s.contexts s.contexts.length s.lastContext = l ∧ l.Nodup := by
  have hlinked := hl.linked hno
  have hnd : l.Nodup := List.Nodup.of_map _ hlinked.nodup
  exact ⟨chainFrom_eq hlinked (hl.length_le hnd), hnd⟩

/-- Once the bootstrap processor has seen all the others, they have their contexts. -/
theorem Control.all_installed (h : Control m s) (h7 : 7 ≤ s.bsp.phase) (hp : p ∈ m.lapicIds) :
    s.installed m p = 7 := by
  by_cases he : p = m.bspLapicId
  · subst he
    rw [installed_bsp]
    cases hb : s.bsp <;> simp_all [Bsp.installed, Bsp.phase]
  · have hmem : p ∈ s.counted m := h.done h7 ▸ Machine.mem_aps.mpr ⟨he, hp⟩
    have hphase := (State.mem_counted.mp hmem).2
    rw [installed_ap he]
    cases ha : s.ap p <;> simp_all [Ap.installed, Ap.phase]

/-- Before the release of the lock, only the bootstrap processor installs. -/
theorem Control.not_installed (h : Control m s) (h5 : s.bsp.phase ≤ 5) (hp : p ≠ m.bspLapicId) :
    s.installed m p = 0 := by
  rw [installed_ap hp]
  have hwait := h.waits p
  cases ha : s.ap p <;> simp_all [Ap.installed, Ap.phase] <;> omega

theorem Contexts.on_machine {c : Nat} (h : Contexts m s) (hc : Control m s)
    (hown : Owns s.contexts p c) : p ∈ m.lapicIds := by
  by_cases he : p = m.bspLapicId
  · exact he ▸ m.bsp_mem
  · have h1 := (h.allocated p).mp ⟨c, hown⟩
    have hoff : s.ap p ≠ .off := fun hoff => by
      rw [installed_ap he, hoff] at h1
      simp [Ap.installed, Ap.phase] at h1
    exact (Machine.mem_aps.mp (hc.mem_aps hoff)).2

/-- When a task may be created, no processor is in the middle of `install_context`, and
those that are not done with it have not begun. -/
theorem Contexts.creates (h : Contexts m s) (hc : Control m s) (hp : s.creates m p = true) :
    (∀ q c, Owns s.contexts q c → s.installed m q = 7 ∧ (q = m.bspLapicId ∨ 7 ≤ s.bsp.phase)) ∧
      ∀ q, s.installed m q ≠ 3 := by
  have hcase : s.bsp = .load ∨ 7 ≤ s.bsp.phase := by
    simp only [State.creates, Bool.or_eq_true, Bool.and_eq_true, beq_iff_eq] at hp
    rcases hp with ⟨-, hload⟩ | htask
    · exact .inl hload
    right
    obtain ⟨n, hn⟩ : ∃ n, s.current m p = some (.task n) := by
      cases hcur : s.current m p with
      | none => simp [hcur] at htask
      | some e => cases e <;> simp_all
    by_contra hlt
    have hready := ready_of_current (m := m) (s := s) (p := p) (by simp [hn])
    have hne : p ≠ m.bspLapicId := fun he => hlt (hready.phase he)
    obtain ⟨c, x, hx, hcpu⟩ := (h.allocated p).mpr (by rw [hready.installed]; omega)
    -- before that a processor other than the bootstrap processor has only its idle task
    have hmem := h.current p _ hn c x hx hcpu
    have hidle := (h.queues c x hx).quiet (hcpu ▸ hne) (by omega) _ hmem
    cases hidle
  rcases hcase with hload | h7
  · have h5 : s.bsp.phase ≤ 5 := by simp [hload, Bsp.phase]
    have hbsp : s.installed m m.bspLapicId = 7 := by
      simp [hload, Bsp.installed, Bsp.phase]
    refine ⟨fun q c hown => ?_, fun q => ?_⟩
    · have h1 := (h.allocated q).mp ⟨c, hown⟩
      have hq : q = m.bspLapicId := by
        by_contra hne
        rw [hc.not_installed h5 hne] at h1
        omega
      exact ⟨hq ▸ hbsp, .inl hq⟩
    · by_cases hq : q = m.bspLapicId
      · rw [hq, hbsp]
        omega
      · rw [hc.not_installed h5 hq]
        omega
  · refine ⟨fun q c hown => ⟨hc.all_installed h7 (h.on_machine hc hown), .inr h7⟩, fun q => ?_⟩
    by_cases hq : q ∈ m.lapicIds
    · rw [hc.all_installed h7 hq]
      omega
    · have hne : q ≠ m.bspLapicId := fun he => hq (he ▸ m.bsp_mem)
      have hoff := hc.others q fun hmem => hq (Machine.mem_aps.mp hmem).2
      simp [installed_ap hne, hoff, Ap.installed, Ap.phase]

/-- The context that `create` takes has its idle task. -/
theorem Contexts.create_target {free : Nat} (h : Contexts m s) (hc : Control m s)
    (hcreate : create m p s = some (free, t)) : ∃ x, s.contexts[free]? = some x ∧
      s.installed m x.cpuId = 7 ∧ (x.cpuId = m.bspLapicId ∨ 7 ≤ s.bsp.phase) := by
  obtain ⟨hcreates, last, own, -, hown, rfl, -⟩ := create_frame hcreate
  obtain ⟨hall, hno⟩ := h.creates hc hcreates
  obtain ⟨l, hl⟩ := h.chain
  rw [(hl.walk hno).1]
  rcases List.mem_cons.mp (leastBusy_mem s.contexts own l) with he | hmem
  · obtain ⟨x, hx, hcpu⟩ := h.own p own hown
    rw [he]
    exact ⟨x, hx, hall _ own ⟨x, hx, rfl⟩⟩
  · obtain ⟨q, ⟨x, hx, hcpu⟩, -⟩ := (hl.mem _).mp hmem
    exact ⟨x, hx, hall _ _ ⟨x, hx, rfl⟩⟩

theorem Contexts.create {free : Nat} (h : Contexts m s) (hc : Control m s)
    (hcreate : create m p s = some (free, t)) : Contexts m t := by
  obtain ⟨y, hy, hinst, hphase⟩ := h.create_target hc hcreate
  obtain ⟨-, -, -, -, -, -, rfl⟩ := create_frame hcreate
  have hok := h.queues free y hy
  refine h.keep (sameLinks_queue free fun q => q ++ [.task (s.lastId + 1)]) rfl
    (fun q => Iff.rfl) (fun q => id) (fun q => Iff.rfl) (fun q => Iff.rfl)
    (fun q place c hq => h.place q place c hq) (fun q c hq => hq) h.own h.attached ?_ ?_
  · intro c x hx
    rw [getElem?_modify_context] at hx
    obtain ⟨z, hz, rfl⟩ := Option.map_eq_some_iff.mp hx
    by_cases he : free = c
    · subst he
      rw [hy] at hz
      cases hz
      rw [if_pos rfl]
      refine ⟨fun hle => ?_, fun _ => ?_, fun _ hnone => ?_, fun q hq => ?_, fun hne hlt => ?_⟩
      · have hle' : s.installed m y.cpuId ≤ 6 := hle
        omega
      · exact List.mem_append_left _ (hok.idle hinst)
      · obtain ⟨tasks, htasks⟩ := hok.head hinst hnone
        exact ⟨tasks ++ [.task (s.lastId + 1)], by simp [htasks]⟩
      · exact hok.own q (by simpa using hq)
      · -- only the bootstrap processor is given tasks before all processors are there
        rcases hphase with he | h7
        · exact absurd he hne
        · exact absurd hlt (Nat.not_lt.mpr h7)
    · rw [if_neg he]
      exact ⟨(h.queues c z hz).before, (h.queues c z hz).idle, (h.queues c z hz).head,
        (h.queues c z hz).own, (h.queues c z hz).quiet⟩
  · intro q e hq c x hx hcpu
    rw [getElem?_modify_context] at hx
    obtain ⟨z, hz, rfl⟩ := Option.map_eq_some_iff.mp hx
    by_cases he : free = c
    · rw [if_pos he] at hcpu ⊢
      exact List.mem_append_left _ (h.current q e hq c z hz hcpu)
    · rw [if_neg he] at hcpu ⊢
      exact h.current q e hq c z hz hcpu

/-! ## Runs -/

theorem smp_inductive : (smpLTS m).Inductive fun s => Control m s ∧ Contexts m s where
  init := by
    rintro s rfl
    exact ⟨control_init, contexts_init⟩
  step := by
    rintro s l t ⟨hc, h⟩ hst
    refine ⟨control_inductive.step s l t hc hst, ?_⟩
    cases l with
    | run p =>
      rcases run_cases hc hst with ⟨place, next, s', hplace, hstep, rfl⟩ | ⟨hen, e, s', hpop, rfl⟩ |
        hquiet
      · exact h.install hc hplace hstep
      · exact h.pop (Enabling.ready hen) hpop
      · exact h.quiet hquiet
    | create p free => exact h.create hc hst
    | tick p n =>
      simp only [smpLTS, tick] at hst
      split at hst
      · rename_i hcur
        obtain ⟨⟨e, s'⟩, hpops, rfl⟩ := Option.map_eq_some_iff.mp hst
        exact h.pops (ready_of_current hcur) hpops
      · cases hst

/-! ## Main results -/

/-- A processor that enables its scheduler finds its idle task in front. -/
theorem Contexts.enabling (h : Contexts m s) (hen : s.Enabling m p) :
    ∃ s', popOwn p s = some (.idle p, s') := by
  have hready := Enabling.ready hen
  have hnone : s.current m p = none := by
    unfold State.Enabling at hen
    unfold State.current
    split at hen
    · rename_i he
      simp [he, hen, Bsp.current]
    · rename_i he
      simp [he, hen, Ap.current]
  obtain ⟨c, hc⟩ := h.attached p (by rw [hready.installed]; omega)
  obtain ⟨x, hx, hcpu⟩ := h.own p c hc
  obtain ⟨tasks, htasks⟩ := (h.queues c x hx).head (hcpu ▸ hready.installed) (hcpu ▸ hnone)
  refine ⟨s.modifyContext c fun y => { y with queue := tasks ++ [.idle p] }, ?_⟩
  simp [popOwn, hc, hx, htasks, popFromQueue, hcpu]

theorem run_enabling (hen : s.Enabling m p) :
    run m p s = (popOwn p s).map fun r => r.2.setCurrent m p r.1 := by
  unfold State.Enabling at hen
  unfold run State.setCurrent
  split at hen
  · rename_i he
    subst he
    simp [bspStep, hen]
  · rename_i he
    simp [he, apStep, hen]

/-- The processors of the contexts from `last_context` on. -/
def State.chainIds (s : State) : List Nat :=
  (chainFrom s.contexts s.contexts.length s.lastContext).filterMap fun c =>
    s.contexts[c]?.map Context.cpuId

theorem Chain.chainIds {l : List Nat} (h : Contexts m s) (hl : Chain m s l)
    (hno : ∀ q, s.installed m q ≠ 3) :
    s.chainIds.Nodup ∧ (∀ q, q ∈ s.chainIds ↔ 4 ≤ s.installed m q) ∧
      ∀ q ∈ s.chainIds.getLast?, q = m.bspLapicId := by
  obtain ⟨hwalk, hnd⟩ := hl.walk hno
  have hids : s.chainIds = l.filterMap fun c => s.contexts[c]?.map Context.cpuId :=
    congrArg _ hwalk
  have howns : ∀ q c, s.contexts[c]?.map Context.cpuId = some q ↔ Owns s.contexts q c :=
    fun q c => Option.map_eq_some_iff
  rw [hids]
  refine ⟨hnd.filterMap fun c c' q hc hc' => ?_, fun q => ?_, fun q hq => ?_⟩
  · exact Owns.unique h.ids ((howns q c).mp hc) ((howns q c').mp hc')
  · simp only [List.mem_filterMap, howns]
    constructor
    · rintro ⟨c, hc, hown⟩
      obtain ⟨q', hown', h4⟩ := (hl.mem c).mp hc
      rwa [hown.cpu hown']
    · intro h4
      obtain ⟨c, hown⟩ := (h.allocated q).mpr (by omega)
      exact ⟨c, (hl.mem c).mpr ⟨q, hown, h4⟩, hown⟩
  · cases hlast : l.getLast? with
    | none =>
      rw [List.getLast?_eq_none_iff] at hlast
      simp [hlast] at hq
    | some c =>
      obtain ⟨l', rfl⟩ := List.getLast?_eq_some_iff.mp hlast
      have hbsp := (howns _ c).mpr (hl.first c hlast)
      simp only [List.filterMap_append, List.filterMap_cons, hbsp, List.filterMap_nil,
        List.getLast?_append, List.getLast?_singleton] at hq
      simpa using hq.symm

/-- The processors take a step each, in the given order. -/
def runs (m : Machine) : List Nat → State → Option State
  | [], s => some s
  | p :: ps, s => (run m p s).bind (runs m ps)

theorem runs_reachable {ps : List Nat} (hs : (smpLTS m).Reachable s) (h : runs m ps s = some t) :
    (smpLTS m).Reachable t := by
  induction ps generalizing s with
  | nil =>
    cases h
    exact hs
  | cons p ps ih =>
    obtain ⟨u, hrun, hrest⟩ := Option.bind_eq_some_iff.mp h
    exact ih (hs.step (l := .run p) hrun) hrest

def threeProcessors : Machine where
  lapicIds := [3, 0, 5]
  bspLapicId := 0
  nodup := by decide
  bsp_mem := by decide
  small := by decide

/-- **One at a time, and only when it is their turn.** At most one processor runs its early
start-up code; none installs a context before the bootstrap processor has installed its
own and released the schedulers; `arch_complete` is the number of processors that have
added themselves to it, and these are all others once the bootstrap processor goes on. -/
theorem boot_order (hs : (smpLTS m).Reachable s) :
    (∀ p q, s.ap p = .boot → s.ap q = .boot → p = q) ∧
    (∀ p, 3 ≤ (s.ap p).phase → s.enableLock = false ∧ s.installed m m.bspLapicId = 7) ∧
    s.complete = (s.counted m).card ∧ (7 ≤ s.bsp.phase → s.counted m = m.aps) := by
  have hc := (smp_inductive.reachable hs).1
  refine ⟨fun p q hp hq => ?_, fun p hp => ?_, hc.complete, hc.done⟩
  · obtain ⟨i, hi, hgp⟩ := hc.boots p hp
    obtain ⟨j, hj, hgq⟩ := hc.boots q hq
    rw [hi] at hj
    cases hj
    exact Option.some.inj (hgp.symm.trans hgq)
  · have h6 := hc.waits p hp
    have hen := hc.enable
    refine ⟨?_, ?_⟩
    · cases hlock : s.enableLock with
      | false => rfl
      | true => exact absurd (hen.mp hlock).2 (by omega)
    · rw [installed_bsp]
      cases hb : s.bsp <;> simp_all [Bsp.installed, Bsp.phase]

theorem boot_order_three : ∃ s, (smpLTS threeProcessors).Reachable s ∧ s.ap 3 = .boot ∧
    ∀ p, s.ap p = .boot → p = 3 := by
  have hsome : ((runs threeProcessors [0, 0, 0, 0] {}).map fun s => s.ap 3) = some .boot := by
    decide
  obtain ⟨s, hs, h3⟩ := Option.map_eq_some_iff.mp hsome
  have hreach := runs_reachable (.init rfl) hs
  exact ⟨s, hreach, h3, fun p hp => (boot_order hreach).1 p 3 hp h3⟩

/-- **Every processor is in the chain.** Whenever nobody has the lock, the walk from
`last_context` meets the processors that have published their context, each once, and
ends with the bootstrap processor; once that one goes on they are all processors. -/
theorem chain_complete (hs : (smpLTS m).Reachable s) :
    (s.lastContextLock = false → s.chainIds.Nodup ∧
      (∀ p, p ∈ s.chainIds ↔ 4 ≤ s.installed m p) ∧
      ∀ p ∈ s.chainIds.getLast?, p = m.bspLapicId) ∧
    (7 ≤ s.bsp.phase → s.lastContextLock = false ∧ s.chainIds.Perm m.lapicIds) := by
  obtain ⟨hc, h⟩ := smp_inductive.reachable hs
  obtain ⟨l, hl⟩ := h.chain
  refine ⟨fun hlock => ?_, fun h7 => ?_⟩
  · refine Chain.chainIds h hl fun q hq => ?_
    have hheld := hc.lastContext
    rw [hlock] at hheld
    exact hheld.free q ⟨by omega, by omega⟩
  · have hall : ∀ q, 1 ≤ s.installed m q → q ∈ m.lapicIds := fun q h1 => by
      obtain ⟨c, hown⟩ := (h.allocated q).mpr h1
      exact h.on_machine hc hown
    have hinst : ∀ q, 1 ≤ s.installed m q → s.installed m q = 7 := fun q h1 =>
      hc.all_installed h7 (hall q h1)
    have hclear : s.lastContextLock = false := by
      cases hlock : s.lastContextLock with
      | false => rfl
      | true =>
        obtain ⟨q, hlo, hhi⟩ := hc.lastContext.set.mp hlock
        have hq := hinst q (by omega)
        omega
    obtain ⟨hnd, hmem, -⟩ := Chain.chainIds h hl fun q hq => by
      have h7 := hinst q (by omega)
      omega
    refine ⟨hclear, (List.perm_ext_iff_of_nodup hnd m.nodup).mpr fun q => ?_⟩
    rw [hmem]
    refine ⟨fun h4 => hall q (by omega), fun hq => ?_⟩
    rw [hc.all_installed h7 hq]
    omega

/-- The other two processors install their contexts at the same time. -/
def threeSchedule : List Nat :=
  [0, 0, 0, 0, 3, 0, 0, 0, 0, 0, 5, 0, 0, 0] ++ List.replicate 9 0 ++
    [3, 5, 3, 5, 3, 3, 3, 3, 5, 5, 3, 5, 5, 3, 5, 5, 3, 3, 3, 3, 5, 5, 5, 5, 0]

theorem chain_complete_three : ∃ s, (smpLTS threeProcessors).Reachable s ∧
    s.chainIds.Perm [3, 0, 5] := by
  have hsome : ((runs threeProcessors threeSchedule {}).map fun s => s.bsp) = some .enable := by
    decide +kernel
  obtain ⟨s, hs, h7⟩ := Option.map_eq_some_iff.mp hsome
  have hreach := runs_reachable (.init rfl) hs
  exact ⟨s, hreach, ((chain_complete hreach).2 (by simp [h7, Bsp.phase])).2⟩

/-- **Every processor starts with its idle task.** The pop of `enable` never finds an
empty queue and takes the idle task of the processor, never a task that is still being
made; and the context that a new task is put into has its idle task already. -/
theorem first_task (hs : (smpLTS m).Reachable s) :
    (∀ p, s.Enabling m p → ∃ t, run m p s = some t ∧ t.current m p = some (.idle p)) ∧
    ∀ p free t, create m p s = some (free, t) →
      ∃ x, s.contexts[free]? = some x ∧ .idle x.cpuId ∈ x.queue := by
  obtain ⟨hc, h⟩ := smp_inductive.reachable hs
  refine ⟨fun p hen => ?_, fun p free t hcreate => ?_⟩
  · obtain ⟨s', hs'⟩ := h.enabling hen
    refine ⟨s'.setCurrent m p (.idle p), (run_enabling hen).trans (congrArg _ hs'), ?_⟩
    have hg := ((Enabling.ready hen).pop hs').goesOn (.idle p)
    rw [hg.current, if_pos rfl]
  · obtain ⟨x, hx, hinst, -⟩ := h.create_target hc hcreate
    exact ⟨x, hx, (h.queues free x hx).idle hinst⟩

theorem first_task_three : ∃ s t, (smpLTS threeProcessors).Reachable s ∧
    run threeProcessors 0 s = some t ∧ t.current threeProcessors 0 = some (.idle 0) := by
  have hsome : ((runs threeProcessors threeSchedule {}).map fun s => s.bsp) = some .enable := by
    decide +kernel
  obtain ⟨s, hs, h7⟩ := Option.map_eq_some_iff.mp hsome
  have hreach := runs_reachable (.init rfl) hs
  obtain ⟨t, ht⟩ := (first_task hreach).1 0 (by simp [State.Enabling, threeProcessors, h7])
  exact ⟨s, t, hreach, ht⟩

end GaOS.L4.Smp
