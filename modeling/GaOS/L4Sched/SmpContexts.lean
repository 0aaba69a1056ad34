import GaOS.L4Sched.SmpLocks

/-!
# The chain of contexts while the processors come up

`Contexts` is what the contexts look like at any point: each processor allocates one,
those that are published are linked from `last_context` back to the context of the
bootstrap processor, each once, and the queue of a context is empty until its idle task
is in it, which then stays in front until the processor runs its first task.
-/
namespace GaOS.L4.Smp

variable {m : Machine} {s t : State}

/-! ## The invariant -/

def Install.context : Install → Option Nat
  | .allocate => none
  | .lock c | .link c | .publish c | .unlock c | .attach c | .idle c => some c

def Bsp.place : Bsp → Option Install
  | .install place => some place
  | _ => none

def Ap.place : Ap → Option Install
  | .install place => some place
  | _ => none

/-- Where a processor is in `install_context`. -/
def State.place (m : Machine) (s : State) (cpu : Nat) : Option Install :=
  if cpu = m.bspLapicId then s.bsp.place else (s.ap cpu).place

def Owns (contexts : List Context) (p c : Nat) : Prop :=
  ∃ x, contexts[c]? = some x ∧ x.cpuId = p

def nextOf (contexts : List Context) (c : Option Nat) : Option Nat :=
  c.bind fun c => contexts[c]?.bind Context.next

def previousOf (contexts : List Context) (c : Option Nat) : Option Nat :=
  c.bind fun c => contexts[c]?.bind Context.previous

/-- From `start` back to the first context, and forth again. -/
def Linked (contexts : List Context) (start : Option Nat) (l : List Nat) : Prop :=
  DList none (previousOf contexts) (nextOf contexts) start (l.map some)

structure Chain (m : Machine) (s : State) (l : List Nat) : Prop where
  mem : ∀ c, c ∈ l ↔ ∃ p, Owns s.contexts p c ∧ 4 ≤ s.installed m p
  linked : (∀ p, s.installed m p ≠ 3) → Linked s.contexts s.lastContext l
  /-- between the two updates, the links are those of the chain that comes next -/
  pending : ∀ p c, s.place m p = some (.publish c) → Linked s.contexts (some c) (c :: l)
  first : ∀ c, l.getLast? = some c → Owns s.contexts m.bspLapicId c

structure QueueOk (m : Machine) (s : State) (x : Context) : Prop where
  before : s.installed m x.cpuId ≤ 6 → x.queue = []
  idle : s.installed m x.cpuId = 7 → .idle x.cpuId ∈ x.queue
  head : s.installed m x.cpuId = 7 → s.current m x.cpuId = none →
    ∃ tasks, x.queue = .idle x.cpuId :: tasks
  own : ∀ cpu, .idle cpu ∈ x.queue → cpu = x.cpuId
  /-- the other processors have nothing to do until all of them are there -/
  quiet : x.cpuId ≠ m.bspLapicId → s.bsp.phase < 7 → ∀ e ∈ x.queue, e = .idle x.cpuId

structure Contexts (m : Machine) (s : State) : Prop where
  ids : (s.contexts.map Context.cpuId).Nodup
  allocated : ∀ p, (∃ c, Owns s.contexts p c) ↔ 1 ≤ s.installed m p
  place : ∀ p place c, s.place m p = some place → place.context = some c → Owns s.contexts p c
  own : ∀ p c, s.own p = some c → Owns s.contexts p c
  attached : ∀ p, 6 ≤ s.installed m p → ∃ c, s.own p = some c
  fresh : ∀ (c : Nat) (x : Context), s.contexts[c]? = some x → s.installed m x.cpuId ≤ 2 →
    x.next = none ∧ x.previous = none
  chain : ∃ l, Chain m s l
  queues : ∀ (c : Nat) (x : Context), s.contexts[c]? = some x → QueueOk m s x
  current : ∀ p e, s.current m p = some e → ∀ (c : Nat) (x : Context), s.contexts[c]? = some x →
    x.cpuId = p → e ∈ x.queue

/-! ## Contexts by number -/

theorem Owns.unique {contexts : List Context} (h : (contexts.map Context.cpuId).Nodup)
    {p c c' : Nat} (hc : Owns contexts p c) (hc' : Owns contexts p c') : c = c' := by
  obtain ⟨x, hx, rfl⟩ := hc
  obtain ⟨y, hy, he⟩ := hc'
  obtain ⟨hlt, -⟩ := List.getElem?_eq_some_iff.mp hx
  have hmap : (contexts.map Context.cpuId)[c]? = (contexts.map Context.cpuId)[c']? := by
    rw [List.getElem?_map, List.getElem?_map, hx, hy, Option.map_some, Option.map_some, he]
  have hlt' : c < (contexts.map Context.cpuId).length := by
    rw [List.length_map]
    exact hlt
  exact (List.getElem?_inj hlt' h).mp hmap

theorem Owns.cpu {contexts : List Context} {p q c : Nat} (hp : Owns contexts p c)
    (hq : Owns contexts q c) : p = q := by
  obtain ⟨x, hx, rfl⟩ := hp
  obtain ⟨y, hy, rfl⟩ := hq
  rw [hx] at hy
  cases hy
  rfl

theorem Owns.lt {contexts : List Context} {p c : Nat} (h : Owns contexts p c) :
    c < contexts.length := by
  obtain ⟨x, hx, -⟩ := h
  exact (List.getElem?_eq_some_iff.mp hx).1

theorem getElem?_modify_context {contexts : List Context} {f : Context → Context} {c i : Nat} :
    (contexts.modify c f)[i]? = contexts[i]?.map fun x => if c = i then f x else x := by
  rw [List.getElem?_modify]
  cases contexts[i]? <;> by_cases h : c = i <;> simp [h]

theorem Linked.congr {contexts contexts' : List Context} {start : Option Nat} {l : List Nat}
    (h : Linked contexts start l)
    (hc : ∀ c ∈ l, contexts'[c]?.map (fun x => (x.next, x.previous)) =
      contexts[c]?.map fun x => (x.next, x.previous)) : Linked contexts' start l := by
  refine DList.congr h fun c hmem => ?_
  obtain ⟨i, hi, rfl⟩ := List.mem_map.mp hmem
  have hi := hc i hi
  simp only [previousOf, nextOf, Option.bind_some]
  cases h1 : contexts[i]? with
  | none =>
    have hnone : contexts'[i]? = none := by simpa [h1] using hi
    simp [hnone]
  | some x =>
    rw [h1] at hi
    obtain ⟨y, hy, he⟩ := Option.map_eq_some_iff.mp hi
    simp_all

theorem contexts_init : Contexts m {} where
  ids := by simp
  allocated p := by
    simp [Owns, State.installed, Bsp.installed, Ap.installed, Bsp.phase, Ap.phase]
  place p place c h := by simp [State.place, Bsp.place, Ap.place] at h
  own := by simp
  attached p h := by
    simp [State.installed, Bsp.installed, Ap.installed, Bsp.phase, Ap.phase] at h
  fresh := by simp
  chain := by
    refine ⟨[], ⟨?_, fun _ => DList.nil, ?_, by simp⟩⟩
    · simp [Owns]
    · intro p c h
      simp [State.place, Bsp.place, Ap.place] at h
  queues := by simp
  current p e h := by simp [State.current, Bsp.current, Ap.current] at h

/-! ## What one step does to the contexts -/

/-- A step that has nothing to do with contexts. -/
structure Quiet (m : Machine) (s t : State) : Prop where
  contexts : t.contexts = s.contexts
  lastContext : t.lastContext = s.lastContext
  own : t.own = s.own
  installed : ∀ p, t.installed m p = s.installed m p
  place : ∀ p place, t.place m p = some place → place = .allocate ∨ s.place m p = some place
  current : ∀ p, t.current m p = s.current m p
  phase : t.bsp.phase < 7 → s.bsp.phase < 7

theorem Quiet.trans {u : State} (h : Quiet m s t) (h' : Quiet m t u) : Quiet m s u where
  contexts := h'.contexts.trans h.contexts
  lastContext := h'.lastContext.trans h.lastContext
  own := h'.own.trans h.own
  installed p := (h'.installed p).trans (h.installed p)
  place p place hp := by
    rcases h'.place p place hp with he | hp
    · exact .inl he
    · exact h.place p place hp
  current p := (h'.current p).trans (h.current p)
  phase hp := h.phase (h'.phase hp)

/-- `install_context` goes on at `next`, or is left. -/
def State.goOn (m : Machine) (s : State) (p : Nat) (next : Option Install) : State :=
  if p = m.bspLapicId then { s with bsp := next.elim .load .install }
  else s.setAp p (next.elim .count .install)

def State.Enabling (m : Machine) (s : State) (p : Nat) : Prop :=
  if p = m.bspLapicId then s.bsp = .enable else s.ap p = .enable

theorem quiet_bsp {b : Bsp} (hbsp : t.bsp = b) (hap : t.ap = s.ap)
    (hcontexts : t.contexts = s.contexts)
    (hlast : t.lastContext = s.lastContext) (hown : t.own = s.own)
    (hinst : b.installed = s.bsp.installed)
    (hplace : ∀ place, b.place = some place → place = .allocate)
    (hcurrent : b.current = s.bsp.current)
    (hphase : b.phase < 7 → s.bsp.phase < 7) : Quiet m s t where
  contexts := hcontexts
  lastContext := hlast
  own := hown
  installed := installed_of_bsp hap (hbsp ▸ hinst)
  place p place hp := by
    by_cases he : p = m.bspLapicId
    · simp only [State.place, he, if_true, hbsp] at hp
      exact .inl (hplace place hp)
    · right
      simpa [State.place, he, hap] using hp
  current p := by simp only [State.current, hbsp, hcurrent, hap]
  phase := hbsp ▸ hphase

theorem quiet_ap {p : Nat} {a : Ap} (hne : p ≠ m.bspLapicId) (hbsp : t.bsp = s.bsp)
    (hap : t.ap = Function.update s.ap p a) (hcontexts : t.contexts = s.contexts)
    (hlast : t.lastContext = s.lastContext) (hown : t.own = s.own)
    (hinst : a.installed = (s.ap p).installed)
    (hplace : ∀ place, a.place = some place → place = .allocate)
    (hcurrent : a.current = (s.ap p).current) : Quiet m s t where
  contexts := hcontexts
  lastContext := hlast
  own := hown
  installed q := by
    rw [installed_of_ap hne hbsp hap]
    split
    · rename_i he
      rw [he, installed_ap hne, hinst]
    · rfl
  place q place hq := by
    by_cases he : q = p
    · simp only [State.place, he, hne, if_false, hap, Function.update_self] at hq
      exact .inl (hplace place hq)
    · right
      simpa [State.place, hbsp, hap, he] using hq
  current q := by
    by_cases he : q = p
    · simp only [State.current, he, hne, if_false, hap, Function.update_self, hcurrent]
    · simp [State.current, hbsp, hap, he]
  phase h := hbsp ▸ h

theorem bsp_cases (h : Control m s) (hrun : bspStep m s = some t) :
    (∃ place next s', s.place m m.bspLapicId = some place ∧
      installStep m.bspLapicId s place = some (next, s') ∧ t = s'.goOn m m.bspLapicId next) ∨
    (s.Enabling m m.bspLapicId ∧ ∃ e s', popOwn m.bspLapicId s = some (e, s') ∧
      t = s'.setCurrent m m.bspLapicId e) ∨ Quiet m s t := by
  cases hb : s.bsp with
  | install place =>
    simp only [bspStep, hb] at hrun
    obtain ⟨⟨next, s'⟩, hstep, rfl⟩ := Option.map_eq_some_iff.mp hrun
    exact .inl ⟨place, next, s', by simp [State.place, hb, Bsp.place], hstep, by simp [State.goOn]⟩
  | enable =>
    simp only [bspStep, hb] at hrun
    obtain ⟨⟨e, s'⟩, hpop, rfl⟩ := Option.map_eq_some_iff.mp hrun
    exact .inr (.inl ⟨by simp [State.Enabling, hb], e, s', hpop, by simp [State.setCurrent]⟩)
  | running e => simp [bspStep, hb] at hrun
  | scan i =>
    simp only [bspStep, hb] at hrun
    split at hrun
    · split at hrun
      · cases hrun
      · split at hrun
        all_goals
          simp only [Option.some.injEq] at hrun
          subst hrun
          exact .inr (.inr (quiet_bsp rfl rfl rfl rfl rfl (by simp [hb, Bsp.installed, Bsp.phase])
            (by simp [Bsp.place]) (by simp [hb, Bsp.current]) (by simp [hb, Bsp.phase])))
    · simp only [Option.some.injEq] at hrun
      subst hrun
      exact .inr (.inr (quiet_bsp rfl rfl rfl rfl rfl (by simp [hb, Bsp.installed, Bsp.phase])
        (by simp [Bsp.place]) (by simp [hb, Bsp.current]) (by simp [hb, Bsp.phase])))
  | wake i =>
    obtain ⟨cpu, hi, hcpu⟩ := h.index i (.inr (.inl hb))
    have hoff : s.ap cpu = .off := (h.woken i cpu hi hcpu).mpr (by simp [hb, Bsp.woken])
    simp only [bspStep, hb, hi, Option.some.injEq] at hrun
    subst hrun
    have hfirst : Quiet m s (s.setAp cpu .boot) := quiet_ap hcpu rfl rfl rfl rfl rfl
      (by simp [hoff, Ap.installed, Ap.phase]) (by simp [Ap.place]) (by simp [hoff, Ap.current])
    have hsecond : Quiet m (s.setAp cpu .boot) { s.setAp cpu .boot with bsp := .await i } :=
      quiet_bsp rfl rfl rfl rfl rfl (by simp [State.setAp, hb, Bsp.installed, Bsp.phase])
        (by simp [Bsp.place]) (by simp [State.setAp, hb, Bsp.current])
        (by simp [State.setAp, hb, Bsp.phase])
    exact .inr (.inr (hfirst.trans hsecond))
  | bootstrap | acquire | await | spin =>
    simp only [bspStep, hb] at hrun
    split at hrun
    all_goals
      simp only [reduceCtorEq, Option.some.injEq] at hrun
    all_goals
      subst hrun
      exact .inr (.inr (quiet_bsp rfl rfl rfl rfl rfl (by simp [hb, Bsp.installed, Bsp.phase])
        (by simp [Bsp.place]) (by simp [hb, Bsp.current]) (by simp [hb, Bsp.phase])))
  | online | load | release =>
    simp only [bspStep, hb, Option.some.injEq] at hrun
    subst hrun
    exact .inr (.inr (quiet_bsp rfl rfl rfl rfl rfl
      (by simp [hb, Bsp.installed, Bsp.phase, Install.phase]) (by simp [Bsp.place])
      (by simp [hb, Bsp.current]) (by simp [hb, Bsp.phase])))

theorem ap_cases {p : Nat} (h : Control m s) (hrun : apStep p s = some t) :
    (∃ place next s', s.place m p = some place ∧
      installStep p s place = some (next, s') ∧ t = s'.goOn m p next) ∨
    (s.Enabling m p ∧ ∃ e s', popOwn p s = some (e, s') ∧ t = s'.setCurrent m p e) ∨
    Quiet m s t := by
  have hoff : s.ap p ≠ .off := by
    intro hoff
    simp [apStep, hoff] at hrun
  have hne := h.ne_bsp hoff
  cases ha : s.ap p with
  | install place =>
    simp only [apStep, ha] at hrun
    obtain ⟨⟨next, s'⟩, hstep, rfl⟩ := Option.map_eq_some_iff.mp hrun
    exact .inl ⟨place, next, s', by simp [State.place, hne, ha, Ap.place], hstep,
      by simp [State.goOn, hne]⟩
  | enable =>
    simp only [apStep, ha] at hrun
    obtain ⟨⟨e, s'⟩, hpop, rfl⟩ := Option.map_eq_some_iff.mp hrun
    exact .inr (.inl ⟨by simp [State.Enabling, hne, ha], e, s', hpop,
      by simp [State.setCurrent, hne]⟩)
  | off => exact absurd ha hoff
  | running e => simp [apStep, ha] at hrun
  | wait | count =>
    simp only [apStep, ha] at hrun
    split at hrun
    · cases hrun
    · simp only [Option.some.injEq] at hrun
      subst hrun
      exact .inr (.inr (quiet_ap hne rfl rfl rfl rfl rfl
        (by simp [ha, Ap.installed, Ap.phase, Install.phase]) (by simp [Ap.place])
        (by simp [ha, Ap.current])))
  | boot | read | write | finish =>
    simp only [apStep, ha, Option.some.injEq] at hrun
    subst hrun
    exact .inr (.inr (quiet_ap hne rfl rfl rfl rfl rfl (by simp [ha, Ap.installed, Ap.phase])
      (by simp [Ap.place]) (by simp [ha, Ap.current])))

/-- A processor installs, enables its scheduler, or leaves the contexts alone. -/
theorem run_cases {p : Nat} (h : Control m s) (hrun : run m p s = some t) :
    (∃ place next s', s.place m p = some place ∧
      installStep p s place = some (next, s') ∧ t = s'.goOn m p next) ∨
    (s.Enabling m p ∧ ∃ e s', popOwn p s = some (e, s') ∧ t = s'.setCurrent m p e) ∨
    Quiet m s t := by
  unfold run at hrun
  split at hrun
  · rename_i he
    subst he
    exact bsp_cases h hrun
  · exact ap_cases h hrun

/-! ## Steps that keep the links -/

def SameLinks (contexts contexts' : List Context) : Prop :=
  ∀ i : Nat, contexts'[i]?.map (fun x => (x.cpuId, x.next, x.previous)) =
    contexts[i]?.map fun x => (x.cpuId, x.next, x.previous)

theorem SameLinks.owns {contexts contexts' : List Context} (h : SameLinks contexts contexts')
    (p i : Nat) : Owns contexts' p i ↔ Owns contexts p i := by
  have hi := h i
  unfold Owns
  cases h1 : contexts[i]? <;> cases h2 : contexts'[i]? <;> simp_all

theorem SameLinks.ids {contexts contexts' : List Context} (h : SameLinks contexts contexts') :
    contexts'.map Context.cpuId = contexts.map Context.cpuId := by
  refine List.ext_getElem? fun i => ?_
  have hi := congrArg (Option.map Prod.fst) (h i)
  simpa [Function.comp_def] using hi

theorem SameLinks.linked {contexts contexts' : List Context} (h : SameLinks contexts contexts')
    {start : Option Nat} {l : List Nat} (hl : Linked contexts start l) :
    Linked contexts' start l := by
  refine hl.congr fun c _ => ?_
  have hc := congrArg (Option.map Prod.snd) (h c)
  simpa [Function.comp_def] using hc

theorem sameLinks_queue {contexts : List Context} (c : Nat) (f : List Entry → List Entry) :
    SameLinks contexts (contexts.modify c fun x => { x with queue := f x.queue }) := by
  intro i
  rw [getElem?_modify_context]
  cases contexts[i]? with
  | none => rfl
  | some x => by_cases h : c = i <;> simp [h]

theorem installed_le (m : Machine) (s : State) (p : Nat) : s.installed m p ≤ 7 := by
  have hplace : ∀ place : Install, place.phase ≤ 6 := fun place => by
    cases place <;> simp [Install.phase]
  unfold State.installed Bsp.installed Ap.installed
  split
  · split
    · exact Nat.le_succ_of_le (hplace _)
    · split <;> omega
  · split
    · exact Nat.le_succ_of_le (hplace _)
    · split <;> omega

theorem Contexts.keep (h : Contexts m s) (hlinks : SameLinks s.contexts t.contexts)
    (hlast : t.lastContext = s.lastContext)
    (h1 : ∀ q, 1 ≤ t.installed m q ↔ 1 ≤ s.installed m q)
    (h2 : ∀ q, t.installed m q ≤ 2 → s.installed m q ≤ 2)
    (h3 : ∀ q, t.installed m q = 3 ↔ s.installed m q = 3)
    (h4 : ∀ q, 4 ≤ t.installed m q ↔ 4 ≤ s.installed m q)
    (hplace : ∀ q place c, t.place m q = some place → place.context = some c →
      Owns s.contexts q c)
    (hpublish : ∀ q c, t.place m q = some (.publish c) → s.place m q = some (.publish c))
    (hown : ∀ q c, t.own q = some c → Owns s.contexts q c)
    (hattached : ∀ q, 6 ≤ t.installed m q → ∃ c, t.own q = some c)
    (hqueues : ∀ (c : Nat) (x : Context), t.contexts[c]? = some x → QueueOk m t x)
    (hcurrent : ∀ q e, t.current m q = some e → ∀ (c : Nat) (x : Context),
      t.contexts[c]? = some x → x.cpuId = q → e ∈ x.queue) : Contexts m t where
  ids := by
    rw [hlinks.ids]
    exact h.ids
  allocated p := by
    rw [h1, ← h.allocated]
    exact exists_congr fun c => hlinks.owns p c
  place q place c hq hc := (hlinks.owns q c).mpr (hplace q place c hq hc)
  own q c hq := (hlinks.owns q c).mpr (hown q c hq)
  attached := hattached
  fresh c x hx hle := by
    have hc := hlinks c
    rw [hx] at hc
    obtain ⟨y, hy, he⟩ := Option.map_eq_some_iff.mp hc.symm
    simp only [Prod.mk.injEq] at he
    obtain ⟨hcpu, hnext, hprev⟩ := he
    have hfresh := h.fresh c y hy (hcpu ▸ h2 _ hle)
    exact ⟨hnext ▸ hfresh.1, hprev ▸ hfresh.2⟩
  chain := by
    obtain ⟨l, hl⟩ := h.chain
    refine ⟨l, ⟨fun c => ?_, fun hno => ?_, fun p c hp => ?_, fun c hc => ?_⟩⟩
    · rw [hl.mem]
      exact exists_congr fun p => and_congr (hlinks.owns p c).symm (h4 p).symm
    · rw [hlast]
      exact hlinks.linked (hl.linked fun p hp => hno p ((h3 p).mpr hp))
    · exact hlinks.linked (hl.pending p c (hpublish p c hp))
    · exact (hlinks.owns _ c).mpr (hl.first c hc)
  queues := hqueues
  current := hcurrent

theorem QueueOk.mono {x : Context} (h : QueueOk m s x)
    (hinst : t.installed m x.cpuId ≤ 6 ↔ s.installed m x.cpuId ≤ 6)
    (hcurrent : t.current m x.cpuId = s.current m x.cpuId)
    (hphase : t.bsp.phase < 7 → s.bsp.phase < 7) : QueueOk m t x := by
  have hs := installed_le m s x.cpuId
  have h7 : t.installed m x.cpuId = 7 → s.installed m x.cpuId = 7 := by omega
  exact ⟨fun hle => h.before (hinst.mp hle), fun he => h.idle (h7 he),
    fun he hc => h.head (h7 he) (hcurrent ▸ hc), h.own, fun hne hlt => h.quiet hne (hphase hlt)⟩

theorem QueueOk.of_same {x y : Context} (h : QueueOk m s y) (hcpu : x.cpuId = y.cpuId)
    (hqueue : x.queue = y.queue) : QueueOk m s x := by
  obtain ⟨h1, h2, h3, h4, h5⟩ := h
  refine ⟨?_, ?_, ?_, ?_, ?_⟩ <;> rw [hcpu, hqueue]
  · exact h1
  · exact h2
  · exact h3
  · exact h4
  · exact h5

theorem Contexts.quiet (h : Contexts m s) (hq : Quiet m s t) : Contexts m t := by
  refine h.keep (fun i => by rw [hq.contexts]) hq.lastContext (fun q => by rw [hq.installed])
    (fun q => by rw [hq.installed]; exact id) (fun q => by rw [hq.installed])
    (fun q => by rw [hq.installed]) ?_ ?_ ?_ ?_ ?_ ?_
  · intro q place c hp hc
    rcases hq.place q place hp with rfl | hp
    · cases hc
    · exact h.place q place c hp hc
  · intro q c hp
    rcases hq.place q _ hp with he | hp
    · cases he
    · exact hp
  · rw [hq.own]
    exact h.own
  · intro q h6
    rw [hq.installed] at h6
    rw [hq.own]
    exact h.attached q h6
  · intro c x hx
    rw [hq.contexts] at hx
    exact (h.queues c x hx).mono (by rw [hq.installed]) (hq.current _) hq.phase
  · intro q e he
    rw [hq.current] at he
    rw [hq.contexts]
    exact h.current q e he

/-! ## Installing a context -/

/-- A step of `install_context` by processor `p`, from `place` to `next`. -/
structure Installs (m : Machine) (s s' t : State) (p : Nat) (place : Install)
    (next : Option Install) : Prop where
  at_place : s.place m p = some place
  contexts : t.contexts = s'.contexts
  lastContext : t.lastContext = s'.lastContext
  own : t.own = s'.own
  installed_self : s.installed m p = place.phase
  installed_next : t.installed m p = place.phase + 1
  installed_ne : ∀ q, q ≠ p → t.installed m q = s.installed m q
  place_self : t.place m p = next
  place_ne : ∀ q, q ≠ p → t.place m q = s.place m q
  current : ∀ q, t.current m q = s.current m q
  phase : t.bsp.phase < 7 → s.bsp.phase < 7

theorem installs_of_step {s' : State} {p : Nat} {place : Install} {next : Option Install}
    (hplace : s.place m p = some place) (hstep : installStep p s place = some (next, s')) :
    Installs m s s' (s'.goOn m p next) p place next := by
  obtain ⟨hsame, -, hnext⟩ := installStep_control hstep
  have hbsp := hsame.bsp
  have hap := hsame.ap
  by_cases hp : p = m.bspLapicId
  · subst hp
    have hb : s.bsp = .install place := by
      simp only [State.place, if_true] at hplace
      cases hb : s.bsp <;> simp_all [Bsp.place]
    have hgo : s'.goOn m m.bspLapicId next = { s' with bsp := next.elim .load .install } :=
      if_pos rfl
    rw [hgo]
    refine ⟨hplace, rfl, rfl, rfl, ?_, ?_, ?_, ?_, ?_, ?_, ?_⟩
    · simp [hb, Bsp.installed]
    · cases next <;> simp_all [Bsp.installed, Bsp.phase]
    · intro q hq
      simp [installed_ap hq, hap]
    · cases next <;> simp [State.place, Bsp.place]
    · intro q hq
      simp [State.place, hq, hap]
    · intro q
      cases next <;> simp [State.current, hb, hap, Bsp.current]
    · intro _
      simp [hb, Bsp.phase]
  · have ha : s.ap p = .install place := by
      simp only [State.place, hp, if_false] at hplace
      cases ha : s.ap p <;> simp_all [Ap.place]
    have hgo : s'.goOn m p next = s'.setAp p (next.elim .count .install) := if_neg hp
    rw [hgo]
    refine ⟨hplace, rfl, rfl, rfl, ?_, ?_, ?_, ?_, ?_, ?_, ?_⟩
    · simp [installed_ap hp, ha, Ap.installed]
    · rw [installed_ap hp]
      cases next <;> simp_all [State.setAp, Ap.installed, Ap.phase]
    · intro q hq
      simp [State.installed, State.setAp, hq, hbsp, hap]
    · cases next <;> simp [State.place, State.setAp, hp, Ap.place]
    · intro q hq
      simp [State.place, State.setAp, hq, hbsp, hap]
    · intro q
      by_cases hq : q = p
      · subst hq
        cases next <;> simp [State.current, State.setAp, hp, ha, Ap.current]
      · simp [State.current, State.setAp, hq, hbsp, hap]
    · intro hlt
      simpa [State.setAp, hbsp] using hlt

section
variable {s' : State} {p : Nat} {place : Install} {next : Option Install}

/-- The queues that the step does not touch. -/
theorem Installs.queueOk (hi : Installs m s s' t p place next) {x : Context} (h : QueueOk m s x)
    (hx : x.cpuId = p → place.phase + 1 ≤ 6) : QueueOk m t x := by
  refine h.mono ?_ (hi.current _) hi.phase
  have h1 := hi.installed_self
  have h2 := hi.installed_next
  by_cases hp : x.cpuId = p
  · have := hx hp
    rw [hp]
    omega
  · rw [hi.installed_ne _ hp]

/-- The places between the locks, where the links stay as they are. -/
theorem Contexts.install_keep (h : Contexts m s) (hi : Installs m s s' t p place next)
    (hcontexts : s'.contexts = s.contexts) (hlast : s'.lastContext = s.lastContext)
    (hown : ∀ q c, t.own q = some c → Owns s.contexts q c)
    (hattached : ∀ q, 6 ≤ t.installed m q → ∃ c, t.own q = some c)
    (hphase : place.phase = 1 ∨ place.phase = 4 ∨ place.phase = 5)
    (hnext : ∃ place', next = some place' ∧ place'.context = place.context ∧
      ∀ c, place' ≠ .publish c) : Contexts m t := by
  have hself := hi.installed_self
  have hafter := hi.installed_next
  obtain ⟨place', hplace', hcontext, hpublish⟩ := hnext
  have hsplit : ∀ P : Nat → Prop, (P (place.phase + 1) ↔ P place.phase) →
      ∀ q, P (t.installed m q) ↔ P (s.installed m q) := fun P hP q => by
    by_cases hq : q = p
    · rw [hq, hself, hafter, hP]
    · rw [hi.installed_ne q hq]
  refine h.keep (fun i => by rw [hi.contexts, hcontexts]) (hi.lastContext.trans hlast)
    (hsplit (1 ≤ ·) (by omega)) (fun q => ?_) (hsplit (· = 3) (by omega))
    (hsplit (4 ≤ ·) (by omega)) ?_ ?_ hown hattached ?_ ?_
  · by_cases hq : q = p
    · rw [hq]
      omega
    · rw [hi.installed_ne q hq]
      exact id
  · intro q place'' c hq hc
    by_cases he : q = p
    · rw [he, hi.place_self, hplace'] at hq
      cases hq
      rw [he]
      exact h.place p place c hi.at_place (hcontext ▸ hc)
    · rw [hi.place_ne q he] at hq
      exact h.place q place'' c hq hc
  · intro q c hq
    by_cases he : q = p
    · rw [he, hi.place_self, hplace'] at hq
      exact absurd (Option.some.inj hq) (hpublish c)
    · rwa [hi.place_ne q he] at hq
  · intro c x hx
    rw [hi.contexts, hcontexts] at hx
    exact hi.queueOk (h.queues c x hx) fun _ => by omega
  · intro q e he
    rw [hi.current] at he
    rw [hi.contexts, hcontexts]
    exact h.current q e he

/-- The fields of `Contexts` that speak of numbers only, when the contexts keep theirs. -/
theorem Installs.place_owns (hi : Installs m s s' t p place next) (h : Contexts m s)
    {contexts : List Context} (howns : ∀ q c, Owns s.contexts q c → Owns contexts q c)
    (hnext : ∀ place' c, next = some place' → place'.context = some c → Owns contexts p c)
    (q : Nat) (place' : Install) (c : Nat) (hq : t.place m q = some place')
    (hc : place'.context = some c) : Owns contexts q c := by
  by_cases he : q = p
  · rw [he, hi.place_self] at hq
    exact he ▸ hnext place' c hq hc
  · rw [hi.place_ne q he] at hq
    exact howns q c (h.place q place' c hq hc)

theorem Installs.current_ne (hi : Installs m s s' t p place next) {q : Nat} {e : Entry}
    (hq : t.current m q = some e) : q ≠ p := by
  rintro rfl
  have hp := hi.at_place
  rw [hi.current] at hq
  simp only [State.place, State.current] at hp hq
  split at hp
  · rename_i he
    rw [if_pos he] at hq
    cases hb : s.bsp <;> simp_all [Bsp.place, Bsp.current]
  · rename_i he
    rw [if_neg he] at hq
    cases ha : s.ap q <;> simp_all [Ap.place, Ap.current]

theorem owns_snoc {contexts : List Context} {x : Context} {q c : Nat} :
    Owns (contexts ++ [x]) q c ↔ Owns contexts q c ∨ (c = contexts.length ∧ q = x.cpuId) := by
  unfold Owns
  rcases Nat.lt_trichotomy c contexts.length with hlt | rfl | hgt
  · rw [List.getElem?_append_left hlt]
    refine ⟨.inl, ?_⟩
    rintro (h | ⟨rfl, -⟩)
    · exact h
    · omega
  · simp [eq_comm]
  · rw [List.getElem?_append_right (by omega), List.getElem?_eq_none (by simp; omega),
      List.getElem?_eq_none (by omega)]
    simp
    omega

theorem mem_ids {contexts : List Context} {q : Nat} :
    q ∈ contexts.map Context.cpuId ↔ ∃ c, Owns contexts q c := by
  simp only [Owns, List.mem_map]
  constructor
  · rintro ⟨x, hx, hq⟩
    obtain ⟨c, hc⟩ := List.mem_iff_getElem?.mp hx
    exact ⟨c, x, hc, hq⟩
  · rintro ⟨c, x, hc, hq⟩
    exact ⟨x, List.mem_of_getElem? hc, hq⟩

theorem Contexts.install_allocate (h : Contexts m s) (hi : Installs m s s' t p .allocate next)
    (hstep : installStep p s .allocate = some (next, s')) : Contexts m t := by
  simp only [installStep, Option.some.injEq, Prod.mk.injEq] at hstep
  obtain ⟨rfl, rfl⟩ := hstep
  have h0 : s.installed m p = 0 := hi.installed_self
  have h1 : t.installed m p = 1 := hi.installed_next
  have hcontexts : t.contexts = s.contexts ++ [{ cpuId := p }] := hi.contexts
  have hnew : ∀ c, ¬Owns s.contexts p c := fun c hc => by
    have := (h.allocated p).mp ⟨c, hc⟩
    omega
  have hmono : ∀ q c, Owns s.contexts q c → Owns t.contexts q c := fun q c hq => by
    rw [hcontexts]
    exact owns_snoc.mpr (.inl hq)
  have hold : ∀ (c : Nat) (x : Context), t.contexts[c]? = some x →
      (s.contexts[c]? = some x ∧ x.cpuId ≠ p) ∨ x = { cpuId := p } := fun c x hx => by
    rw [hcontexts] at hx
    rcases Nat.lt_or_ge c s.contexts.length with hlt | hge
    · rw [List.getElem?_append_left hlt] at hx
      exact .inl ⟨hx, fun he => hnew c ⟨x, hx, he⟩⟩
    · rw [List.getElem?_append_right hge] at hx
      obtain ⟨hlt, he⟩ := List.getElem?_eq_some_iff.mp hx
      exact .inr (he ▸ List.getElem_singleton hlt)
  refine ⟨?_, ?_, ?_, ?_, ?_, ?_, ?_, ?_, ?_⟩
  · rw [hcontexts, List.map_append]
    refine List.nodup_append.mpr ⟨h.ids, by simp, ?_⟩
    rintro q hq r hr rfl
    obtain ⟨c, hc⟩ := mem_ids.mp hq
    simp only [List.map_cons, List.map_nil, List.mem_singleton] at hr
    exact hnew c (hr ▸ hc)
  · intro q
    by_cases hq : q = p
    · subst hq
      rw [h1]
      refine ⟨fun _ => Nat.le_refl _, fun _ => ⟨s.contexts.length, ?_⟩⟩
      rw [hcontexts]
      exact owns_snoc.mpr (.inr ⟨rfl, rfl⟩)
    · rw [hi.installed_ne q hq, ← h.allocated q, hcontexts]
      exact exists_congr fun c => by simp [owns_snoc, hq]
  · refine hi.place_owns h hmono ?_
    rintro place' c he hc
    cases he
    cases hc
    rw [hcontexts]
    exact owns_snoc.mpr (.inr ⟨rfl, rfl⟩)
  · intro q c hq
    rw [hi.own] at hq
    exact hmono q c (h.own q c hq)
  · intro q h6
    by_cases hq : q = p
    · rw [hq, h1] at h6
      omega
    · rw [hi.installed_ne q hq] at h6
      rw [hi.own]
      exact h.attached q h6
  · intro c x hx hle
    rcases hold c x hx with ⟨hx, hne⟩ | rfl
    · rw [hi.installed_ne _ hne] at hle
      exact h.fresh c x hx hle
    · exact ⟨rfl, rfl⟩
  · obtain ⟨l, hl⟩ := h.chain
    have hlinks : ∀ {start l'}, (∀ c ∈ l', ∃ q, Owns s.contexts q c) →
        Linked s.contexts start l' → Linked t.contexts start l' := fun hmem hl' =>
      hl'.congr fun c hc => by
        obtain ⟨q, hq⟩ := hmem c hc
        rw [hcontexts, List.getElem?_append_left hq.lt]
    have hmem : ∀ c ∈ l, ∃ q, Owns s.contexts q c := fun c hc => by
      obtain ⟨q, hq, -⟩ := (hl.mem c).mp hc
      exact ⟨q, hq⟩
    refine ⟨l, ⟨fun c => ?_, fun hno => ?_, fun q c hq => ?_,
      fun c hc => hmono _ _ (hl.first c hc)⟩⟩
    · rw [hl.mem]
      refine exists_congr fun q => ?_
      by_cases hq : q = p
      · subst hq
        simp [h0, h1]
      · rw [hi.installed_ne q hq, hcontexts, owns_snoc]
        simp [hq]
    · rw [hi.lastContext]
      refine hlinks hmem (hl.linked fun q => ?_)
      by_cases hq : q = p
      · rw [hq, h0]
        omega
      · rw [← hi.installed_ne q hq]
        exact hno q
    · have hne : q ≠ p := fun he => by
        rw [he, hi.place_self] at hq
        cases hq
      rw [hi.place_ne q hne] at hq
      refine hlinks (fun c' hc' => ?_) (hl.pending q c hq)
      rcases List.mem_cons.mp hc' with rfl | hc'
      · exact ⟨q, h.place q _ _ hq rfl⟩
      · exact hmem c' hc'
  · intro c x hx
    rcases hold c x hx with ⟨hx, hne⟩ | rfl
    · exact hi.queueOk (h.queues c x hx) fun he => absurd he hne
    · exact ⟨fun _ => rfl, fun he => by simp only [h1] at he; omega,
        fun he => by simp only [h1] at he; omega, by simp, by simp⟩
  · intro q e hq c x hx he
    have hne := hi.current_ne hq
    rw [hi.current] at hq
    rcases hold c x hx with ⟨hx, -⟩ | rfl
    · exact h.current q e hq c x hx he
    · exact absurd he.symm hne

/-- Whoever is at 2, 3 or 4 has the lock of the chain. -/
theorem Installs.alone (hi : Installs m s s' t p place next) (h : Control m s)
    (hlo : 2 ≤ place.phase) (hhi : place.phase ≤ 4) (q : Nat) (hq : q ≠ p) :
    s.installed m q ≠ 3 := by
  intro h3
  have hself := hi.installed_self
  refine hq (h.lastContext.unique q p ?_ ?_)
  · exact ⟨by omega, by omega⟩
  · exact ⟨by omega, by omega⟩

theorem installed_of_place {q : Nat} {place : Install} (h : s.place m q = some place) :
    s.installed m q = place.phase := by
  unfold State.place at h
  split at h
  · rename_i he
    cases hb : s.bsp <;> simp_all [Bsp.place, Bsp.installed]
  · rename_i he
    rw [installed_ap he]
    cases ha : s.ap q <;> simp_all [Ap.place, Ap.installed]

/-- The links that `install_context` writes. -/
def setLinks (contexts : List Context) (last : Option Nat) (c : Nat) : List Context :=
  match last with
  | none => contexts
  | some last => (contexts.modify last fun x => { x with next := some c }).modify c fun x =>
      { x with previous := some last }

theorem installStep_link (cpu c : Nat) (s : State) : installStep cpu s (.link c) =
    some (some (.publish c), { s with contexts := setLinks s.contexts s.lastContext c }) := by
  have hmatch : ∀ last : Option Nat, (match last with
      | none => s
      | some last => (s.modifyContext last fun x => { x with next := some c }).modifyContext c
          fun x => { x with previous := some last }) =
      { s with contexts := setLinks s.contexts last c } := fun last => by cases last <;> rfl
  exact congrArg _ (congrArg _ (hmatch s.lastContext))

theorem setLinks_kept (contexts : List Context) (last : Option Nat) (c i : Nat) :
    (setLinks contexts last c)[i]?.map (fun x => (x.cpuId, x.queue)) =
      contexts[i]?.map fun x => (x.cpuId, x.queue) := by
  cases last with
  | none => rfl
  | some last =>
    simp only [setLinks, getElem?_modify_context]
    cases contexts[i]? with
    | none => rfl
    | some x => by_cases h1 : last = i <;> by_cases h2 : c = i <;> simp [h1, h2]

theorem setLinks_ne {contexts : List Context} {last c i : Nat} (h1 : i ≠ last) (h2 : i ≠ c) :
    (setLinks contexts (some last) c)[i]? = contexts[i]? := by
  simp only [setLinks, getElem?_modify_context]
  cases contexts[i]? with
  | none => rfl
  | some x => simp [h1.symm, h2.symm]

/-- A context without links of its own goes in front of the chain. -/
theorem Linked.push {contexts : List Context} {last : Option Nat} {l : List Nat} {c : Nat}
    {x : Context} (h : Linked contexts last l) (hx : contexts[c]? = some x) (hnext : x.next = none)
    (hprevious : x.previous = none) (hc : c ∉ l) (hl : ∀ i ∈ l, i < contexts.length) :
    Linked (setLinks contexts last c) (some c) (c :: l) := by
  have hnot : some c ∉ l.map some := by simpa using hc
  cases last with
  | none =>
    refine DList.push h (by simp) hnot ?_ (fun _ _ => rfl) fun y hy => ?_
    · simp [previousOf, nextOf, setLinks, hx, hnext, hprevious]
    · have hne := DList.ne_null h hy
      simp [setLinks, hne]
  | some last =>
    have hlast : last ∈ l := by
      rcases h.seg.start with he | hmem
      · cases he
      · simpa using hmem
    have hne : last ≠ c := fun he => hc (he ▸ hlast)
    refine DList.push h (by simp) hnot ?_ ?_ ?_
    · simp [previousOf, nextOf, setLinks, getElem?_modify_context, hx, hnext, hne]
    · intro y hy
      obtain ⟨i, hi, rfl⟩ := List.mem_map.mp hy
      have hci : c ≠ i := fun he => hc (he ▸ hi)
      simp only [previousOf, setLinks, Option.bind_some, getElem?_modify_context]
      cases contexts[i]? with
      | none => rfl
      | some y => by_cases hl : last = i <;> simp [hci, hl]
    · intro y hy
      obtain ⟨i, hi, rfl⟩ := List.mem_map.mp hy
      have hci : c ≠ i := fun he => hc (he ▸ hi)
      by_cases he : i = last
      · subst he
        have hget := List.getElem?_eq_getElem (hl i hi)
        simp [nextOf, setLinks, getElem?_modify_context, hget, hci]
      · simp [nextOf, setLinks_ne he hci.symm, he]

theorem Contexts.install_link {c : Nat} (h : Contexts m s) (hc : Control m s)
    (hi : Installs m s s' t p (.link c) next)
    (hstep : installStep p s (.link c) = some (next, s')) : Contexts m t := by
  rw [installStep_link, Option.some.injEq, Prod.mk.injEq] at hstep
  obtain ⟨rfl, rfl⟩ := hstep
  have h2 : s.installed m p = 2 := hi.installed_self
  have h3 : t.installed m p = 3 := hi.installed_next
  have hcontexts : t.contexts = setLinks s.contexts s.lastContext c := hi.contexts
  have halone := hi.alone hc (Nat.le_refl 2) (by simp [Install.phase])
  obtain ⟨l, hl⟩ := h.chain
  have hlt : ∀ i ∈ l, i < s.contexts.length := fun i hmem => by
    obtain ⟨q, hq, -⟩ := (hl.mem i).mp hmem
    exact hq.lt
  have hown := h.place p _ c hi.at_place rfl
  have hnot : c ∉ l := fun hmem => by
    obtain ⟨q, hq, h4⟩ := (hl.mem c).mp hmem
    rw [hown.cpu hq] at h2
    omega
  have hlinked : Linked s.contexts s.lastContext l := hl.linked fun q => by
    by_cases hq : q = p
    · rw [hq]
      omega
    · exact halone q hq
  have hkept := setLinks_kept s.contexts s.lastContext c
  have howns : ∀ q i, Owns t.contexts q i ↔ Owns s.contexts q i := fun q i => by
    have hki := hkept i
    unfold Owns
    rw [hcontexts]
    cases h1 : s.contexts[i]? <;> cases h2 : (setLinks s.contexts s.lastContext c)[i]? <;> simp_all
  have hids : t.contexts.map Context.cpuId = s.contexts.map Context.cpuId := by
    refine List.ext_getElem? fun i => ?_
    have hki := congrArg (Option.map Prod.fst) (hkept i)
    rw [hcontexts]
    simpa [Function.comp_def] using hki
  have hold : ∀ (i : Nat) (x : Context), t.contexts[i]? = some x →
      ∃ y, s.contexts[i]? = some y ∧ x.cpuId = y.cpuId ∧ x.queue = y.queue := fun i x hx => by
    have hki := hkept i
    rw [← hcontexts, hx] at hki
    obtain ⟨y, hy, he⟩ := Option.map_eq_some_iff.mp hki.symm
    simp only [Prod.mk.injEq] at he
    exact ⟨y, hy, he.1.symm, he.2.symm⟩
  refine ⟨hids ▸ h.ids, ?_, ?_, ?_, ?_, ?_, ?_, ?_, ?_⟩
  · intro q
    rw [exists_congr (howns q), h.allocated]
    by_cases hq : q = p
    · rw [hq]
      omega
    · rw [hi.installed_ne q hq]
  · refine hi.place_owns h (fun q i => (howns q i).mpr) ?_
    rintro place' i he hi'
    cases he
    cases hi'
    exact (howns p c).mpr hown
  · intro q i hq
    rw [hi.own] at hq
    exact (howns q i).mpr (h.own q i hq)
  · intro q h6
    by_cases hq : q = p
    · rw [hq] at h6
      omega
    · rw [hi.installed_ne q hq] at h6
      rw [hi.own]
      exact h.attached q h6
  · -- neither of the two contexts is one that is not yet in the chain
    intro i x hx hle
    obtain ⟨y, hy, hcpu, -⟩ := hold i x hx
    have hne : x.cpuId ≠ p := fun he => by
      rw [he] at hle
      omega
    rw [hi.installed_ne _ hne, hcpu] at hle
    have hic : i ≠ c := fun he => hne (hcpu.trans (Owns.cpu ⟨y, hy, rfl⟩ (he ▸ hown)))
    have hsame : t.contexts[i]? = s.contexts[i]? := by
      rw [hcontexts]
      cases hlast : s.lastContext with
      | none => rfl
      | some last =>
        refine setLinks_ne (fun he => ?_) hic
        have hmem : last ∈ l := by
          rcases hlinked.seg.start with he | hmem
          · rw [hlast] at he
            cases he
          · simpa [hlast] using hmem
        obtain ⟨q, hq, h4⟩ := (hl.mem last).mp hmem
        rw [Owns.cpu ⟨y, he ▸ hy, rfl⟩ hq] at hle
        omega
    rw [hsame, hy] at hx
    cases hx
    exact h.fresh i x hy hle
  · refine ⟨l, ⟨fun i => ?_, fun hno => absurd h3 (hno p), fun q i hq => ?_,
      fun i hlast => (howns _ i).mpr (hl.first i hlast)⟩⟩
    · rw [hl.mem]
      refine exists_congr fun q => and_congr (howns q i).symm ?_
      by_cases hq : q = p
      · rw [hq]
        omega
      · rw [hi.installed_ne q hq]
    · by_cases he : q = p
      · rw [he, hi.place_self] at hq
        cases hq
        obtain ⟨x, hx, hcpu⟩ := hown
        have hfresh := h.fresh c x hx (by rw [hcpu]; omega)
        rw [hcontexts]
        exact hlinked.push hx hfresh.1 hfresh.2 hnot hlt
      · rw [hi.place_ne q he] at hq
        exact absurd (installed_of_place hq) (halone q he)
  · intro i x hx
    obtain ⟨y, hy, hcpu, hqueue⟩ := hold i x hx
    have hok := hi.queueOk (h.queues i y hy) fun _ => by simp [Install.phase]
    exact hok.of_same hcpu hqueue
  · intro q e hq i x hx he
    rw [hi.current] at hq
    obtain ⟨y, hy, hcpu, hqueue⟩ := hold i x hx
    rw [hqueue]
    exact h.current q e hq i y hy (hcpu ▸ he)

/-- The first context in the chain is that of the bootstrap processor: another one
installs its own when the bootstrap processor is done with that. -/
theorem Contexts.first_is_bsp {l : List Nat} (h : Contexts m s) (hc : Control m s)
    (hl : Chain m s l) (hp : 1 ≤ s.installed m p) (hnil : l = []) : p = m.bspLapicId := by
  by_contra hne
  have h3 : 3 ≤ (s.ap p).phase := by
    rw [installed_ap hne] at hp
    cases ha : s.ap p <;> simp_all [Ap.installed, Ap.phase]
  have h6 := hc.waits p h3
  have h7 : s.installed m m.bspLapicId = 7 := by
    rw [installed_bsp]
    cases hb : s.bsp <;> simp_all [Bsp.installed, Bsp.phase]
  obtain ⟨c, hown⟩ := (h.allocated m.bspLapicId).mpr (by omega)
  have hmem := (hl.mem c).mpr ⟨_, hown, by omega⟩
  rw [hnil] at hmem
  cases hmem

theorem Contexts.install_publish {c : Nat} (h : Contexts m s) (hc : Control m s)
    (hi : Installs m s s' t p (.publish c) next)
    (hstep : installStep p s (.publish c) = some (next, s')) : Contexts m t := by
  simp only [installStep, Option.some.injEq, Prod.mk.injEq] at hstep
  obtain ⟨rfl, rfl⟩ := hstep
  have h3 : s.installed m p = 3 := hi.installed_self
  have h4 : t.installed m p = 4 := hi.installed_next
  have hcontexts : t.contexts = s.contexts := hi.contexts
  have halone := hi.alone hc (by simp [Install.phase]) (by simp [Install.phase])
  obtain ⟨l, hl⟩ := h.chain
  have hown := h.place p _ c hi.at_place rfl
  refine ⟨hcontexts ▸ h.ids, ?_, ?_, ?_, ?_, ?_, ?_, ?_, ?_⟩
  · intro q
    rw [hcontexts, h.allocated]
    by_cases hq : q = p
    · rw [hq]
      omega
    · rw [hi.installed_ne q hq]
  · rw [hcontexts]
    refine hi.place_owns h (fun q i => id) ?_
    rintro place' i he hi'
    cases he
    cases hi'
    exact hown
  · intro q i hq
    rw [hi.own] at hq
    rw [hcontexts]
    exact h.own q i hq
  · intro q h6
    by_cases hq : q = p
    · rw [hq] at h6
      omega
    · rw [hi.installed_ne q hq] at h6
      rw [hi.own]
      exact h.attached q h6
  · intro i x hx hle
    rw [hcontexts] at hx
    have hne : x.cpuId ≠ p := fun he => by
      rw [he] at hle
      omega
    rw [hi.installed_ne _ hne] at hle
    exact h.fresh i x hx hle
  · refine ⟨c :: l, ⟨fun i => ?_, fun _ => ?_, fun q i hq => ?_, fun i hlast => ?_⟩⟩
    · rw [hcontexts, List.mem_cons, hl.mem]
      constructor
      · rintro (rfl | ⟨q, hq, hle⟩)
        · exact ⟨p, hown, by omega⟩
        · have hne : q ≠ p := fun he => by
            rw [he] at hle
            omega
          exact ⟨q, hq, by rwa [hi.installed_ne q hne]⟩
      · rintro ⟨q, hq, hle⟩
        by_cases he : q = p
        · exact .inl (Owns.unique h.ids (he ▸ hq) hown)
        · rw [hi.installed_ne q he] at hle
          exact .inr ⟨q, hq, hle⟩
    · rw [hi.lastContext, hcontexts]
      exact hl.pending p c hi.at_place
    · by_cases he : q = p
      · rw [he, hi.place_self] at hq
        cases hq
      · rw [hi.place_ne q he] at hq
        exact absurd (installed_of_place hq) (halone q he)
    · rw [hcontexts]
      cases hnil : l with
      | nil =>
        rw [hnil] at hlast
        cases hlast
        have hp := h.first_is_bsp hc hl (p := p) (by omega) hnil
        exact hp ▸ hown
      | cons d l' =>
        rw [hnil, List.getLast?_cons_cons, ← hnil] at hlast
        exact hl.first i hlast
  · intro i x hx
    rw [hcontexts] at hx
    exact hi.queueOk (h.queues i x hx) fun _ => by simp [Install.phase]
  · intro q e hq
    rw [hi.current] at hq
    rw [hcontexts]
    exact h.current q e hq

theorem Contexts.install_lock {c : Nat} (h : Contexts m s)
    (hi : Installs m s s' t p (.lock c) next)
    (hstep : installStep p s (.lock c) = some (next, s')) : Contexts m t := by
  simp only [installStep] at hstep
  split at hstep
  · cases hstep
  simp only [Option.some.injEq, Prod.mk.injEq] at hstep
  obtain ⟨rfl, rfl⟩ := hstep
  have h2 : t.installed m p = 2 := hi.installed_next
  refine h.install_keep hi rfl rfl (hi.own ▸ h.own) ?_ (.inl rfl) ⟨.link c, rfl, rfl, by simp⟩
  intro q h6
  by_cases hq : q = p
  · rw [hq] at h6
    omega
  · rw [hi.installed_ne q hq] at h6
    rw [hi.own]
    exact h.attached q h6

theorem Contexts.install_unlock {c : Nat} (h : Contexts m s)
    (hi : Installs m s s' t p (.unlock c) next)
    (hstep : installStep p s (.unlock c) = some (next, s')) : Contexts m t := by
  simp only [installStep, Option.some.injEq, Prod.mk.injEq] at hstep
  obtain ⟨rfl, rfl⟩ := hstep
  have h5 : t.installed m p = 5 := hi.installed_next
  refine h.install_keep hi rfl rfl (hi.own ▸ h.own) ?_ (.inr (.inl rfl))
    ⟨.attach c, rfl, rfl, by simp⟩
  intro q h6
  by_cases hq : q = p
  · rw [hq] at h6
    omega
  · rw [hi.installed_ne q hq] at h6
    rw [hi.own]
    exact h.attached q h6

theorem Contexts.install_attach {c : Nat} (h : Contexts m s)
    (hi : Installs m s s' t p (.attach c) next)
    (hstep : installStep p s (.attach c) = some (next, s')) : Contexts m t := by
  simp only [installStep, Option.some.injEq, Prod.mk.injEq] at hstep
  obtain ⟨rfl, rfl⟩ := hstep
  have hown : t.own = Function.update s.own p (some c) := hi.own
  refine h.install_keep hi rfl rfl ?_ ?_ (.inr (.inr rfl)) ⟨.idle c, rfl, rfl, by simp⟩
  · intro q i hq
    rw [hown] at hq
    by_cases he : q = p
    · rw [he, Function.update_self] at hq
      exact he ▸ h.place p _ i hi.at_place hq
    · rw [Function.update_of_ne he] at hq
      exact h.own q i hq
  · intro q h6
    rw [hown]
    by_cases hq : q = p
    · exact ⟨c, by simp [hq]⟩
    · rw [hi.installed_ne q hq] at h6
      rw [Function.update_of_ne hq]
      exact h.attached q h6

/-- The first task of a queue is the idle task of its processor. -/
theorem Contexts.install_idle {c : Nat} (h : Contexts m s)
    (hi : Installs m s s' t p (.idle c) next)
    (hstep : installStep p s (.idle c) = some (next, s')) : Contexts m t := by
  simp only [installStep, Option.some.injEq, Prod.mk.injEq] at hstep
  obtain ⟨rfl, rfl⟩ := hstep
  have h6 : s.installed m p = 6 := hi.installed_self
  have h7 : t.installed m p = 7 := hi.installed_next
  have hown := h.place p _ c hi.at_place rfl
  have hcontexts : t.contexts = s.contexts.modify c fun x =>
      { x with queue := x.queue ++ [.idle p] } := hi.contexts
  have hsplit : ∀ P : Nat → Prop, (P 7 ↔ P 6) → ∀ q, P (t.installed m q) ↔ P (s.installed m q) :=
    fun P hP q => by
      by_cases hq : q = p
      · rw [hq, h6, h7, hP]
      · rw [hi.installed_ne q hq]
  have hnone : ∀ q place, t.place m q = some place → q ≠ p ∧ s.place m q = some place := by
    intro q place hq
    have he : q ≠ p := by
      rintro rfl
      rw [hi.place_self] at hq
      cases hq
    exact ⟨he, hi.place_ne q he ▸ hq⟩
  refine h.keep (hcontexts ▸ sameLinks_queue c fun q => q ++ [.idle p]) hi.lastContext
    (hsplit (1 ≤ ·) (by omega)) (fun q => (hsplit (· ≤ 2) (by omega) q).mp)
    (hsplit (· = 3) (by omega)) (hsplit (4 ≤ ·) (by omega))
    (fun q place i hq => h.place q place i (hnone q place hq).2)
    (fun q i hq => (hnone q _ hq).2) (hi.own ▸ h.own) ?_ ?_ ?_
  · intro q hle
    rw [hi.own]
    refine h.attached q ?_
    by_cases hq : q = p
    · rw [hq]
      omega
    · rwa [hi.installed_ne q hq] at hle
  · intro i x hx
    rw [hcontexts, getElem?_modify_context] at hx
    obtain ⟨y, hy, rfl⟩ := Option.map_eq_some_iff.mp hx
    have hok := h.queues i y hy
    by_cases he : c = i
    · subst he
      have hcpu : y.cpuId = p := Owns.cpu ⟨y, hy, rfl⟩ hown
      have hnil : y.queue = [] := hok.before (by rw [hcpu]; omega)
      refine ⟨fun hle => ?_, fun _ => ?_, fun _ _ => ⟨[], ?_⟩, fun q hq => ?_, fun _ _ e he => ?_⟩
      · simp only [if_true, hcpu] at hle
        omega
      · simp [hcpu]
      · simp [hnil, hcpu]
      · simpa [hnil, hcpu] using hq
      · simpa [hnil, hcpu] using he
    · rw [if_neg he]
      exact hi.queueOk hok fun hcpu => absurd (Owns.unique h.ids hown ⟨y, hy, hcpu⟩) he
  · intro q e hq i x hx hcpu
    have hne := hi.current_ne hq
    rw [hi.current] at hq
    rw [hcontexts, getElem?_modify_context] at hx
    obtain ⟨y, hy, rfl⟩ := Option.map_eq_some_iff.mp hx
    have he : c ≠ i := by
      rintro rfl
      refine hne (Owns.cpu ?_ hown)
      exact ⟨y, hy, by simpa using hcpu⟩
    rw [if_neg he] at hcpu ⊢
    exact h.current q e hq i y hy hcpu

theorem Contexts.install (h : Contexts m s) (hc : Control m s) (hplace : s.place m p = some place)
    (hstep : installStep p s place = some (next, s')) : Contexts m (s'.goOn m p next) := by
  have hi := installs_of_step hplace hstep
  cases place with
  | allocate => exact h.install_allocate hi hstep
  | lock c => exact h.install_lock hi hstep
  | link c => exact h.install_link hc hi hstep
  | publish c => exact h.install_publish hc hi hstep
  | unlock c => exact h.install_unlock hi hstep
  | attach c => exact h.install_attach hi hstep
  | idle c => exact h.install_idle hi hstep

end

end GaOS.L4.Smp
