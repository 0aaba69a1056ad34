import GaOS.L4Sched.Smp

/-!
# Who is where while the processors come up

`Bsp.phase`, `Ap.phase` and `Install.phase` number the places of the code in their order.
`Control` is what the locks and `arch_complete` say about them; every step of every
processor keeps it.
-/
namespace GaOS.L4.Smp

/-! ## Places in order -/

def Install.phase : Install → Nat
  | .allocate => 0
  | .lock _ => 1
  | .link _ => 2
  | .publish _ => 3
  | .unlock _ => 4
  | .attach _ => 5
  | .idle _ => 6

def Bsp.phase : Bsp → Nat
  | .bootstrap => 0
  | .scan _ | .acquire _ | .wake _ | .await _ => 1
  | .online => 2
  | .install _ => 3
  | .load => 4
  | .release => 5
  | .spin => 6
  | .enable => 7
  | .running _ => 8

def Ap.phase : Ap → Nat
  | .off => 0
  | .boot => 1
  | .wait => 2
  | .install _ => 3
  | .count => 4
  | .read => 5
  | .write _ => 6
  | .finish => 7
  | .enable => 8
  | .running _ => 9

/-- How far `install_context` is: 0 before it, 7 after it. -/
def Bsp.installed : Bsp → Nat
  | .install place => place.phase
  | b => if b.phase < 3 then 0 else 7

def Ap.installed : Ap → Nat
  | .install place => place.phase
  | a => if a.phase < 3 then 0 else 7

def State.installed (m : Machine) (s : State) (cpu : Nat) : Nat :=
  if cpu = m.bspLapicId then s.bsp.installed else (s.ap cpu).installed

/-- The processors that `bootstrap` has woken are those with an index below this one. -/
def Bsp.woken (m : Machine) : Bsp → Nat
  | .bootstrap => 0
  | .scan i | .acquire i | .wake i => i
  | .await i => i + 1
  | _ => m.lapicIds.length

def Machine.aps (m : Machine) : Finset Nat := m.lapicIds.toFinset.erase m.bspLapicId

theorem Machine.mem_aps {m : Machine} {p : Nat} :
    p ∈ m.aps ↔ p ≠ m.bspLapicId ∧ p ∈ m.lapicIds := by
  simp [Machine.aps]

theorem Machine.card_aps (m : Machine) : m.aps.card + 1 = m.lapicIds.length := by
  have hcard := Finset.card_erase_add_one (List.mem_toFinset.mpr m.bsp_mem)
  rwa [List.toFinset_card_of_nodup m.nodup] at hcard

theorem Machine.index_unique {m : Machine} {i j p : Nat} (hi : m.lapicIds[i]? = some p)
    (hj : m.lapicIds[j]? = some p) : i = j := by
  obtain ⟨hi, rfl⟩ := List.getElem?_eq_some_iff.mp hi
  obtain ⟨hj, he⟩ := List.getElem?_eq_some_iff.mp hj
  exact (m.nodup.getElem_inj_iff.mp he).symm

/-! ## The invariant -/

/-- Who has to clear `arch_mp_bootstrap_lock`. -/
def State.HoldsBootstrap (m : Machine) (s : State) (p : Nat) : Prop :=
  if p = m.bspLapicId then ∃ i, s.bsp = .wake i else s.ap p = .boot

def State.HoldsLastContext (m : Machine) (s : State) (p : Nat) : Prop :=
  2 ≤ s.installed m p ∧ s.installed m p ≤ 4

def State.HoldsCompletion (s : State) (p : Nat) : Prop := 5 ≤ (s.ap p).phase ∧ (s.ap p).phase ≤ 7

/-- The processors that have added themselves to `arch_complete`. -/
def State.counted (m : Machine) (s : State) : Finset Nat := m.aps.filter fun p => 7 ≤ (s.ap p).phase

structure Control (m : Machine) (s : State) : Prop where
  /-- the scheduler is locked from the start of `bootstrap` until init is loaded -/
  enable : s.enableLock = true ↔ 1 ≤ s.bsp.phase ∧ s.bsp.phase ≤ 5
  waits : ∀ p, 3 ≤ (s.ap p).phase → 6 ≤ s.bsp.phase
  count : 1 ≤ s.bsp.phase → s.processorCount = m.lapicIds.length
  index : ∀ i, s.bsp = .acquire i ∨ s.bsp = .wake i ∨ s.bsp = .await i →
    ∃ p, m.lapicIds[i]? = some p ∧ p ≠ m.bspLapicId
  woken : ∀ i p, m.lapicIds[i]? = some p → p ≠ m.bspLapicId →
    (s.ap p = .off ↔ s.bsp.woken m ≤ i)
  others : ∀ p, p ∉ m.aps → s.ap p = .off
  bootstrap : Held s.bootstrapLock (s.HoldsBootstrap m)
  boots : ∀ p, s.ap p = .boot → ∃ i, s.bsp = .await i ∧ m.lapicIds[i]? = some p
  lastContext : Held s.lastContextLock (s.HoldsLastContext m)
  completion : Held s.completionLock s.HoldsCompletion
  complete : s.complete = (s.counted m).card
  writes : ∀ p n, s.ap p = .write n → n = s.complete
  done : 7 ≤ s.bsp.phase → s.counted m = m.aps

variable {m : Machine} {s t : State}

@[simp] theorem installed_bsp : s.installed m m.bspLapicId = s.bsp.installed := if_pos rfl

theorem installed_ap {p : Nat} (hp : p ≠ m.bspLapicId) : s.installed m p = (s.ap p).installed :=
  if_neg hp

theorem State.mem_counted {p : Nat} : p ∈ s.counted m ↔ p ∈ m.aps ∧ 7 ≤ (s.ap p).phase :=
  Finset.mem_filter

theorem Control.bsp_off (h : Control m s) : s.ap m.bspLapicId = .off :=
  h.others _ (by simp [Machine.aps])

theorem control_init : Control m {} where
  enable := by simp [Bsp.phase]
  waits := by simp [Ap.phase]
  count := by simp [Bsp.phase]
  index := by simp
  woken := by simp [Bsp.woken]
  others := by simp
  bootstrap := .none (by simp [State.HoldsBootstrap])
  boots := by simp
  lastContext := .none (by
    simp [State.HoldsLastContext, State.installed, Bsp.installed, Ap.installed, Bsp.phase,
      Ap.phase])
  completion := .none (by simp [State.HoldsCompletion, Ap.phase])
  complete := by simp [State.counted, Ap.phase]
  writes := by simp
  done := by simp [Bsp.phase]

/-! ## One step -/

/-- What a step of `install_context` leaves alone. -/
structure SameControl (s t : State) : Prop where
  bsp : t.bsp = s.bsp
  ap : t.ap = s.ap
  bootstrapLock : t.bootstrapLock = s.bootstrapLock
  enableLock : t.enableLock = s.enableLock
  completionLock : t.completionLock = s.completionLock
  complete : t.complete = s.complete
  processorCount : t.processorCount = s.processorCount

/-- The lock of the chain is taken by the step from 1 to 2 and cleared by the one from 4. -/
def LockStep (k : Nat) (s t : State) : Prop :=
  (k = 1 → s.lastContextLock = false ∧ t.lastContextLock = true) ∧
  (k = 4 → t.lastContextLock = false) ∧
  (k ≠ 1 → k ≠ 4 → t.lastContextLock = s.lastContextLock)

theorem installStep_control {cpu : Nat} {place : Install} {next : Option Install}
    (h : installStep cpu s place = some (next, t)) :
    SameControl s t ∧ LockStep place.phase s t ∧ next.elim 7 Install.phase = place.phase + 1 := by
  cases place with
  | allocate | publish | unlock | attach | idle =>
    simp only [installStep, Option.some.injEq, Prod.mk.injEq] at h
    obtain ⟨rfl, rfl⟩ := h
    exact ⟨⟨rfl, rfl, rfl, rfl, rfl, rfl, rfl⟩, by simp [LockStep, Install.phase,
      State.modifyContext], rfl⟩
  | lock c =>
    simp only [installStep] at h
    split at h
    · cases h
    · rename_i hlock
      simp only [Option.some.injEq, Prod.mk.injEq] at h
      obtain ⟨rfl, rfl⟩ := h
      exact ⟨⟨rfl, rfl, rfl, rfl, rfl, rfl, rfl⟩,
        by simpa [LockStep, Install.phase] using hlock, rfl⟩
  | link c =>
    simp only [installStep, Option.some.injEq, Prod.mk.injEq] at h
    obtain ⟨rfl, rfl⟩ := h
    cases s.lastContext <;>
      exact ⟨⟨rfl, rfl, rfl, rfl, rfl, rfl, rfl⟩, by simp [LockStep, Install.phase,
        State.modifyContext], rfl⟩

/-- The lock of the chain follows its owner. -/
theorem lastContext_step {p k : Nat} (h : Held s.lastContextLock (s.HoldsLastContext m))
    (hk : s.installed m p = k) (hp : t.installed m p = k + 1)
    (hq : ∀ q, q ≠ p → t.installed m q = s.installed m q) (hlock : LockStep k s t) :
    Held t.lastContextLock (t.HoldsLastContext m) := by
  have hold : ∀ q, q ≠ p → (t.HoldsLastContext m q ↔ s.HoldsLastContext m q) := fun q hne => by
    rw [State.HoldsLastContext, State.HoldsLastContext, hq q hne]
  by_cases h1 : k = 1
  · obtain ⟨hfree, htaken⟩ := hlock.1 h1
    rw [hfree] at h
    rw [htaken]
    refine .acquire (p := p) fun q => ⟨fun hold' => ?_, fun he => ?_⟩
    · by_contra hne
      exact h.free q ((hold q hne).mp hold')
    · rw [he, State.HoldsLastContext, hp]
      omega
  · by_cases h4 : k = 4
    · rw [hlock.2.1 h4]
      refine h.release (p := p) (by rw [State.HoldsLastContext, hk]; omega) fun q => ?_
      by_cases hne : q = p
      · subst hne
        rw [State.HoldsLastContext, hp]
        simp [h4]
      · simp [hold q hne, hne]
    · rw [hlock.2.2 h1 h4]
      refine h.congr fun q => ?_
      by_cases hne : q = p
      · subst hne
        rw [State.HoldsLastContext, State.HoldsLastContext, hp, hk]
        omega
      · exact hold q hne

/-! ### The bootstrap processor -/

/-- A step of the bootstrap processor that wakes no one and installs nothing. -/
theorem Control.bsp_move {b : Bsp} (h : Control m s) (hbsp : t.bsp = b) (hap : t.ap = s.ap)
    (hcompletion : t.completionLock = s.completionLock) (hcomplete : t.complete = s.complete)
    (hlast : Held t.lastContextLock (t.HoldsLastContext m))
    (hphase : s.bsp.phase ≤ b.phase)
    (henable : t.enableLock = true ↔ 1 ≤ b.phase ∧ b.phase ≤ 5)
    (hcount : t.processorCount = m.lapicIds.length)
    (hindex : ∀ i, b = .acquire i ∨ b = .wake i ∨ b = .await i →
      ∃ p, m.lapicIds[i]? = some p ∧ p ≠ m.bspLapicId)
    (hwoken : ∀ i p, m.lapicIds[i]? = some p → p ≠ m.bspLapicId →
      (s.bsp.woken m ≤ i ↔ b.woken m ≤ i))
    (hboot : Held t.bootstrapLock (t.HoldsBootstrap m))
    (hboots : ∀ p, s.ap p = .boot → ∃ i, b = .await i ∧ m.lapicIds[i]? = some p)
    (hdone : 7 ≤ b.phase → s.counted m = m.aps) : Control m t where
  enable := hbsp ▸ henable
  waits p hp := by
    rw [hap] at hp
    rw [hbsp]
    exact Nat.le_trans (h.waits p hp) hphase
  count _ := hcount
  index := hbsp ▸ hindex
  woken i p hi hp := by
    rw [hap, hbsp]
    exact (h.woken i p hi hp).trans (hwoken i p hi hp)
  others := hap ▸ h.others
  bootstrap := hboot
  boots := by
    rw [hap, hbsp]
    exact hboots
  lastContext := hlast
  completion := by
    rw [hcompletion]
    exact h.completion.congr fun p => by rw [State.HoldsCompletion, State.HoldsCompletion, hap]
  complete := by
    rw [hcomplete, h.complete, State.counted, State.counted, hap]
  writes := by
    rw [hap, hcomplete]
    exact h.writes
  done hd := by
    rw [hbsp] at hd
    rw [State.counted, hap]
    exact hdone hd

/-- No lock changes hands. -/
theorem Control.bootstrap_frame (h : Control m s) (hlock : t.bootstrapLock = s.bootstrapLock)
    (hap : t.ap = s.ap) (hs : ∀ i, s.bsp ≠ .wake i) (ht : ∀ i, t.bsp ≠ .wake i) :
    Held t.bootstrapLock (t.HoldsBootstrap m) := by
  rw [hlock]
  refine h.bootstrap.congr fun p => ?_
  by_cases hp : p = m.bspLapicId
  · simp [State.HoldsBootstrap, hp, hs, ht]
  · simp [State.HoldsBootstrap, hp, hap]

theorem Control.lastContext_frame (h : Control m s) (hlock : t.lastContextLock = s.lastContextLock)
    (hp : ∀ p, t.installed m p = s.installed m p) :
    Held t.lastContextLock (t.HoldsLastContext m) := by
  rw [hlock]
  exact h.lastContext.congr fun p => by rw [State.HoldsLastContext, State.HoldsLastContext, hp]

/-- The bootstrap processor is as far as before in `install_context`. -/
theorem installed_of_bsp (hap : t.ap = s.ap) (hinst : t.bsp.installed = s.bsp.installed) (p : Nat) :
    t.installed m p = s.installed m p := by
  simp only [State.installed, hap, hinst]

/-- No one boots unless it is waited for. -/
theorem Control.no_boot (h : Control m s) (hs : ∀ i, s.bsp ≠ .await i) (p : Nat) :
    s.ap p ≠ .boot := by
  intro hp
  obtain ⟨i, hi, -⟩ := h.boots p hp
  exact hs i hi

theorem Control.wake {i cpu : Nat} (h : Control m s) (hb : s.bsp = .wake i)
    (hi : m.lapicIds[i]? = some cpu) (hcpu : cpu ≠ m.bspLapicId) (hoff : s.ap cpu = .off) :
    Control m { s with ap := Function.update s.ap cpu .boot, bsp := .await i } where
  enable := by simpa [hb, Bsp.phase] using h.enable
  waits p hp := by
    by_cases he : p = cpu
    · simp [he, Ap.phase] at hp
    · simp only [Function.update_of_ne he] at hp
      simpa [hb, Bsp.phase] using h.waits p hp
  count _ := h.count (by simp [hb, Bsp.phase])
  index := by
    rintro j (hj | hj | hj) <;> cases hj
    exact ⟨cpu, hi, hcpu⟩
  woken j p hj hp := by
    by_cases he : p = cpu
    · subst he
      have hij : j = i := Machine.index_unique hj hi
      simp [hij, Bsp.woken]
    · have hne : j ≠ i := fun hji => he (Option.some.inj (hj.symm.trans (hji ▸ hi)))
      simp only [Function.update_of_ne he, h.woken j p hj hp, hb, Bsp.woken]
      omega
  others p hp := by
    have he : p ≠ cpu := by
      rintro rfl
      exact hp (Machine.mem_aps.mpr ⟨hcpu, List.mem_of_getElem? hi⟩)
    simpa [Function.update_of_ne he] using h.others p hp
  bootstrap := by
    -- the lock goes from the bootstrap processor to the one that it wakes
    have hnb := h.no_boot (by simp [hb])
    refine h.bootstrap.transfer (p := m.bspLapicId) (q := cpu) (by simp [State.HoldsBootstrap, hb])
      fun r => ?_
    by_cases hr : r = m.bspLapicId
    · simp [State.HoldsBootstrap, hr, hcpu.symm]
    · by_cases he : r = cpu
      · simp [State.HoldsBootstrap, he, hcpu]
      · simp [State.HoldsBootstrap, hr, he, hnb]
  boots p hp := by
    by_cases he : p = cpu
    · exact ⟨i, rfl, he ▸ hi⟩
    · simp only [Function.update_of_ne he] at hp
      exact absurd hp (h.no_boot (by simp [hb]) p)
  lastContext := h.lastContext.congr fun p => by
    have hp : State.installed m { s with ap := Function.update s.ap cpu .boot, bsp := .await i } p =
        s.installed m p := by
      by_cases hr : p = m.bspLapicId
      · simp [hr, hb, Bsp.installed, Bsp.phase]
      · by_cases he : p = cpu
        · subst he
          simp [installed_ap hcpu, hoff, Ap.installed, Ap.phase]
        · simp [installed_ap hr, he]
    rw [State.HoldsLastContext, State.HoldsLastContext, hp]
  completion := h.completion.congr fun p => by
    by_cases he : p = cpu
    · simp [State.HoldsCompletion, he, hoff, Ap.phase]
    · simp [State.HoldsCompletion, he]
  complete := by
    refine h.complete.trans (congrArg _ (Finset.filter_congr fun p _ => ?_))
    by_cases he : p = cpu
    · simp [he, hoff, Ap.phase]
    · simp [he]
  writes p n hp := by
    by_cases he : p = cpu
    · simp [he] at hp
    · exact h.writes p n (by simpa [he] using hp)
  done := by simp [Bsp.phase]

theorem Control.bsp_install {place : Install} {next : Option Install} (h : Control m s)
    (hb : s.bsp = .install place) (hstep : installStep m.bspLapicId s place = some (next, t)) :
    Control m { t with bsp := next.elim .load .install } := by
  obtain ⟨hsame, hlock, hnext⟩ := installStep_control hstep
  have hs3 : s.bsp.phase = 3 := by rw [hb]; rfl
  have hafter : 3 ≤ (next.elim Bsp.load Bsp.install).phase ∧
      (next.elim Bsp.load Bsp.install).phase ≤ 4 ∧
      (next.elim Bsp.load Bsp.install).installed = place.phase + 1 ∧
      (next.elim Bsp.load Bsp.install).woken m = s.bsp.woken m ∧
      ∀ i, next.elim Bsp.load Bsp.install ≠ .acquire i ∧
        next.elim Bsp.load Bsp.install ≠ .wake i ∧ next.elim Bsp.load Bsp.install ≠ .await i := by
    cases next <;> simp_all [Bsp.phase, Bsp.installed, Bsp.woken]
  generalize next.elim Bsp.load Bsp.install = b at hafter
  obtain ⟨hlo, hhi, hinst, hwoken, hne⟩ := hafter
  refine h.bsp_move (b := b) rfl hsame.ap hsame.completionLock hsame.complete ?_ (by omega) ?_
    (hsame.processorCount.trans (h.count (by omega))) ?_ (fun i p _ _ => by rw [hwoken])
    (h.bootstrap_frame hsame.bootstrapLock hsame.ap (by simp [hb]) fun i => (hne i).2.1)
    (fun p hp => absurd hp (h.no_boot (by simp [hb]) p)) (fun h7 => by omega)
  · refine lastContext_step (p := m.bspLapicId) (k := place.phase) h.lastContext ?_ ?_ ?_ hlock
    · simp [hb, Bsp.installed]
    · simpa using hinst
    · intro q hq
      simp [installed_ap hq, hsame.ap]
  · have hs : s.enableLock = true := h.enable.mpr (by omega)
    have ht : t.enableLock = true := hsame.enableLock.trans hs
    simp only [ht, true_iff]
    omega
  · rintro i (hi | hi | hi)
    · exact absurd hi (hne i).1
    · exact absurd hi (hne i).2.1
    · exact absurd hi (hne i).2.2

/-- `arch_complete` has come to the number of the other processors. -/
theorem Control.all_counted (h : Control m s) (hcount : s.processorCount = m.lapicIds.length)
    (hall : s.complete = sub64 s.processorCount 1) : s.counted m = m.aps := by
  have hcard := m.card_aps
  have hsub : sub64 s.processorCount 1 = s.processorCount - 1 :=
    sub64_of_le (by omega) (by have := m.small; omega)
  refine Finset.eq_of_subset_of_card_le (Finset.filter_subset _ _) ?_
  rw [State.counted] at *
  have := h.complete
  rw [State.counted] at this
  omega

/-- A pop changes one queue. -/
theorem popOwn_frame {cpu : Nat} {e : Entry} (h : popOwn cpu s = some (e, t)) :
    ∃ contexts, t = { s with contexts := contexts } := by
  simp only [popOwn, Option.bind_eq_bind, Option.bind_eq_some_iff] at h
  obtain ⟨c, -, context, -, ⟨e', queue⟩, -, h⟩ := h
  simp only [Option.pure_def, Option.some.injEq, Prod.mk.injEq] at h
  exact ⟨_, h.2.symm⟩

theorem control_bsp (h : Control m s) (hrun : bspStep m s = some t) : Control m t := by
  have hfree : ∀ b : Bool, ¬b = true → b = false := fun b hb => by simpa using hb
  cases hb : s.bsp with
  | bootstrap =>
    simp only [bspStep, hb] at hrun
    split at hrun
    · cases hrun
    simp only [Option.some.injEq] at hrun
    subst hrun
    have hnb := h.no_boot (by simp [hb])
    refine h.bsp_move rfl rfl rfl rfl (h.lastContext_frame rfl (installed_of_bsp rfl
      (by simp [hb, Bsp.installed, Bsp.phase])))
      (by simp [hb, Bsp.phase]) (by simp [Bsp.phase]) rfl (by simp) (by simp [hb, Bsp.woken])
      (h.bootstrap_frame rfl rfl (by simp [hb]) (by simp)) (fun p hp => absurd hp (hnb p))
      (by simp [Bsp.phase])
  | scan i =>
    have hcount := h.count (by simp [hb, Bsp.phase])
    have hen := h.enable
    have hnb := h.no_boot (by simp [hb])
    have hwk := h.bootstrap_frame (s := s) (t := t)
    simp only [bspStep, hb, hcount] at hrun
    split at hrun
    · rename_i hi
      have hget : m.lapicIds[i]? = some m.lapicIds[i] := List.getElem?_eq_getElem hi
      simp only [hget] at hrun
      split at hrun
      · rename_i hbsp
        simp only [Option.some.injEq] at hrun
        subst hrun
        refine h.bsp_move rfl rfl rfl rfl (h.lastContext_frame rfl (installed_of_bsp rfl
      (by simp [hb, Bsp.installed, Bsp.phase])))
          (by simp [hb, Bsp.phase]) (by simpa [hb, Bsp.phase] using hen) rfl (by simp) ?_
          (hwk rfl rfl (by simp [hb]) (by simp)) (fun p hp => absurd hp (hnb p))
          (by simp [Bsp.phase])
        -- the bootstrap processor itself is passed over
        intro j p hj hp
        have hne : j ≠ i := by
          intro he
          rw [he, hget, hbsp] at hj
          exact hp (Option.some.inj hj).symm
        simp only [hb, Bsp.woken]
        omega
      · rename_i hbsp
        simp only [Option.some.injEq] at hrun
        subst hrun
        refine h.bsp_move rfl rfl rfl rfl (h.lastContext_frame rfl (installed_of_bsp rfl
      (by simp [hb, Bsp.installed, Bsp.phase])))
          (by simp [hb, Bsp.phase]) (by simpa [hb, Bsp.phase] using hen) rfl ?_
          (by simp [hb, Bsp.woken]) (hwk rfl rfl (by simp [hb]) (by simp))
          (fun p hp => absurd hp (hnb p)) (by simp [Bsp.phase])
        rintro j (hj | hj | hj) <;> cases hj
        exact ⟨_, hget, hbsp⟩
    · rename_i hi
      simp only [Option.some.injEq] at hrun
      subst hrun
      refine h.bsp_move rfl rfl rfl rfl (h.lastContext_frame rfl (installed_of_bsp rfl
      (by simp [hb, Bsp.installed, Bsp.phase])))
        (by simp [hb, Bsp.phase]) (by simpa [hb, Bsp.phase] using hen) rfl (by simp) ?_
        (hwk rfl rfl (by simp [hb]) (by simp)) (fun p hp => absurd hp (hnb p))
        (by simp [Bsp.phase])
      intro j p hj _
      have hlt := (List.getElem?_eq_some_iff.mp hj).1
      simp only [hb, Bsp.woken]
      omega
  | acquire i =>
    have hcount := h.count (by simp [hb, Bsp.phase])
    have hen := h.enable
    have hnb := h.no_boot (by simp [hb])
    simp only [bspStep, hb] at hrun
    split at hrun
    · cases hrun
    rename_i hlock
    simp only [Option.some.injEq] at hrun
    subst hrun
    refine h.bsp_move rfl rfl rfl rfl (h.lastContext_frame rfl (installed_of_bsp rfl
      (by simp [hb, Bsp.installed, Bsp.phase])))
      (by simp [hb, Bsp.phase]) (by simpa [hb, Bsp.phase] using hen) hcount ?_
      (by simp [hb, Bsp.woken]) ?_ (fun p hp => absurd hp (hnb p)) (by simp [Bsp.phase])
    · rintro j (hj | hj | hj) <;> cases hj
      exact h.index i (.inl hb)
    · refine .acquire (p := m.bspLapicId) fun q => ?_
      by_cases hq : q = m.bspLapicId
      · simp [State.HoldsBootstrap, hq]
      · simp [State.HoldsBootstrap, hq, hnb]
  | wake i =>
    obtain ⟨cpu, hi, hcpu⟩ := h.index i (.inr (.inl hb))
    have hoff : s.ap cpu = .off := (h.woken i cpu hi hcpu).mpr (by simp [hb, Bsp.woken])
    simp only [bspStep, hb, hi, Option.some.injEq] at hrun
    subst hrun
    exact h.wake hb hi hcpu hoff
  | await i =>
    have hcount := h.count (by simp [hb, Bsp.phase])
    have hen := h.enable
    simp only [bspStep, hb] at hrun
    split at hrun
    · cases hrun
    rename_i hlock
    simp only [Option.some.injEq] at hrun
    subst hrun
    have hheld := h.bootstrap
    rw [hfree _ hlock] at hheld
    -- the lock is clear: whoever was woken has left its first phase
    have hnb : ∀ p, s.ap p ≠ .boot := fun p hp => by
      refine hheld.free p ?_
      have hne : p ≠ m.bspLapicId := by
        rintro rfl
        rw [h.bsp_off] at hp
        cases hp
      simpa [State.HoldsBootstrap, hne] using hp
    refine h.bsp_move rfl rfl rfl rfl (h.lastContext_frame rfl (installed_of_bsp rfl
      (by simp [hb, Bsp.installed, Bsp.phase])))
      (by simp [hb, Bsp.phase]) (by simpa [hb, Bsp.phase] using hen) hcount (by simp)
      (by simp [hb, Bsp.woken]) (h.bootstrap_frame rfl rfl (by simp [hb]) (by simp))
      (fun p hp => absurd hp (hnb p)) (by simp [Bsp.phase])
  | online =>
    have hcount := h.count (by simp [hb, Bsp.phase])
    have hen := h.enable
    have hnb := h.no_boot (by simp [hb])
    simp only [bspStep, hb, Option.some.injEq] at hrun
    subst hrun
    exact h.bsp_move rfl rfl rfl rfl (h.lastContext_frame rfl (installed_of_bsp rfl
      (by simp [hb, Bsp.installed, Bsp.phase, Install.phase])))
     
      (by simp [hb, Bsp.phase]) (by simpa [hb, Bsp.phase] using hen) hcount (by simp)
      (by simp [hb, Bsp.woken]) (h.bootstrap_frame rfl rfl (by simp [hb]) (by simp))
      (fun p hp => absurd hp (hnb p)) (by simp [Bsp.phase])
  | install place =>
    simp only [bspStep, hb] at hrun
    obtain ⟨⟨next, s'⟩, hstep, rfl⟩ := Option.map_eq_some_iff.mp hrun
    exact h.bsp_install hb hstep
  | load =>
    have hcount := h.count (by simp [hb, Bsp.phase])
    have hen := h.enable
    have hnb := h.no_boot (by simp [hb])
    simp only [bspStep, hb, Option.some.injEq] at hrun
    subst hrun
    exact h.bsp_move rfl rfl rfl rfl (h.lastContext_frame rfl (installed_of_bsp rfl
      (by simp [hb, Bsp.installed, Bsp.phase])))
      (by simp [hb, Bsp.phase]) (by simpa [hb, Bsp.phase] using hen) hcount (by simp)
      (by simp [hb, Bsp.woken]) (h.bootstrap_frame rfl rfl (by simp [hb]) (by simp))
      (fun p hp => absurd hp (hnb p)) (by simp [Bsp.phase])
  | release =>
    have hcount := h.count (by simp [hb, Bsp.phase])
    have hnb := h.no_boot (by simp [hb])
    simp only [bspStep, hb, Option.some.injEq] at hrun
    subst hrun
    exact h.bsp_move rfl rfl rfl rfl (h.lastContext_frame rfl (installed_of_bsp rfl
      (by simp [hb, Bsp.installed, Bsp.phase])))
      (by simp [hb, Bsp.phase]) (by simp [Bsp.phase]) hcount (by simp)
      (by simp [hb, Bsp.woken]) (h.bootstrap_frame rfl rfl (by simp [hb]) (by simp))
      (fun p hp => absurd hp (hnb p)) (by simp [Bsp.phase])
  | spin =>
    have hcount := h.count (by simp [hb, Bsp.phase])
    have hen := h.enable
    have hnb := h.no_boot (by simp [hb])
    simp only [bspStep, hb] at hrun
    split at hrun
    · rename_i hall
      simp only [Option.some.injEq] at hrun
      subst hrun
      refine h.bsp_move rfl rfl rfl rfl (h.lastContext_frame rfl (installed_of_bsp rfl
      (by simp [hb, Bsp.installed, Bsp.phase])))
        (by simp [hb, Bsp.phase]) (by simpa [hb, Bsp.phase] using hen) hcount (by simp)
        (by simp [hb, Bsp.woken]) (h.bootstrap_frame rfl rfl (by simp [hb]) (by simp))
        (fun p hp => absurd hp (hnb p)) fun _ => ?_
      exact h.all_counted hcount hall
    · cases hrun
  | enable =>
    have hcount := h.count (by simp [hb, Bsp.phase])
    have hen := h.enable
    have hnb := h.no_boot (by simp [hb])
    simp only [bspStep, hb] at hrun
    obtain ⟨⟨e, s'⟩, hpop, rfl⟩ := Option.map_eq_some_iff.mp hrun
    obtain ⟨c, hs'⟩ := popOwn_frame hpop
    rw [hs']
    exact h.bsp_move rfl rfl rfl rfl (h.lastContext_frame rfl (installed_of_bsp rfl
      (by simp [hb, Bsp.installed, Bsp.phase])))
      (by simp [hb, Bsp.phase]) (by simpa [hb, Bsp.phase] using hen) hcount (by simp)
      (by simp [hb, Bsp.woken]) (h.bootstrap_frame rfl rfl (by simp [hb]) (by simp))
      (fun p hp => absurd hp (hnb p)) fun _ => h.done (by simp [hb, Bsp.phase])
  | running e =>
    simp [bspStep, hb] at hrun

/-! ### Another processor -/

theorem Control.mem_aps {p : Nat} (h : Control m s) (hp : s.ap p ≠ .off) : p ∈ m.aps := by
  by_contra hnot
  exact hp (h.others p hnot)

theorem Control.ne_bsp {p : Nat} (h : Control m s) (hp : s.ap p ≠ .off) : p ≠ m.bspLapicId :=
  (Machine.mem_aps.mp (h.mem_aps hp)).1

theorem Control.started {p : Nat} (h : Control m s) (hp : s.ap p ≠ .off) : 1 ≤ s.bsp.phase := by
  obtain ⟨hne, hmem⟩ := Machine.mem_aps.mp (h.mem_aps hp)
  obtain ⟨i, hi⟩ := List.mem_iff_getElem?.mp hmem
  cases hb : s.bsp with
  | bootstrap => exact absurd ((h.woken i p hi hne).mpr (by simp [hb, Bsp.woken])) hp
  | scan | acquire | wake | await | online | install | load | release | spin | enable | running =>
    simp [Bsp.phase]

theorem installed_of_ap {p : Nat} {a : Ap} (hp : p ≠ m.bspLapicId) (hbsp : t.bsp = s.bsp)
    (hap : t.ap = Function.update s.ap p a) {q : Nat} :
    t.installed m q = if q = p then a.installed else s.installed m q := by
  by_cases hq : q = p
  · subst hq
    simp [installed_ap hp, hap]
  · simp only [State.installed, hbsp, hap, Function.update_of_ne hq, hq, if_false]

theorem Control.ap_move {p : Nat} {a : Ap} (h : Control m s) (hs : s.ap p ≠ .off)
    (hbsp : t.bsp = s.bsp) (hap : t.ap = Function.update s.ap p a)
    (henable : t.enableLock = s.enableLock) (hcount : t.processorCount = s.processorCount)
    (ha : 2 ≤ a.phase) (hphase : (s.ap p).phase ≤ a.phase)
    (hwait : 3 ≤ a.phase → 6 ≤ s.bsp.phase)
    (hboot : Held t.bootstrapLock (t.HoldsBootstrap m))
    (hlast : Held t.lastContextLock (t.HoldsLastContext m))
    (hcompletion : Held t.completionLock t.HoldsCompletion)
    (hcomplete : t.complete = (t.counted m).card)
    (hwrites : ∀ q n, t.ap q = .write n → n = t.complete) : Control m t where
  enable := by
    rw [henable, hbsp]
    exact h.enable
  waits q hq := by
    rw [hbsp]
    rw [hap] at hq
    by_cases he : q = p
    · rw [he, Function.update_self] at hq
      exact hwait hq
    · rw [Function.update_of_ne he] at hq
      exact h.waits q hq
  count hb := hcount.trans (h.count (hbsp ▸ hb))
  index := hbsp ▸ h.index
  woken i q hi hq := by
    rw [hap, hbsp]
    by_cases he : q = p
    · have hne : a ≠ .off := fun h0 => by simp [h0, Ap.phase] at ha
      rw [he] at hi hq
      simp [he, hne, ← h.woken i p hi hq, hs]
    · rw [Function.update_of_ne he]
      exact h.woken i q hi hq
  others q hq := by
    have he : q ≠ p := fun he => hq (he ▸ h.mem_aps hs)
    rw [hap, Function.update_of_ne he]
    exact h.others q hq
  bootstrap := hboot
  boots q hq := by
    rw [hbsp]
    rw [hap] at hq
    by_cases he : q = p
    · rw [he, Function.update_self] at hq
      simp [hq, Ap.phase] at ha
    · rw [Function.update_of_ne he] at hq
      exact h.boots q hq
  lastContext := hlast
  completion := hcompletion
  complete := hcomplete
  writes := hwrites
  done hd := by
    rw [hbsp] at hd
    refine Finset.Subset.antisymm (Finset.filter_subset _ _) ?_
    rw [← h.done hd]
    intro q hq
    obtain ⟨hmem, h7⟩ := Finset.mem_filter.mp hq
    refine Finset.mem_filter.mpr ⟨hmem, ?_⟩
    rw [hap]
    by_cases he : q = p
    · rw [he] at h7
      rw [he, Function.update_self]
      omega
    · rwa [Function.update_of_ne he]

/-! The parts that a step of processor `p` from its place to `a` leaves alone. -/

section
variable {p : Nat} {a : Ap}

theorem Control.ap_bootstrap (h : Control m s) (hs : s.ap p ≠ .off) (hs' : s.ap p ≠ .boot)
    (hbsp : t.bsp = s.bsp) (hap : t.ap = Function.update s.ap p a) (ha : a ≠ .boot)
    (hlock : t.bootstrapLock = s.bootstrapLock) : Held t.bootstrapLock (t.HoldsBootstrap m) := by
  rw [hlock]
  refine h.bootstrap.congr fun q => ?_
  have hne := h.ne_bsp hs
  by_cases he : q = p
  · simp [State.HoldsBootstrap, he, hne, hap, ha, hs']
  · simp [State.HoldsBootstrap, hbsp, hap, he]

theorem Control.ap_lastContext (h : Control m s) (hs : s.ap p ≠ .off) (hbsp : t.bsp = s.bsp)
    (hap : t.ap = Function.update s.ap p a) (ha : a.installed = (s.ap p).installed)
    (hlock : t.lastContextLock = s.lastContextLock) :
    Held t.lastContextLock (t.HoldsLastContext m) := by
  refine h.lastContext_frame hlock fun q => ?_
  rw [installed_of_ap (h.ne_bsp hs) hbsp hap]
  split
  · rename_i he
    rw [he, installed_ap (h.ne_bsp hs), ha]
  · rfl

theorem Control.ap_completion (h : Control m s) (hap : t.ap = Function.update s.ap p a)
    (ha : (5 ≤ a.phase ∧ a.phase ≤ 7) ↔ s.HoldsCompletion p)
    (hlock : t.completionLock = s.completionLock) : Held t.completionLock t.HoldsCompletion := by
  rw [hlock]
  refine h.completion.congr fun q => ?_
  by_cases he : q = p
  · subst he
    rw [State.HoldsCompletion, hap, Function.update_self]
    exact ha
  · rw [State.HoldsCompletion, State.HoldsCompletion, hap, Function.update_of_ne he]

theorem Control.ap_complete (h : Control m s) (hap : t.ap = Function.update s.ap p a)
    (ha : 7 ≤ a.phase ↔ 7 ≤ (s.ap p).phase) (hcomplete : t.complete = s.complete) :
    t.complete = (t.counted m).card := by
  rw [hcomplete, h.complete]
  refine congrArg _ (Finset.filter_congr fun q _ => ?_)
  rw [hap]
  by_cases he : q = p
  · rw [he, Function.update_self]
    exact ha.symm
  · rw [Function.update_of_ne he]

theorem Control.ap_writes (h : Control m s) (hap : t.ap = Function.update s.ap p a)
    (ha : ∀ n, a = .write n → n = s.complete) (hcomplete : t.complete = s.complete) (q n : Nat)
    (hq : t.ap q = .write n) : n = t.complete := by
  rw [hcomplete]
  rw [hap] at hq
  by_cases he : q = p
  · rw [he, Function.update_self] at hq
    exact ha n hq
  · rw [Function.update_of_ne he] at hq
    exact h.writes q n hq

end

theorem Control.counted_le (h : Control m s) : s.complete + 1 ≤ m.lapicIds.length := by
  have hle := Finset.card_le_card (Finset.filter_subset (fun p => 7 ≤ (s.ap p).phase) m.aps)
  have hcard := m.card_aps
  have hc := h.complete
  rw [State.counted] at hc
  omega

theorem control_ap {p : Nat} (h : Control m s) (hrun : apStep p s = some t) : Control m t := by
  have hfree : ∀ b : Bool, ¬b = true → b = false := fun b hb => by simpa using hb
  have hoff : s.ap p ≠ .off := by
    intro hoff
    simp [apStep, hoff] at hrun
  have hne := h.ne_bsp hoff
  cases ha : s.ap p with
  | off => exact absurd ha hoff
  | boot =>
    simp only [apStep, ha, Option.some.injEq] at hrun
    subst hrun
    refine h.ap_move hoff rfl rfl rfl rfl (by simp [Ap.phase]) (by simp [ha, Ap.phase])
      (by simp [Ap.phase]) ?_
      (h.ap_lastContext hoff rfl rfl (by simp [ha, Ap.installed, Ap.phase]) rfl)
      (h.ap_completion rfl (by simp [State.HoldsCompletion, ha, Ap.phase]) rfl)
      (h.ap_complete rfl (by simp [ha, Ap.phase]) rfl) (h.ap_writes rfl (by simp) rfl)
    refine h.bootstrap.release (p := p) (by simp [State.HoldsBootstrap, hne, ha]) fun q => ?_
    by_cases he : q = p
    · simp [State.HoldsBootstrap, State.setAp, he, hne]
    · simp [State.HoldsBootstrap, State.setAp, he]
  | wait =>
    simp only [apStep, ha] at hrun
    split at hrun
    · cases hrun
    rename_i hlock
    simp only [Option.some.injEq] at hrun
    subst hrun
    refine h.ap_move hoff rfl rfl rfl rfl (by simp [Ap.phase]) (by simp [ha, Ap.phase]) ?_
      (h.ap_bootstrap hoff (by simp [ha]) rfl rfl (by simp) rfl)
      (h.ap_lastContext hoff rfl rfl (by simp [ha, Ap.installed, Ap.phase, Install.phase]) rfl)
      (h.ap_completion rfl (by simp [State.HoldsCompletion, ha, Ap.phase]) rfl)
      (h.ap_complete rfl (by simp [ha, Ap.phase]) rfl) (h.ap_writes rfl (by simp) rfl)
    intro _
    have hstarted := h.started hoff
    have hclear := mt h.enable.mpr hlock
    omega
  | install place =>
    simp only [apStep, ha] at hrun
    obtain ⟨⟨next, s'⟩, hstep, rfl⟩ := Option.map_eq_some_iff.mp hrun
    obtain ⟨hsame, hlock, hnext⟩ := installStep_control hstep
    have hap : (s'.setAp p (next.elim .count .install)).ap =
        Function.update s.ap p (next.elim .count .install) := by
      rw [← hsame.ap]
      rfl
    have hbsp : (s'.setAp p (next.elim .count .install)).bsp = s.bsp := hsame.bsp
    have hafter : 3 ≤ (next.elim Ap.count Ap.install).phase ∧
        (next.elim Ap.count Ap.install).phase ≤ 4 ∧
        (next.elim Ap.count Ap.install).installed = place.phase + 1 ∧
        (∀ n, next.elim Ap.count Ap.install ≠ .write n) ∧
        next.elim Ap.count Ap.install ≠ .boot := by
      cases next <;> simp_all [Ap.phase, Ap.installed]
    generalize next.elim Ap.count Ap.install = a at hafter hap hbsp
    obtain ⟨hlo, hhi, hinst, hw, hb⟩ := hafter
    have h3 : (s.ap p).phase = 3 := by rw [ha]; rfl
    have hreleased := h.waits p (by omega)
    refine h.ap_move hoff hbsp hap hsame.enableLock hsame.processorCount (by omega) (by omega)
      (fun _ => hreleased) (h.ap_bootstrap hoff (by simp [ha]) hbsp hap hb hsame.bootstrapLock) ?_
      (h.ap_completion hap ?_ hsame.completionLock) (h.ap_complete hap (by omega) hsame.complete)
      (h.ap_writes hap (fun n hn => absurd hn (hw n)) hsame.complete)
    · refine lastContext_step (p := p) (k := place.phase) h.lastContext ?_ ?_ ?_ hlock
      · simp [installed_ap hne, ha, Ap.installed]
      · rw [installed_of_ap hne hbsp hap, if_pos rfl, hinst]
      · intro q hq
        rw [installed_of_ap hne hbsp hap, if_neg hq]
    · rw [State.HoldsCompletion]
      omega
  | count =>
    have hreleased := h.waits p (by simp [ha, Ap.phase])
    simp only [apStep, ha] at hrun
    split at hrun
    · cases hrun
    rename_i hlock
    simp only [Option.some.injEq] at hrun
    subst hrun
    refine h.ap_move hoff rfl rfl rfl rfl (by simp [Ap.phase]) (by simp [ha, Ap.phase])
      (fun _ => hreleased) (h.ap_bootstrap hoff (by simp [ha]) rfl rfl (by simp) rfl)
      (h.ap_lastContext hoff rfl rfl (by simp [ha, Ap.installed, Ap.phase]) rfl) ?_
      (h.ap_complete rfl (by simp [ha, Ap.phase]) rfl) (h.ap_writes rfl (by simp) rfl)
    have hheld := h.completion
    rw [hfree _ hlock] at hheld
    refine .acquire (p := p) fun q => ?_
    by_cases he : q = p
    · simp [State.HoldsCompletion, State.setAp, he, Ap.phase]
    · have hq := hheld.free q
      simpa [State.HoldsCompletion, State.setAp, he] using hq
  | read =>
    have hreleased := h.waits p (by simp [ha, Ap.phase])
    simp only [apStep, ha, Option.some.injEq] at hrun
    subst hrun
    exact h.ap_move hoff rfl rfl rfl rfl (by simp [Ap.phase]) (by simp [ha, Ap.phase])
      (fun _ => hreleased) (h.ap_bootstrap hoff (by simp [ha]) rfl rfl (by simp) rfl)
      (h.ap_lastContext hoff rfl rfl (by simp [ha, Ap.installed, Ap.phase]) rfl)
      (h.ap_completion rfl (by simp [State.HoldsCompletion, ha, Ap.phase]) rfl)
      (h.ap_complete rfl (by simp [ha, Ap.phase]) rfl)
      (h.ap_writes rfl (fun n hn => (Ap.write.inj hn).symm) rfl)
  | write n =>
    have hreleased := h.waits p (by simp [ha, Ap.phase])
    have hn := h.writes p n ha
    have hle := h.counted_le
    have hsmall := m.small
    have hadd : add64 n 1 = n + 1 := add64_of_lt (by omega)
    simp only [apStep, ha, Option.some.injEq] at hrun
    subst hrun
    refine h.ap_move hoff rfl rfl rfl rfl (by simp [Ap.phase]) (by simp [ha, Ap.phase])
      (fun _ => hreleased) (h.ap_bootstrap hoff (by simp [ha]) rfl rfl (by simp) rfl)
      (h.ap_lastContext hoff rfl rfl (by simp [ha, Ap.installed, Ap.phase]) rfl)
      (h.ap_completion rfl (by simp [State.HoldsCompletion, ha, Ap.phase]) rfl) ?_ ?_
    · -- the processor itself is the one more that is counted
      have hnot : p ∉ s.counted m := by simp [State.mem_counted, ha, Ap.phase]
      have hins : State.counted m { s.setAp p .finish with complete := add64 n 1 } =
          insert p (s.counted m) := by
        ext q
        by_cases he : q = p
        · simp [State.mem_counted, State.setAp, he, Ap.phase, h.mem_aps hoff]
        · simp [State.mem_counted, State.setAp, he]
      rw [hins, Finset.card_insert_of_notMem hnot, ← h.complete, ← hn, hadd]
    · -- no other one is about to write, the lock is its own
      intro q k hq
      by_cases he : q = p
      · simp [State.setAp, he] at hq
      · simp only [State.setAp, Function.update_of_ne he] at hq
        refine absurd (h.completion.unique q p ?_ ?_) he
        · simp [State.HoldsCompletion, hq, Ap.phase]
        · simp [State.HoldsCompletion, ha, Ap.phase]
  | finish =>
    have hreleased := h.waits p (by simp [ha, Ap.phase])
    simp only [apStep, ha, Option.some.injEq] at hrun
    subst hrun
    refine h.ap_move hoff rfl rfl rfl rfl (by simp [Ap.phase]) (by simp [ha, Ap.phase])
      (fun _ => hreleased) (h.ap_bootstrap hoff (by simp [ha]) rfl rfl (by simp) rfl)
      (h.ap_lastContext hoff rfl rfl (by simp [ha, Ap.installed, Ap.phase]) rfl) ?_
      (h.ap_complete rfl (by simp [ha, Ap.phase]) rfl) (h.ap_writes rfl (by simp) rfl)
    refine h.completion.release (p := p) (by simp [State.HoldsCompletion, ha, Ap.phase]) fun q => ?_
    by_cases he : q = p
    · simp [State.HoldsCompletion, State.setAp, he, Ap.phase]
    · simp [State.HoldsCompletion, State.setAp, he]
  | enable =>
    have hreleased := h.waits p (by simp [ha, Ap.phase])
    simp only [apStep, ha] at hrun
    obtain ⟨⟨e, s'⟩, hpop, rfl⟩ := Option.map_eq_some_iff.mp hrun
    obtain ⟨c, hs'⟩ := popOwn_frame hpop
    rw [hs']
    exact h.ap_move hoff rfl rfl rfl rfl (by simp [Ap.phase]) (by simp [ha, Ap.phase])
      (fun _ => hreleased) (h.ap_bootstrap hoff (by simp [ha]) rfl rfl (by simp) rfl)
      (h.ap_lastContext hoff rfl rfl (by simp [ha, Ap.installed, Ap.phase]) rfl)
      (h.ap_completion rfl (by simp [State.HoldsCompletion, ha, Ap.phase]) rfl)
      (h.ap_complete rfl (by simp [ha, Ap.phase]) rfl) (h.ap_writes rfl (by simp) rfl)
  | running e =>
    simp [apStep, ha] at hrun

/-! ### The kernel that is up -/

theorem Control.of_tasks (h : Control m s) (contexts : List Context) (n : Nat) :
    Control m { s with contexts := contexts, lastId := n } :=
  ⟨h.enable, h.waits, h.count, h.index, h.woken, h.others, h.bootstrap, h.boots, h.lastContext,
    h.completion, h.complete, h.writes, h.done⟩

/-- A processor with a task goes on with another one. -/
theorem Control.set_current {p : Nat} {e : Entry} (h : Control m s)
    (hp : (s.current m p).isSome) : Control m (s.setCurrent m p e) := by
  unfold State.current at hp
  unfold State.setCurrent
  split at hp
  · rename_i he
    cases hb : s.bsp with
    | running e' =>
      rw [if_pos he]
      exact h.bsp_move rfl rfl rfl rfl (h.lastContext_frame rfl (installed_of_bsp rfl
        (by simp [hb, Bsp.installed, Bsp.phase]))) (by simp [hb, Bsp.phase])
        (by simpa [hb, Bsp.phase] using h.enable) (h.count (by simp [hb, Bsp.phase])) (by simp)
        (by simp [hb, Bsp.woken]) (h.bootstrap_frame rfl rfl (by simp [hb]) (by simp))
        (fun q hq => absurd hq (h.no_boot (by simp [hb]) q))
        fun _ => h.done (by simp [hb, Bsp.phase])
    | bootstrap | scan | acquire | wake | await | online | install | load | release | spin
    | enable => simp [hb, Bsp.current] at hp
  · rename_i he
    cases ha : s.ap p with
    | running e' =>
      have hoff : s.ap p ≠ .off := by simp [ha]
      have hreleased := h.waits p (by simp [ha, Ap.phase])
      rw [if_neg he]
      exact h.ap_move hoff rfl rfl rfl rfl (by simp [Ap.phase]) (by simp [ha, Ap.phase])
        (fun _ => hreleased) (h.ap_bootstrap hoff (by simp [ha]) rfl rfl (by simp) rfl)
        (h.ap_lastContext hoff rfl rfl (by simp [ha, Ap.installed, Ap.phase]) rfl)
        (h.ap_completion rfl (by simp [State.HoldsCompletion, ha, Ap.phase]) rfl)
        (h.ap_complete rfl (by simp [ha, Ap.phase]) rfl) (h.ap_writes rfl (by simp) rfl)
    | off | boot | wait | install | count | read | write | finish | enable =>
      simp [ha, Ap.current] at hp

theorem create_frame {p free : Nat} (h : create m p s = some (free, t)) :
    s.creates m p = true ∧ ∃ last own, s.lastContext = some last ∧ s.own p = some own ∧
      free = leastBusy s.contexts own
        (chainFrom s.contexts s.contexts.length s.lastContext) ∧
      t = { s with
        contexts := s.contexts.modify free fun x =>
          { x with queue := x.queue ++ [.task (s.lastId + 1)] }
        lastId := s.lastId + 1 } := by
  unfold create at h
  split at h
  · rename_i hc
    simp only [Option.bind_eq_bind, Option.bind_eq_some_iff] at h
    obtain ⟨last, hlast, own, hown, h⟩ := h
    simp only [Option.pure_def, Option.some.injEq, Prod.mk.injEq] at h
    obtain ⟨rfl, rfl⟩ := h
    exact ⟨hc, last, own, hlast, hown, rfl, rfl⟩
  · cases h

theorem pops_frame {p n : Nat} {e : Entry} (h : pops p n s = some (e, t)) :
    ∃ contexts, t = { s with contexts := contexts } := by
  induction n generalizing s with
  | zero => exact popOwn_frame h
  | succ n ih =>
    simp only [pops, Option.bind_eq_bind, Option.bind_eq_some_iff] at h
    obtain ⟨⟨e', s'⟩, hpop, h⟩ := h
    obtain ⟨contexts, rfl⟩ := popOwn_frame hpop
    obtain ⟨contexts', rfl⟩ := ih h
    exact ⟨contexts', rfl⟩

theorem control_tick {p n : Nat} (h : Control m s) (ht : tick m p n s = some t) : Control m t := by
  unfold tick at ht
  split at ht
  · rename_i hp
    obtain ⟨⟨e, s'⟩, hpops, rfl⟩ := Option.map_eq_some_iff.mp ht
    obtain ⟨contexts, rfl⟩ := pops_frame hpops
    exact (h.of_tasks contexts s.lastId).set_current hp
  · cases ht

theorem control_run {p : Nat} (h : Control m s) (hrun : run m p s = some t) : Control m t := by
  unfold run at hrun
  split at hrun
  · exact control_bsp h hrun
  · exact control_ap h hrun

theorem control_inductive : (smpLTS m).Inductive (Control m) where
  init := by
    rintro s rfl
    exact control_init
  step := by
    intro s l t h hst
    cases l with
    | run p => exact control_run h hst
    | create p free =>
      obtain ⟨-, -, -, -, -, -, rfl⟩ := create_frame hst
      exact h.of_tasks _ _
    | tick p n => exact control_tick h hst

end GaOS.L4.Smp
