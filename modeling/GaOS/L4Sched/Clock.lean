import GaOS.Core.Words

/-!
# Time sources

Model of kernel/src/clock/clock.c and of the two counters that keep the time,
kernel/src/arch/x86_64/timers/tsc.c and hpet.c. What the hardware gives is an argument: the
time-stamp counter, `eax` of `cpuid` 1, and the registers of the HPET. A division by zero is
`none`. The mapping of the HPET's registers is in `L2Paging.Bootstrap`; the loops that wait
for a time to pass are left out.

`register_fastest`: of the sources that were registered, one that is at least as fast as all
others keeps the time.
-/
namespace GaOS.L4.Clock

/-! ## Sources
mirrors kernel/src/clock/clock.h:4-16 -/

/-- The function in `read_nanoseconds`. -/
inductive Reader where
  | none
  | tsc
  | hpet
  deriving DecidableEq, Repr

structure ClockTimeSource where
  timeKeepingCapable : Bool
  ticksPerSecond : Nat
  readNanoseconds : Reader
  oneShotCapable : Bool
  deriving DecidableEq, Repr

/-- `clock_system_timer` and `clock_preemption_timer`. -/
structure Clocks where
  systemTimer : ClockTimeSource
  preemptionTimer : ClockTimeSource
  deriving DecidableEq, Repr

/-- What is in `.bss`. -/
def noSource : ClockTimeSource := ⟨false, 0, .none, false⟩

def Clocks.boot : Clocks := ⟨noSource, noSource⟩

/-- mirrors kernel/src/clock/clock.c:9-28 -/
def clockRegisterTimeSource (c : Clocks) (timeSource : ClockTimeSource) : Clocks :=
  let c := if timeSource.oneShotCapable = true ∧
      c.preemptionTimer.ticksPerSecond < timeSource.ticksPerSecond then
    { c with preemptionTimer := timeSource } else c
  if timeSource.timeKeepingCapable = true ∧
      c.systemTimer.ticksPerSecond < timeSource.ticksPerSecond then
    { c with systemTimer := timeSource } else c

/-! ## The time-stamp counter -/

/-- `arch_tsc_offset` and the rate in `arch_tsc_timer`. -/
structure Tsc where
  offset : Nat
  ticksPerSecond : Nat
  deriving DecidableEq, Repr

/-- Is the processor new enough?
mirrors kernel/src/arch/x86_64/timers/tsc.c:51-60 -/
def constantTsc (eax : Nat) : Bool :=
  let family := eax / 2 ^ 8 % 16
  let model := if 6 ≤ family then eax / 2 ^ 16 * 16 else eax / 2 ^ 4 % 16
  let family := if family = 15 then family + eax / 2 ^ 20 else family
  decide (7 ≤ family ∨ family = 6 ∧ 0xF ≤ model)

/-- The counter before and after 100 ms gives the rate.
mirrors kernel/src/arch/x86_64/timers/tsc.c:63-67 -/
def calibrate (a b : Nat) : Nat := mul64 (sub64 b a) 10

/-- mirrors kernel/src/arch/x86_64/timers/tsc.c:13-20 -/
def tscSource (t : Tsc) : ClockTimeSource := ⟨true, t.ticksPerSecond, .tsc, false⟩

/-- It returns at once without a clock to wait by: of the sources, those with a reader have
`sleep_nanoseconds` too.
mirrors kernel/src/arch/x86_64/timers/tsc.c:41-73 -/
def archTscInit (eax a b : Nat) (t : Tsc) (c : Clocks) : Tsc × Clocks :=
  if c.systemTimer.readNanoseconds = .none then (t, c)
  else if constantTsc eax = true then
    let t := { t with ticksPerSecond := calibrate a b }
    (t, clockRegisterTimeSource c (tscSource t))
  else (t, c)

/-- mirrors kernel/src/arch/x86_64/timers/tsc.c:75-79 -/
def archTscReset (rdtsc : Nat) (t : Tsc) : Tsc := { t with offset := rdtsc }

/-- mirrors kernel/src/arch/x86_64/timers/tsc.c:29-32 -/
def archTscReadNanoseconds (t : Tsc) (rdtsc : Nat) : Option Nat :=
  let perNanosecond := t.ticksPerSecond / 1000000000
  if perNanosecond = 0 then none else some (sub64 rdtsc t.offset / perNanosecond)

/-! ## The HPET -/

/-- `arch_hpet_ticks_to_nanoseconds` and the rate in `arch_hpet_timer`. -/
structure Hpet where
  ticksToNanoseconds : Nat
  ticksPerSecond : Nat
  deriving DecidableEq, Repr

/-- The period of a tick in femtoseconds, a `uint32_t`, from the capabilities.
mirrors kernel/src/arch/x86_64/timers/hpet.c:74 -/
def ticksToFemtoseconds (capabilities : Nat) : Nat := capabilities / 2 ^ 32 % 2 ^ 32

/-- mirrors kernel/src/arch/x86_64/timers/hpet.c:53-60 -/
def hpetSource (t : Hpet) : ClockTimeSource := ⟨true, t.ticksPerSecond, .hpet, false⟩

/-- From the capabilities on.
mirrors kernel/src/arch/x86_64/timers/hpet.c:74-79 -/
def archHpetInit (capabilities : Nat) (c : Clocks) : Option (Hpet × Clocks) :=
  let period := ticksToFemtoseconds capabilities
  if period = 0 then none
  else
    let t : Hpet := ⟨period / 1000000, 1000000000000000 / period % 2 ^ 32⟩
    some (t, clockRegisterTimeSource c (hpetSource t))

/-- mirrors kernel/src/arch/x86_64/timers/hpet.c:41-44 -/
def archHpetReadNanoseconds (t : Hpet) (mainCounter : Nat) : Nat :=
  mul64 mainCounter t.ticksToNanoseconds

/-! ## Registration -/

/-- The clock that keeps the time is one of those that were registered and can, and none of
them is faster. -/
structure Fastest (sources : List ClockTimeSource) (timer : ClockTimeSource) : Prop where
  registered : timer = noSource ∨ timer ∈ sources ∧ timer.timeKeepingCapable = true
  fastest : ∀ s ∈ sources, s.timeKeepingCapable = true → s.ticksPerSecond ≤ timer.ticksPerSecond

theorem clockRegisterTimeSource_system (c : Clocks) (s : ClockTimeSource) :
    (clockRegisterTimeSource c s).systemTimer =
      if s.timeKeepingCapable = true ∧ c.systemTimer.ticksPerSecond < s.ticksPerSecond then s
      else c.systemTimer := by
  have hpre : ∀ b : Prop, [Decidable b] →
      (if b then { c with preemptionTimer := s } else c).systemTimer = c.systemTimer := by
    intro b _
    split <;> rfl
  simp only [clockRegisterTimeSource, hpre]
  split
  · rfl
  · exact hpre _

theorem Fastest.step {sources : List ClockTimeSource} {c : Clocks}
    (h : Fastest sources c.systemTimer) (s : ClockTimeSource) :
    Fastest (sources ++ [s]) (clockRegisterTimeSource c s).systemTimer := by
  rw [clockRegisterTimeSource_system]
  constructor
  · split
    · rename_i hs
      exact .inr ⟨by simp, hs.1⟩
    · rcases h.registered with h | ⟨h, hc⟩
      · exact .inl h
      · exact .inr ⟨by simp [h], hc⟩
  · intro s' hs' hc
    have hold := h.fastest s'
    rcases List.mem_append.mp hs' with hs' | hs'
    · have := hold hs' hc
      split <;> omega
    · rw [List.mem_singleton.mp hs'] at hc ⊢
      split
      · exact Nat.le_refl _
      · rename_i hle
        rw [not_and] at hle
        have := hle hc
        omega

/-- **The fastest source keeps the time.** Whatever is registered, and in which order. -/
theorem register_fastest (sources : List ClockTimeSource) :
    Fastest sources (sources.foldl clockRegisterTimeSource Clocks.boot).systemTimer := by
  suffices ∀ (later earlier : List ClockTimeSource) (c : Clocks), Fastest earlier c.systemTimer →
      Fastest (earlier ++ later) (later.foldl clockRegisterTimeSource c).systemTimer from
    this sources [] Clocks.boot ⟨.inl rfl, by simp⟩
  intro later
  induction later with
  | nil =>
    intro earlier c h
    rwa [List.append_nil]
  | cons s later ih =>
    intro earlier c h
    rw [← List.singleton_append, ← List.append_assoc]
    exact ih _ _ (h.step s)

end GaOS.L4.Clock
