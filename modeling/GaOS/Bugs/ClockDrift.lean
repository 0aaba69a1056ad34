import Mathlib.Algebra.Order.Field.Basic
import Mathlib.Algebra.Order.Field.Rat
import Mathlib.Tactic.FieldSimp
import Mathlib.Tactic.Ring
import GaOS.L4Sched.Clock

/-!
# The clocks drift

`arch_tsc_read_nanoseconds` (kernel/src/arch/x86_64/timers/tsc.c:29-32) divides the ticks by
the ticks of a nanosecond, and `arch_hpet_read_nanoseconds`
(kernel/src/arch/x86_64/timers/hpet.c:41-44) multiplies them by the nanoseconds of a tick.
Both factors were rounded down to whole numbers before, so the error grows with the time that
passed; and the time-stamp counter of a processor below 1 GHz has no whole tick in a
nanosecond, so the division is by zero. `acpi_pm_timer_read_nanoseconds`
(kernel/src/devices/timers/acpi_pm/pm.c:86) multiplies before it divides.

`clocks_accurate_iff` is the exact condition. With `q` the ticks of a nanosecond rounded down,
`d` ticks of a counter of `f` Hz are converted to within a nanosecond and a tick iff `q` is not 0
and `d * (f % 10^9) < q * (f + 10^9) + (d % q) * f`. For the HPET with a period of `F`
femtoseconds it is `c * (F % 10^6) < F + 10^6`.

Counterexample: a time-stamp counter of 500 MHz; one of 2.5 GHz, which shows 1.25 s after one
second; and the usual HPET of 14.318 MHz, which loses 12 ms in a second.

Fix: multiply before the division, in 128 bits.
-/
namespace GaOS.Bugs.ClockDrift

open GaOS.L4.Clock

/-! ## What should hold -/

/-- A reading is less than a nanosecond and a tick away from the exact time. -/
def Accurate (nanoseconds : Nat) (exact period : ℚ) : Prop :=
  |(nanoseconds : ℚ) - exact| < 1 + period

/-- The reading when the time-stamp counter is at `rdtsc`. -/
def TscAccurate (t : Tsc) (rdtsc : Nat) : Prop :=
  ∃ n, archTscReadNanoseconds t rdtsc = some n ∧
    Accurate n ((sub64 rdtsc t.offset * 10 ^ 9 : Nat) / (t.ticksPerSecond : Nat))
      ((10 ^ 9 : Nat) / (t.ticksPerSecond : Nat))

/-- The reading after `c` ticks of `period` femtoseconds. -/
def HpetAccurate (t : Hpet) (period c : Nat) : Prop :=
  Accurate (archHpetReadNanoseconds t c) ((c * period : Nat) / (10 ^ 6 : Nat))
    ((period : Nat) / (10 ^ 6 : Nat))

/-! ## The condition -/

/-- The rounded rate is good enough for `d` ticks at `f` Hz. -/
def TscExact (f d : Nat) : Prop :=
  10 ^ 9 ≤ f ∧ d * (f % 10 ^ 9) < f / 10 ^ 9 * (f + 10 ^ 9) + d % (f / 10 ^ 9) * f

/-- The rounded period is good enough for `c` ticks. -/
def HpetExact (period c : Nat) : Prop := c * (period % 10 ^ 6) < period + 10 ^ 6

instance (f d : Nat) : Decidable (TscExact f d) := inferInstanceAs (Decidable (_ ∧ _))

instance (period c : Nat) : Decidable (HpetExact period c) := inferInstanceAs (Decidable (_ < _))

/-! ## Rational errors as sums of whole numbers -/

theorem accurate_iff {n x y m : Nat} (hm : 0 < m) :
    Accurate n ((x : Nat) / (m : Nat)) ((y : Nat) / (m : Nat)) ↔ |(n * m : Int) - x| < m + y := by
  have hq : (0 : ℚ) < m := by exact_mod_cast hm
  have hdiff : (n : ℚ) - (x : ℚ) / m = (n * m - x) / m := by field_simp
  have hsum : 1 + (y : ℚ) / m = (m + y) / m := by field_simp
  unfold Accurate
  rw [hdiff, hsum, abs_div, abs_of_pos hq, div_lt_div_iff_of_pos_right hq]
  exact_mod_cast Iff.rfl

/-- The error of the time-stamp counter, times `f`: the rounded rate makes it too large by
`n * r`, the rounded division too small by less than `f`. -/
theorem tsc_error_iff {f d q r n s : Nat} (hf : f = q * 10 ^ 9 + r) (hd : d = q * n + s)
    (hs : s < q) :
    |(n * f : Int) - (d * 10 ^ 9 : Nat)| < f + (10 ^ 9 : Nat) ↔
      d * r < q * (f + 10 ^ 9) + s * f := by
  have herr : (n * f : Int) - (d * 10 ^ 9 : Nat) = (n * r : Nat) - (s * 10 ^ 9 : Nat) := by
    rw [hf, hd]
    push_cast
    ring
  have hlow : s * 10 ^ 9 < f := by omega
  have hscaled : n * r < f + 10 ^ 9 + s * 10 ^ 9 ↔ d * r < q * (f + 10 ^ 9) + s * f := by
    have hl : d * r = q * (n * r) + s * r := by
      rw [hd]
      ring
    have hr : q * (f + 10 ^ 9) + s * f = q * (f + 10 ^ 9 + s * 10 ^ 9) + s * r := by
      rw [show s * f = s * (q * 10 ^ 9 + r) by rw [← hf]]
      ring
    rw [hl, hr, Nat.add_lt_add_iff_right, Nat.mul_lt_mul_left (by omega)]
  rw [herr, abs_lt, ← hscaled]
  omega

/-- **The time-stamp counter.** -/
theorem tscAccurate_iff {t : Tsc} (rdtsc : Nat) (hf : 0 < t.ticksPerSecond) :
    TscAccurate t rdtsc ↔ TscExact t.ticksPerSecond (sub64 rdtsc t.offset) := by
  unfold TscAccurate TscExact
  generalize hd : sub64 rdtsc t.offset = d
  by_cases hq : t.ticksPerSecond / 1000000000 = 0
  · -- the division is by zero
    have hnone : archTscReadNanoseconds t rdtsc = none := if_pos hq
    rw [hnone]
    refine iff_of_false (fun h => ?_) (fun h => by omega)
    obtain ⟨n, h, -⟩ := h
    cases h
  · have hsome : archTscReadNanoseconds t rdtsc = some (d / (t.ticksPerSecond / 10 ^ 9)) := by
      rw [← hd]
      exact if_neg hq
    have hmod := Nat.mod_lt d (Nat.pos_of_ne_zero hq)
    rw [← tsc_error_iff (Nat.div_add_mod' _ _).symm (Nat.div_add_mod d _).symm hmod, hsome]
    simp only [Option.some.injEq, exists_eq_left', accurate_iff hf]
    constructor
    · intro h
      exact ⟨by omega, h⟩
    · intro h
      exact h.2

/-- **The HPET.** -/
theorem hpetAccurate_iff {period c : Nat} {t : Hpet} (ht : t.ticksToNanoseconds = period / 10 ^ 6)
    (hlt : c * period < 2 ^ 64) : HpetAccurate t period c ↔ HpetExact period c := by
  have hle : c * (period / 10 ^ 6) ≤ c * period := Nat.mul_le_mul_left c (Nat.div_le_self _ _)
  have hread : archHpetReadNanoseconds t c = c * (period / 10 ^ 6) := by
    rw [archHpetReadNanoseconds, ht, mul64_of_lt (by omega)]
  have hsplit : c * period = c * (period / 10 ^ 6) * 10 ^ 6 + c * (period % 10 ^ 6) := by
    rw [Nat.mul_assoc, ← Nat.mul_add, Nat.div_add_mod']
  unfold HpetAccurate HpetExact
  rw [accurate_iff (by decide), hread, hsplit]
  generalize c * (period / 10 ^ 6) = n
  generalize c * (period % 10 ^ 6) = e
  rw [abs_lt]
  omega

/-- **When the clocks are right.** For every rate of the time-stamp counter that was measured
and every value of it, and for every period of the HPET and every count whose time in
femtoseconds is a 64-bit number. -/
theorem clocks_accurate_iff {t : Tsc} (rdtsc : Nat) (hf : 0 < t.ticksPerSecond)
    {capabilities c : Nat} (clocks : Clocks) (hpos : 0 < ticksToFemtoseconds capabilities)
    (hlt : c * ticksToFemtoseconds capabilities < 2 ^ 64) :
    (TscAccurate t rdtsc ↔ TscExact t.ticksPerSecond (sub64 rdtsc t.offset)) ∧
    ∃ hpet clocks', archHpetInit capabilities clocks = some (hpet, clocks') ∧
      (HpetAccurate hpet (ticksToFemtoseconds capabilities) c ↔
        HpetExact (ticksToFemtoseconds capabilities) c) := by
  refine ⟨tscAccurate_iff rdtsc hf, _, _, if_neg (by omega), ?_⟩
  exact hpetAccurate_iff rfl hlt

/-! ## Examples -/

/-- The capabilities of the usual HPET: a tick takes 69841279 fs. -/
def usualHpet : Nat := 69841279 * 2 ^ 32

/-- A second of a counter of 3 GHz, and the first 84 ticks of the HPET. -/
theorem three_gigahertz_accurate : TscAccurate ⟨0, 3000000000⟩ 3000000000 ∧
    ∃ t clocks, archHpetInit usualHpet Clocks.boot = some (t, clocks) ∧
      HpetAccurate t 69841279 84 := by
  have htsc : 0 < (⟨0, 3000000000⟩ : Tsc).ticksPerSecond := by decide
  have hcount : 84 * ticksToFemtoseconds usualHpet < 2 ^ 64 := by decide
  obtain ⟨h3, t, clocks, hinit, hiff⟩ :=
    clocks_accurate_iff 3000000000 htsc Clocks.boot (by decide) hcount
  exact ⟨h3.mpr (by decide), t, clocks, hinit, hiff.mpr (by decide)⟩

/-- **The clocks of three machines.** A time-stamp counter of 500 MHz becomes the system's clock,
and every reading of it divides by zero; one of 2.5 GHz shows 1.25 s after a second; the usual
HPET shows 0.988 s. -/
theorem clocks_drift : ∃ hpet clocks t clocks',
    archHpetInit usualHpet Clocks.boot = some (hpet, clocks) ∧
    archTscInit 0x906EA 0 50000000 (archTscReset 0 ⟨0, 0⟩) clocks = (t, clocks') ∧
    clocks'.systemTimer.readNanoseconds = .tsc ∧ t.ticksPerSecond = 500000000 ∧
    (∀ rdtsc, archTscReadNanoseconds t rdtsc = none ∧ ¬TscAccurate t rdtsc) ∧
    archTscReadNanoseconds ⟨0, calibrate 0 250000000⟩ 2500000000 = some 1250000000 ∧
    ¬TscAccurate ⟨0, calibrate 0 250000000⟩ 2500000000 ∧
    archHpetReadNanoseconds hpet 14318180 = 987954420 ∧ ¬HpetAccurate hpet 69841279 14318180 := by
  have hslow : ∀ rdtsc, archTscReadNanoseconds ⟨0, 500000000⟩ rdtsc = none := fun _ => rfl
  refine ⟨⟨69, 14318179⟩, ⟨hpetSource ⟨69, 14318179⟩, noSource⟩, ⟨0, 500000000⟩,
    ⟨tscSource ⟨0, 500000000⟩, noSource⟩, by decide, by decide, rfl, rfl,
    fun rdtsc => ⟨hslow rdtsc, ?_⟩, by decide, ?_, by decide, ?_⟩
  · rintro ⟨n, hn, -⟩
    rw [hslow] at hn
    cases hn
  · rw [tscAccurate_iff _ (by decide)]
    decide
  · rw [hpetAccurate_iff rfl (by decide)]
    decide

end GaOS.Bugs.ClockDrift
