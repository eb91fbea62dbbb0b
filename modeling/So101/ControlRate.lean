import So101.FixedGrid
import So101.FloatLaws
import So101.Lib.DoubleFormat

/-!
# The control rate and its period

`main` takes any rate that is not zero or less, and `control_thread` divides a second by it
and truncates. The period is a positive number of nanoseconds for the rates from about
10^-10 Hz to 10^9 Hz. For faster ones it is zero, and the loop that catches up with the
clock never ends; for slower ones the quotient has no 64-bit value. With a period the loop
ends as long as 64 bits leave a slot for the clock.
-/
namespace ControlRate

open ControlThread DoubleFormat Rounding SlotGrid FixedGrid
open Calibration (truncRat)
open SharedMemory (U32 int64_mem)

structure Options where
  leaderCalib : Option String
  followerCalib : Option String
  freq : Double
  maxStep : ℤ
  rampStep : ℤ

/-- The option check, negated: with `true` the daemon goes on. -/
def Options.accepted (o : Options) : Bool :=
  !(o.leaderCalib.isNone || o.followerCalib.isNone || o.freq.le (ofRat 0) ||
    decide (o.maxStep ≤ 0) || decide (o.rampStep ≤ 0))

/-- `(int64_t)x`; without a value where the conversion is undefined. -/
def toInt64 : Double → Option ℤ
  | .finite q _ =>
    if -2 ^ 63 ≤ truncRat q ∧ truncRat q < 2 ^ 63 then some (truncRat q) else none
  | _ => none

def nsecPerSec : ℚ := 1000000000

/-- `(int64_t)((double)NSEC_PER_SEC / c->freq)` -/
def controlPeriod (freq : Double) : Option ℤ := toInt64 ((ofRat nsecPerSec).div freq)

/-- The loop gets to a slot that is not in the past, and no sum on the way overflows. -/
def EndsOnGrid (period next now : ℤ) : Prop :=
  ∀ missed : U32, ∃ n k : ℕ,
    (catchUp period now n (next, missed)).1 = next + k * period ∧ now ≤ next + k * period

/-- The period is at least 1 ns, and the loop at the end of a cycle ends from `next`. -/
def CatchUpEnds (freq : Double) (next now : ℤ) : Prop :=
  ∃ period, controlPeriod freq = some period ∧ 1 ≤ period ∧ EndsOnGrid period next now

theorem catch_up_lt (period now next : ℤ) (missed : U32) (n : ℕ) (h : next < 2 ^ 63) :
    (catchUp period now n (next, missed)).1 < 2 ^ 63 := by
  induction n generalizing next missed with
  | zero => exact h
  | succ n ih =>
    by_cases hlate : next < now
    · rw [catchUp, if_pos hlate]
      exact ih _ _ (int64_mem _).2
    · rw [catchUp, if_neg hlate]
      exact h

/-- From a 64-bit value the loop ends exactly when a slot of its grid is left for `now`. -/
theorem ends_on_grid_iff {period next now : ℤ} (hperiod : 1 ≤ period)
    (hlow : -2 ^ 63 ≤ next) (hhigh : next < 2 ^ 63) :
    EndsOnGrid period next now ↔ Reachable period (2 ^ 63) now next := by
  constructor
  · intro hends
    obtain ⟨n, k, hslot, hreach⟩ := hends 0
    have hlimit := catch_up_lt period now next 0 n hhigh
    rw [hslot] at hlimit
    exact ⟨k, by rwa [nsmul_eq_mul], by rwa [nsmul_eq_mul]⟩
  · intro hreach missed
    have hpos : 0 < period := by omega
    have hstops := stops_of_reachable hpos.le (adds_period hpos hlow) (slots_le hpos hlow) hreach
    have hslot := hstops.slot
    have hleast := hstops.least.1
    rw [nsmul_eq_mul] at hslot
    change now ≤ next + _ • period at hleast
    rw [nsmul_eq_mul] at hleast
    refine ⟨slotValues, _, ?_, hleast⟩
    rw [catch_up_rounds]
    exact hslot

/-- A period of time before the last 64-bit reading, the loop ends from every slot. -/
theorem reachable_of_early {period next now : ℤ} (hperiod : 1 ≤ period) (hhigh : next < 2 ^ 63)
    (hnow : now + period ≤ 2 ^ 63) : Reachable period (2 ^ 63) now next := by
  rcases le_or_gt now next with hle | hlt
  · exact ⟨0, by simpa using hle, by simpa using hhigh⟩
  · have hpos : 0 < period := by omega
    -- the first slot that is not in the past
    have hrem := Int.emod_nonneg (now - next - 1) hpos.ne'
    have hless := Int.emod_lt_of_pos (now - next - 1) hpos
    have hdiv := Int.mul_ediv_add_emod (now - next - 1) period
    have hquot : 0 ≤ (now - next - 1) / period := Int.ediv_nonneg (by omega) hpos.le
    refine ⟨((now - next - 1) / period).toNat + 1, ?_, ?_⟩ <;>
      rw [nsmul_eq_mul, Nat.cast_succ, Int.toNat_of_nonneg hquot, add_mul, one_mul, mul_comm] <;>
      omega

theorem to_int64_of_pos {x : ℚ} (hx : 0 < x) :
    toInt64 (ofRat x) = if rounded x < 2 ^ 63 then some ⌊rounded x⌋ else none := by
  have hnonneg : 0 ≤ rounded x := round_to_nonneg hx.le
  have htrunc : truncRat (rounded x) = ⌊rounded x⌋ := FloatLaws.trunc_rat_of_nonneg hnonneg
  have hfloor : 0 ≤ ⌊rounded x⌋ := Int.floor_nonneg.mpr hnonneg
  have hrange : ⌊rounded x⌋ < 2 ^ 63 ↔ rounded x < 2 ^ 63 := by
    rw [Int.floor_lt]
    push_cast
    rfl
  by_cases hbound : |rounded x| < 2 ^ 1024
  · simp only [ofRat, dif_pos hbound, toInt64, htrunc, hrange]
    have hlow : -2 ^ 63 ≤ ⌊rounded x⌋ := by omega
    simp only [hlow, true_and]
  · have hlarge : ¬ rounded x < 2 ^ 63 := by
      intro hsmall
      apply hbound
      rw [abs_of_nonneg hnonneg]
      exact hsmall.trans_le (pow_le_pow_right₀ (by norm_num) (by norm_num))
    rw [if_neg hlarge, ofRat, dif_neg hbound]
    rfl

theorem nsec_finite : IsFinite nsecPerSec := by
  have h := int_finite (n := 1000000000) (by decide)
  exact_mod_cast h

theorem control_period_of_pos {q : ℚ} (h : IsFinite q) (hq : 0 < q) :
    controlPeriod (.finite q h) = if rounded (nsecPerSec / q) < 2 ^ 63 then
      some ⌊rounded (nsecPerSec / q)⌋ else none := by
  have hquot : 0 < nsecPerSec / q := div_pos (by norm_num [nsecPerSec]) hq
  rw [← to_int64_of_pos hquot, controlPeriod, of_rat_finite nsec_finite, Double.div,
    if_neg hq.ne']

theorem period_in_range_iff {q : ℚ} (hq : 0 < q) :
    rounded (nsecPerSec / q) < 2 ^ 63 ↔ 1000000000 / (2 ^ 63 - 512) < q := by
  have hquot : 0 < nsecPerSec / q := div_pos (by norm_num [nsecPerSec]) hq
  have hround : rounded (nsecPerSec / q) < 2 ^ (63 : ℤ) ↔ _ :=
    round_to_lt_zpow_iff (by decide) (by decide) hquot
  have hmid : (2 : ℚ) ^ (63 : ℤ) - 2 ^ ((63 : ℤ) - (53 : ℕ)) / 2 = 2 ^ 63 - 512 := by norm_num
  have hlimit : (2 : ℚ) ^ (63 : ℤ) = 2 ^ 63 := by norm_num
  rw [hmid, hlimit] at hround
  have hpos : (0 : ℚ) < 2 ^ 63 - 512 := by norm_num
  rw [rounded, hround, nsecPerSec, div_lt_iff₀ hq, div_lt_iff₀ hpos, mul_comm]

/-- A rate above 10^9 Hz is above it by a last place, which takes the quotient below the
midpoint before 1. -/
theorem period_pos_iff {q : ℚ} (h : IsFinite q) (hq : 0 < q) :
    1 ≤ rounded (nsecPerSec / q) ↔ q ≤ 1000000000 := by
  have hquot : 0 < nsecPerSec / q := div_pos (by norm_num [nsecPerSec]) hq
  constructor
  · contrapose!
    intro hfast
    -- 10^9 in units of the last place, 2^-23
    have hnext : (8388608000000000 + 1) * 2 ^ (-23 : ℤ) ≤ q := by
      have hbig : (2 : ℚ) ^ (29 : ℤ) ≤ q := le_trans (by norm_num) hfast.le
      have hstep := h.next_le hbig (m := 8388608000000000)
      push_cast at hstep
      apply hstep
      refine lt_of_eq_of_lt ?_ hfast
      norm_num
    have hround : rounded (nsecPerSec / q) < 2 ^ (0 : ℤ) ↔ _ :=
      round_to_lt_zpow_iff (by decide) (by decide) hquot
    rw [zpow_zero] at hround
    apply hround.mpr
    rw [nsecPerSec, div_lt_iff₀ hq]
    norm_num at hnext ⊢
    linarith
  · intro hslow
    have hone : (1 : ℚ) ≤ nsecPerSec / q := by
      rw [le_div_iff₀ hq, one_mul]
      exact hslow
    have hmono : rounded 1 ≤ rounded (nsecPerSec / q) := round_to_mono (by decide) hone
    have hself : rounded ((1 : ℤ) : ℚ) = (1 : ℤ) := (int_finite (by decide)).grid
    rw [Int.cast_one] at hself
    exact hself.symm.le.trans hmono

/-- Below 2^63 the format has no number above the longest period. -/
theorem rounded_le_longest {x : ℚ} (h : rounded x < 2 ^ 63) : rounded x ≤ longestPeriod := by
  by_contra! hlarge
  have hself : rounded (rounded x) = rounded x := round_to_idem (by decide)
  have hlow : (2 : ℚ) ^ (62 : ℤ) ≤ rounded x := le_trans (by norm_num [longestPeriod]) hlarge.le
  have hplace : (62 : ℤ) + 1 - (53 : ℕ) = 10 := by norm_num
  have hnext := next_grid_le hself hlow (m := 2 ^ 53 - 1)
  rw [hplace] at hnext
  have hlimit := hnext (lt_of_eq_of_lt (by norm_num [longestPeriod]) hlarge)
  norm_num at hlimit
  exact absurd h hlimit.not_gt

/-- The double below 2^63 is the largest that `(int64_t)` takes, so no period is longer. -/
theorem control_period_le {freq : Double} {period : ℤ} (h : controlPeriod freq = some period) :
    period ≤ longestPeriod := by
  rw [controlPeriod] at h
  cases hquot : (ofRat nsecPerSec).div freq with
  | nan =>
    rw [hquot] at h
    cases h
  | infinite negative =>
    rw [hquot] at h
    cases h
  | finite q hq =>
    rw [hquot, toInt64] at h
    split_ifs at h with hrange
    obtain rfl := Option.some.inj h
    by_cases hneg : q < 0
    · have hzero : q ≤ ((0 : ℤ) : ℚ) := by exact_mod_cast hneg.le
      have htrunc := (FloatLaws.trunc_rat_mem (Int.floor_le q) hzero).2
      exact htrunc.trans (by decide)
    · rw [FloatLaws.trunc_rat_of_nonneg (not_lt.mp hneg)] at hrange ⊢
      have hlt : q < 2 ^ 63 := by
        have hfloor := Int.floor_lt.mp hrange.2
        exact_mod_cast hfloor
      rw [← hq.grid] at hlt
      have hle := rounded_le_longest hlt
      rw [hq.grid] at hle
      exact_mod_cast (Int.floor_le q).trans hle

/-- The rate, in Hz, has a period of at least 1 ns that fits in 64 bits and leaves a slot
for `now`. -/
def InRange (freq : Double) (next now : ℤ) : Prop :=
  ∃ q h, freq = .finite q h ∧ 1000000000 / (2 ^ 63 - 512) < q ∧ q ≤ 1000000000 ∧
    Reachable ⌊rounded (nsecPerSec / q)⌋ (2 ^ 63) now next

theorem period_in_range {freq : Double} {next now : ℤ} (hpos : (ofRat 0).lt freq = true) :
    (∃ period, controlPeriod freq = some period ∧ 1 ≤ period ∧
      Reachable period (2 ^ 63) now next) ↔ InRange freq next now := by
  rw [of_rat_finite zero_finite] at hpos
  cases freq with
  | nan => cases hpos
  | infinite negative =>
    -- an infinite rate gives the period 0
    have hperiod : controlPeriod (.infinite negative) = some 0 := by
      rw [controlPeriod, of_rat_finite nsec_finite, Double.div, of_rat_finite zero_finite]
      rfl
    constructor
    · rintro ⟨period, hsome, hone, _⟩
      rw [hperiod] at hsome
      cases hsome
      omega
    · rintro ⟨q, h, heq, _⟩
      cases heq
  | finite q h =>
    have hq : 0 < q := of_decide_eq_true hpos
    rw [control_period_of_pos h hq]
    have hfloor : 1 ≤ ⌊rounded (nsecPerSec / q)⌋ ↔ 1 ≤ rounded (nsecPerSec / q) := by
      rw [Int.le_floor]
      push_cast
      rfl
    constructor
    · rintro ⟨period, hsome, hone, hslot⟩
      by_cases hrange : rounded (nsecPerSec / q) < 2 ^ 63
      · rw [if_pos hrange] at hsome
        cases hsome
        exact ⟨q, h, rfl, (period_in_range_iff hq).mp hrange,
          (period_pos_iff h hq).mp (hfloor.mp hone), hslot⟩
      · rw [if_neg hrange] at hsome
        cases hsome
    · rintro ⟨q', h', heq, hlow, hhigh, hslot⟩
      cases heq
      rw [if_pos ((period_in_range_iff hq).mpr hlow)]
      exact ⟨_, rfl, hfloor.mpr ((period_pos_iff h hq).mpr hhigh), hslot⟩

/-- Of the rates above zero that `main` accepts, the catch-up loop ends for those in range. -/
theorem catch_up_ends_iff (o : Options) (_haccepted : o.accepted = true)
    (hpos : (ofRat 0).lt o.freq = true) (next now : ℤ) (hlow : -2 ^ 63 ≤ next)
    (hhigh : next < 2 ^ 63) : CatchUpEnds o.freq next now ↔ InRange o.freq next now := by
  rw [← period_in_range hpos, CatchUpEnds]
  constructor
  · rintro ⟨period, hsome, hone, hends⟩
    exact ⟨period, hsome, hone, (ends_on_grid_iff hone hlow hhigh).mp hends⟩
  · rintro ⟨period, hsome, hone, hslot⟩
    exact ⟨period, hsome, hone, (ends_on_grid_iff hone hlow hhigh).mpr hslot⟩

def atRate (freq : Double) : Options where
  leaderCalib := some "leader.json"
  followerCalib := some "follower.json"
  freq := freq
  maxStep := 50
  rampStep := 6

theorem int_rate {n : ℤ} (h : |n| < 2 ^ 53) : ofRat (n : ℚ) = .finite n (int_finite h) :=
  of_rat_finite (int_finite h)

theorem int_rate_accepted {n : ℤ} (h : |n| < 2 ^ 53) (hpos : 0 < n) :
    (atRate (ofRat (n : ℚ))).accepted = true ∧ (ofRat 0).lt (ofRat (n : ℚ)) = true := by
  simp [Options.accepted, atRate, int_rate h, of_rat_finite zero_finite, Double.le, Double.lt,
    hpos]

def slowestRate : ℚ := (8388608000000001 : ℤ) * 2 ^ (-86 : ℤ)

theorem longest_period_accepted : (atRate (ofRat slowestRate)).accepted = true ∧
    controlPeriod (ofRat slowestRate) = some longestPeriod := by
  have hpos : 0 < slowestRate := by norm_num [slowestRate]
  have hfinite : IsFinite slowestRate := by
    refine ⟨round_to_eq_self (by decide) (by decide), ?_⟩
    rw [abs_of_pos hpos]
    exact lt_of_lt_of_le (by norm_num [slowestRate] : slowestRate < 1) (one_le_pow₀ (by norm_num))
  have hrange : rounded (nsecPerSec / slowestRate) < 2 ^ 63 :=
    (period_in_range_iff hpos).mpr (by norm_num [slowestRate])
  have hround : rounded (nsecPerSec / slowestRate) = longestPeriod := by
    have hnear := @round_to_near 53 (-1074) (nsecPerSec / slowestRate) 62 (2 ^ 53 - 1) (by decide)
    norm_num [nsecPerSec, slowestRate, longestPeriod] at hnear ⊢
    exact hnear
  constructor
  · simp [Options.accepted, atRate, of_rat_finite hfinite, of_rat_finite zero_finite, Double.le,
      hpos]
  · rw [of_rat_finite hfinite, control_period_of_pos hfinite hpos, if_pos hrange, hround,
      Int.floor_intCast]

/-- The default rate of 100 Hz. -/
theorem catch_up_ends_100 : CatchUpEnds (ofRat (100 : ℤ)) 10000000 45000000 := by
  obtain ⟨haccepted, hpos⟩ := int_rate_accepted (n := 100) (by decide) (by decide)
  apply (catch_up_ends_iff (atRate (ofRat (100 : ℤ))) haccepted hpos 10000000 45000000
    (by decide) (by decide)).mpr
  have hself : rounded ((10000000 : ℤ) : ℚ) = (10000000 : ℤ) := (int_finite (by decide)).grid
  have hvalue : nsecPerSec / (100 : ℤ) = (10000000 : ℤ) := by norm_num [nsecPerSec]
  refine ⟨(100 : ℤ), int_finite (by decide), int_rate (by decide), ?_, ?_, ?_⟩
  · norm_num
  · norm_num
  · rw [hvalue, hself, Int.floor_intCast]
    exact reachable_of_early (by decide) (by decide) (by decide)

/-- At 2 GHz the period is zero, and a late cycle never gets out of the loop. -/
theorem catch_up_never_ends :
    (atRate (ofRat (2000000000 : ℤ))).accepted = true ∧
      controlPeriod (ofRat (2000000000 : ℤ)) = some 0 ∧
      ¬ CatchUpEnds (ofRat (2000000000 : ℤ)) 0 1 ∧
      ∀ n, (catchUp 0 1 n (0, 0)).1 < 1 := by
  obtain ⟨haccepted, _⟩ := int_rate_accepted (n := 2000000000) (by decide) (by decide)
  have hhalf : rounded (nsecPerSec / (2000000000 : ℤ)) = 1 / 2 := by
    have hself : rounded ((1 : ℤ) * 2 ^ (-1 : ℤ)) = (1 : ℤ) * 2 ^ (-1 : ℤ) :=
      round_to_eq_self (by decide) (by decide)
    have hvalue : nsecPerSec / (2000000000 : ℤ) = (1 : ℤ) * 2 ^ (-1 : ℤ) := by
      norm_num [nsecPerSec]
    rw [hvalue, hself]
    norm_num
  have hperiod : controlPeriod (ofRat (2000000000 : ℤ)) = some 0 := by
    rw [int_rate (by decide), control_period_of_pos _ (by norm_num), hhalf]
    norm_num
  refine ⟨haccepted, hperiod, ?_, ?_⟩
  · rintro ⟨period, hsome, hone, _⟩
    rw [hperiod] at hsome
    cases hsome
    omega
  · intro n
    have hstays : ∀ k, (addPeriod 0)^[k] 0 = 0 := fun k => Function.iterate_fixed rfl k
    rw [catch_up_rounds, hstays]
    exact Int.one_pos

end ControlRate
