import Mathlib
import So101.Lib.Rounding

/-!
# The core model of binary32 computes rounded results

Lean's model of `Float32` unpacks bits into sign, mantissa and exponent, computes exactly,
and rounds by shifting with two residual bits. Its operations on finite operands are the
operations on rationals followed by rounding to the grid of 24 bits.
-/
namespace FloatModel

open Float.Model
open Float.Model.UnpackedFloat
open Rounding

abbrev rounded (x : ℚ) : ℚ := roundTo 24 (-149) x

def signed (s : Sign) (x : ℚ) : ℚ :=
  match s with
  | .negative => -x
  | .positive => x

def value : UnpackedFloat → Option ℚ
  | .finite s m e _ => some (signed s (m * 2 ^ e))
  | .zero _ => some 0
  | _ => none

/-- The data of the format, apart from the upper end of the exponents. -/
def Canonical : UnpackedFloat → Prop
  | .finite _ m e _ => m < 2 ^ 24 ∧ -149 ≤ e ∧ (2 ^ 23 ≤ m ∨ e = -149)
  | _ => True

/-- The mantissa is the floor, the round bit says whether a half is reached, and the
sticky bit whether anything is left over. -/
structure Represents (em : ExtendedMantissa) (x : ℚ) : Prop where
  floor : ⌊x⌋ = em.mantissa
  half : em.roundBit = true ↔ 1 / 2 ≤ Int.fract x
  rest : em.stickyBit = true ↔ Int.fract x ≠ 0 ∧ Int.fract x ≠ 1 / 2

theorem rounded_mantissa {em : ExtendedMantissa} {x : ℚ} (h : Represents em x) :
    (em.roundedMantissa : ℤ) = nearestEven x := by
  obtain ⟨hfloor, hhalf, hrest⟩ := h
  obtain ⟨m, r, s⟩ := em
  have hnonneg := Int.fract_nonneg x
  unfold nearestEven
  rw [hfloor]
  cases r <;> cases s <;>
    simp only [ExtendedMantissa.roundedMantissa, ExtendedMantissa.accuracy,
      Accuracy.roundToNearestEven, Bool.false_eq_true, false_iff, true_iff, not_le, not_and,
      not_not] at hhalf hrest ⊢
  · rw [if_pos hhalf]
  · rw [if_pos hhalf]
  · have hx : Int.fract x = 1 / 2 := hrest (by linarith)
    rw [if_neg (by linarith), if_neg (by linarith)]
    push_cast
    rfl
  · have hx : 1 / 2 < Int.fract x := lt_of_le_of_ne hhalf (Ne.symm hrest.2)
    rw [if_neg (by linarith), if_pos hx]
    push_cast
    rfl

theorem fract_half {x : ℚ} {q b : ℕ} (hb : b < 2) (hfloor : ⌊x⌋ = (2 * q + b : ℕ)) :
    ⌊x / 2⌋ = q ∧ Int.fract (x / 2) = (b + Int.fract x) / 2 := by
  have hx := Int.floor_add_fract x
  have hnonneg := Int.fract_nonneg x
  have hlt := Int.fract_lt_one x
  rw [hfloor] at hx
  push_cast at hx
  have hbq : (b : ℚ) ≤ 1 := by exact_mod_cast Nat.le_of_lt_succ hb
  have hb0 : (0 : ℚ) ≤ b := Nat.cast_nonneg b
  have hhalf : ⌊x / 2⌋ = (q : ℤ) := by
    apply Int.floor_eq_iff.mpr
    push_cast
    constructor <;> linarith
  refine ⟨hhalf, ?_⟩
  have h := Int.self_sub_floor (x / 2)
  rw [hhalf] at h
  push_cast at h
  linarith

theorem represents_shift_one {em : ExtendedMantissa} {x : ℚ} (h : Represents em x) :
    Represents em.shiftRightOne (x / 2) := by
  obtain ⟨hfloor, hhalf, hrest⟩ := h
  obtain ⟨m, r, s⟩ := em
  obtain ⟨q, b, hb, rfl⟩ : ∃ q b, b < 2 ∧ m = 2 * q + b := ⟨m / 2, m % 2, by omega, by omega⟩
  have hnonneg := Int.fract_nonneg x
  have hlt := Int.fract_lt_one x
  obtain ⟨hfloor', hfract'⟩ := fract_half hb hfloor
  have hdiv : (2 * q + b) / 2 = q := by omega
  have hmod : (2 * q + b) % 2 = b := by omega
  have hany : (r || s) = true ↔ Int.fract x ≠ 0 := by
    rw [Bool.or_eq_true, hhalf, hrest]
    constructor
    · rintro (hle | ⟨hne, _⟩)
      · linarith
      · exact hne
    · intro hne
      by_cases hle : 1 / 2 ≤ Int.fract x
      · exact Or.inl hle
      · exact Or.inr ⟨hne, by linarith⟩
  constructor
  · simp only [ExtendedMantissa.shiftRightOne, hdiv]
    exact hfloor'
  · simp only [ExtendedMantissa.shiftRightOne, hmod, hfract']
    interval_cases b
    · have hsmall : ¬ (1 : ℚ) / 2 ≤ ((0 : ℕ) + Int.fract x) / 2 := by push_cast; linarith
      simp only [hsmall, iff_false]
      decide
    · have hlarge : (1 : ℚ) / 2 ≤ ((1 : ℕ) + Int.fract x) / 2 := by push_cast; linarith
      simp only [hlarge, iff_true]
      decide
  · simp only [ExtendedMantissa.shiftRightOne, hfract', hany]
    interval_cases b
    · constructor
      · intro hne
        push_cast
        exact ⟨fun h => hne (by linarith), by linarith⟩
      · rintro ⟨hne, _⟩ hzero
        exact hne (by rw [hzero]; norm_num)
    · constructor
      · intro hne
        push_cast
        exact ⟨by linarith, fun h => hne (by linarith)⟩
      · rintro ⟨_, hne⟩ hzero
        exact hne (by rw [hzero]; norm_num)

theorem represents_shift {em : ExtendedMantissa} {x : ℚ} (h : Represents em x) (n : ℕ) :
    Represents (em >>> n) (x / 2 ^ n) := by
  change Represents (n.repeat ExtendedMantissa.shiftRightOne em) _
  induction n with
  | zero => simpa [Nat.repeat] using h
  | succ n ih =>
    rw [Nat.repeat, pow_succ, ← div_div]
    exact represents_shift_one ih

/-- What an accuracy says of the part cut off, in units of the last place. -/
def Leaves : Accuracy → ℚ → Prop
  | .exact, f => f = 0
  | .inexact .lt, f => f ≠ 0 ∧ f < 1 / 2
  | .inexact .eq, f => f = 1 / 2
  | .inexact .gt, f => 1 / 2 < f

theorem represents_of {m : ℕ} {acc : Accuracy} {x : ℚ} (hfloor : ⌊x⌋ = m)
    (hacc : Leaves acc (Int.fract x)) :
    Represents (ExtendedMantissa.ofMantissaAndAccuracy m acc) x := by
  constructor
  · rcases acc with _ | o
    · exact hfloor
    · cases o <;> exact hfloor
  · rcases acc with _ | o
    · simp only [ExtendedMantissa.ofMantissaAndAccuracy, Leaves] at hacc ⊢
      norm_num [hacc]
    · cases o <;> simp only [ExtendedMantissa.ofMantissaAndAccuracy, Leaves] at hacc ⊢
      · simpa using hacc.2
      · simp [hacc]
      · simpa using hacc.le
  · rcases acc with _ | o
    · simp only [ExtendedMantissa.ofMantissaAndAccuracy, Leaves] at hacc ⊢
      simp [hacc]
    · cases o <;> simp only [ExtendedMantissa.ofMantissaAndAccuracy, Leaves] at hacc ⊢
      · simp only [true_iff]
        exact ⟨hacc.1, hacc.2.ne⟩
      · simp [hacc]
      · simp only [true_iff]
        exact ⟨by linarith, hacc.ne'⟩

theorem represents_exact (m : ℕ) :
    Represents (ExtendedMantissa.ofMantissaAndAccuracy m .exact) m :=
  represents_of (by simp) (Int.fract_natCast m)

theorem fract_div {b q r : ℕ} (hr : r < b) :
    ⌊((b * q + r : ℕ) : ℚ) / b⌋ = q ∧ Int.fract (((b * q + r : ℕ) : ℚ) / b) = r / b := by
  have hb : (0 : ℚ) < b := by exact_mod_cast (Nat.zero_le r).trans_lt hr
  have hdiv : ((b * q + r : ℕ) : ℚ) / b = q + r / b := by
    rw [div_eq_iff hb.ne', add_mul, div_mul_cancel₀ _ hb.ne']
    push_cast
    ring
  have hlow : (0 : ℚ) ≤ r / b := div_nonneg (Nat.cast_nonneg r) hb.le
  have hhigh : (r : ℚ) / b < 1 := (div_lt_one hb).mpr (by exact_mod_cast hr)
  have hfloor : ⌊((b * q + r : ℕ) : ℚ) / b⌋ = (q : ℤ) := by
    rw [hdiv]
    apply Int.floor_eq_iff.mpr
    push_cast
    constructor <;> linarith
  refine ⟨hfloor, ?_⟩
  have h := Int.self_sub_floor (((b * q + r : ℕ) : ℚ) / b)
  rw [hfloor, hdiv] at h
  rw [hdiv]
  push_cast at h
  linarith

theorem represents_div {a b : ℕ} (hb : 0 < b) :
    Represents (ExtendedMantissa.ofMantissaAndAccuracy (a / b) (accuracyOfFraction (a % b) b))
      ((a : ℚ) / b) := by
  obtain ⟨q, r, hr, rfl⟩ : ∃ q r, r < b ∧ a = b * q + r :=
    ⟨a / b, a % b, Nat.mod_lt a hb, (Nat.div_add_mod a b).symm⟩
  have hquot : (b * q + r) / b = q := by
    rw [Nat.mul_add_div hb, Nat.div_eq_of_lt hr, add_zero]
  have hrest : (b * q + r) % b = r := by rw [Nat.mul_add_mod, Nat.mod_eq_of_lt hr]
  have hbq : (0 : ℚ) < b := by exact_mod_cast hb
  obtain ⟨hfloor, hfract⟩ := fract_div (q := q) hr
  rw [hquot, hrest]
  apply represents_of hfloor
  rw [hfract, accuracyOfFraction]
  split_ifs with h0
  · simp [Leaves, h0]
  · have hne : (r : ℚ) / b ≠ 0 := div_ne_zero (by exact_mod_cast h0) hbq.ne'
    rcases lt_trichotomy (2 * r) b with h | h | h
    · rw [Nat.compare_eq_lt.mpr h]
      have hq : (2 * r : ℚ) < b := by exact_mod_cast h
      refine ⟨hne, ?_⟩
      rw [div_lt_div_iff₀ hbq (by norm_num)]
      linarith
    · rw [Nat.compare_eq_eq.mpr h]
      have hq : (2 * r : ℚ) = b := by exact_mod_cast h
      refine (div_eq_div_iff hbq.ne' (by norm_num)).mpr ?_
      linarith
    · rw [Nat.compare_eq_gt.mpr h]
      have hq : (b : ℚ) < 2 * r := by exact_mod_cast h
      refine (div_lt_div_iff₀ (by norm_num) hbq).mpr ?_
      linarith

def target (m : ℕ) (e : ℤ) : ℤ := Format.binary32.targetExponent (totalExponent m e)

theorem target_eq (m : ℕ) (e : ℤ) : target m e = max (m.log2 + 1 + e - 24) (-149) := by
  simp [target, Format.targetExponent, totalExponent, Format.mantissaBits, Format.minExponent]

theorem log_eq {x : ℚ} {k : ℤ} (hlow : 2 ^ k ≤ x) (hhigh : x < 2 ^ (k + 1)) :
    Int.log 2 x = k := by
  have hpos : 0 < x := lt_of_lt_of_le (by positivity) hlow
  have h₁ : k ≤ Int.log 2 x :=
    (Int.zpow_le_iff_le_log (by norm_num) hpos).mp (by exact_mod_cast hlow)
  have h₂ : Int.log 2 x < k + 1 :=
    (Int.lt_zpow_iff_log_lt (by norm_num) hpos).mp (by exact_mod_cast hhigh)
  omega

theorem floor_bounds {x : ℚ} {m : ℕ} {e : ℤ} (hfloor : ⌊x / 2 ^ e⌋ = m) :
    m * 2 ^ e ≤ x ∧ x < (m + 1) * 2 ^ e := by
  have hpos : (0 : ℚ) < 2 ^ e := by positivity
  obtain ⟨hlow, hhigh⟩ := Int.floor_eq_iff.mp hfloor
  push_cast at hlow hhigh
  exact ⟨(le_div_iff₀ hpos).mp hlow, (div_lt_iff₀ hpos).mp hhigh⟩

theorem exponent_of_floor {x : ℚ} {m : ℕ} {e : ℤ} (hx : 0 ≤ x) (hfloor : ⌊x / 2 ^ e⌋ = m)
    (he : e ≤ target m e) : exponent 24 (-149) x = target m e := by
  obtain ⟨hlow, hhigh⟩ := floor_bounds hfloor
  rw [target_eq] at he ⊢
  rcases Nat.eq_zero_or_pos m with rfl | hm
  · have hle : e ≤ -149 := by
      simp only [Nat.log2_zero] at he
      omega
    have hsmall : |x| < 2 ^ ((-149 : ℤ) + (24 : ℕ)) := by
      rw [abs_of_nonneg hx]
      push_cast at hhigh
      calc x < (0 + 1) * 2 ^ e := hhigh
        _ = 2 ^ e := by ring
        _ ≤ 2 ^ ((-149 : ℤ) + (24 : ℕ)) := zpow_le_zpow_right₀ (by norm_num) (by norm_num; omega)
    have hexp : exponent 24 (-149) x ≤ -149 := exponent_le_of_abs_lt le_rfl hsmall
    have hmin : -149 ≤ exponent 24 (-149) x := emin_le_exponent
    rw [Nat.log2_zero]
    omega
  · have hmq : (2 : ℚ) ^ m.log2 ≤ m := by exact_mod_cast Nat.log2_self_le hm.ne'
    have hmq' : (m + 1 : ℚ) ≤ 2 ^ (m.log2 + 1) := by exact_mod_cast Nat.lt_log2_self (n := m)
    have hpos : (0 : ℚ) < 2 ^ e := by positivity
    have hlog : Int.log 2 |x| = m.log2 + e := by
      rw [abs_of_nonneg hx]
      apply log_eq
      · rw [zpow_add₀ (by norm_num : (2 : ℚ) ≠ 0), zpow_natCast]
        exact (mul_le_mul_of_nonneg_right hmq hpos.le).trans hlow
      · have hup := mul_le_mul_of_nonneg_right hmq' hpos.le
        rw [show (m.log2 : ℤ) + e + 1 = (m.log2 + 1 : ℕ) + e by push_cast; ring,
          zpow_add₀ (by norm_num : (2 : ℚ) ≠ 0), zpow_natCast]
        exact hhigh.trans_le hup
    have hx0 : x ≠ 0 := by
      rintro rfl
      have hm1 : (1 : ℚ) ≤ m := by exact_mod_cast hm
      have := mul_pos (lt_of_lt_of_le one_pos hm1) hpos
      linarith
    rw [exponent_of_ne_zero 24 (-149) hx0, hlog]
    congr 1
    push_cast
    ring

/-- The first shift leaves the rounded multiple of the last place. -/
theorem first_shift {x : ℚ} {m : ℕ} {e : ℤ} {acc : Accuracy} (hx : 0 ≤ x)
    (hrep : Represents (ExtendedMantissa.ofMantissaAndAccuracy m acc) (x / 2 ^ e))
    (hfloor : ⌊x / 2 ^ e⌋ = m) (he : e ≤ target m e) :
    ((shiftToTargetExponent Format.binary32 m e acc).1.roundedMantissa : ℤ) =
        nearestEven (x / 2 ^ exponent 24 (-149) x) ∧
      (shiftToTargetExponent Format.binary32 m e acc).2 = exponent 24 (-149) x := by
  have hexp := exponent_of_floor hx hfloor he
  have hk : ((target m e - e).toNat : ℤ) = target m e - e := Int.toNat_of_nonneg (by omega)
  have hdef : shiftToTargetExponent Format.binary32 m e acc =
      (ExtendedMantissa.ofMantissaAndAccuracy m acc >>> (target m e - e).toNat,
        e + (target m e - e).toNat) := rfl
  have hpow : x / 2 ^ e / 2 ^ (target m e - e).toNat = x / 2 ^ target m e := by
    rw [div_div, ← zpow_natCast, hk, ← zpow_add₀ (by norm_num : (2 : ℚ) ≠ 0)]
    congr 2
    ring
  rw [hdef, hexp]
  constructor
  · rw [rounded_mantissa (represents_shift hrep _), hpow]
  · simp only [hk]
    ring

/-- Rounding up may fill one bit too many. -/
def carry (r : ℕ) (e : ℤ) : ℕ × ℤ := if r = 2 ^ 24 then (2 ^ 23, e + 1) else (r, e)

theorem second_shift {r : ℕ} {e : ℤ} (hr : r ≤ 2 ^ 24) (he : -149 ≤ e) :
    (shiftToTargetExponent Format.binary32 r e .exact).1.mantissa = (carry r e).1 ∧
      (shiftToTargetExponent Format.binary32 r e .exact).2 = (carry r e).2 := by
  have hdef : shiftToTargetExponent Format.binary32 r e .exact =
      (ExtendedMantissa.ofMantissaAndAccuracy r .exact >>> (target r e - e).toNat,
        e + (target r e - e).toNat) := rfl
  rw [hdef]
  unfold carry
  by_cases hfull : r = 2 ^ 24
  · subst hfull
    have htarget : target (2 ^ 24) e = e + 1 := by
      rw [target_eq, Nat.log2_two_pow]
      omega
    have hone : (e + 1 - e).toNat = 1 := by omega
    rw [if_pos rfl, htarget, hone]
    exact ⟨rfl, rfl⟩
  · have hlt : r < 2 ^ 24 := lt_of_le_of_ne hr hfull
    have hlog : r.log2 < 24 := by
      rcases Nat.eq_zero_or_pos r with rfl | hpos
      · rw [Nat.log2_zero]
        norm_num
      · exact (Nat.log2_lt hpos.ne').mpr hlt
    have hzero : (target r e - e).toNat = 0 := by
      rw [target_eq]
      omega
    rw [if_neg hfull, hzero]
    exact ⟨rfl, by simp⟩

theorem pow_mul_zpow (n : ℕ) (e : ℤ) : ((2 ^ n : ℤ) : ℚ) * 2 ^ e = 2 ^ (n + e) := by
  rw [zpow_add₀ (by norm_num : (2 : ℚ) ≠ 0), zpow_natCast]
  push_cast
  rfl

theorem nearest_bounds {x : ℚ} (hx : 0 ≤ x) {r : ℕ}
    (hr : (r : ℤ) = nearestEven (x / 2 ^ exponent 24 (-149) x)) :
    r ≤ 2 ^ 24 ∧ (2 ^ 23 ≤ r ∨ exponent 24 (-149) x = -149) := by
  have hpos : (0 : ℚ) < 2 ^ exponent 24 (-149) x := by positivity
  by_cases h0 : x = 0
  · subst h0
    have hzero : r = 0 := by
      have h := nearest_even_int 0
      rw [Int.cast_zero] at h
      rw [zero_div, h] at hr
      exact_mod_cast hr
    exact ⟨by omega, Or.inr (if_pos rfl)⟩
  have hx0 : 0 < |x| := abs_pos.mpr h0
  have hexp := exponent_of_ne_zero 24 (-149) h0
  have hlow := Int.zpow_log_le_self (R := ℚ) (b := 2) (by norm_num) hx0
  have hhigh := Int.lt_zpow_succ_log_self (R := ℚ) (b := 2) (by norm_num) |x|
  rw [abs_of_nonneg hx] at hexp hlow hhigh
  push_cast at hlow hhigh hexp
  constructor
  · have hle : x / 2 ^ exponent 24 (-149) x ≤ ((2 ^ 24 : ℤ) : ℚ) := by
      rw [div_le_iff₀ hpos, pow_mul_zpow]
      refine hhigh.le.trans (zpow_le_zpow_right₀ (by norm_num) ?_)
      push_cast
      omega
    have hround := nearest_even_mono hle
    rw [nearest_even_int, ← hr] at hround
    exact_mod_cast hround
  · by_cases hmin : exponent 24 (-149) x = -149
    · exact Or.inr hmin
    · left
      have hle : ((2 ^ 23 : ℤ) : ℚ) ≤ x / 2 ^ exponent 24 (-149) x := by
        rw [le_div_iff₀ hpos, pow_mul_zpow]
        refine (zpow_le_zpow_right₀ (by norm_num) ?_).trans hlow
        push_cast
        omega
      have hround := nearest_even_mono hle
      rw [nearest_even_int, ← hr] at hround
      exact_mod_cast hround

theorem signed_zero (s : Sign) : signed s 0 = 0 := by
  cases s <;> simp [signed]

theorem carry_value (r : ℕ) (e : ℤ) : ((carry r e).1 : ℚ) * 2 ^ (carry r e).2 = r * 2 ^ e := by
  unfold carry
  split_ifs with h
  · subst h
    rw [zpow_add₀ (by norm_num : (2 : ℚ) ≠ 0)]
    push_cast
    ring
  · rfl

/-- The model rounds a magnitude, known up to its accuracy, to the grid. -/
theorem round_with_accuracy {s : Sign} {x : ℚ} {m : ℕ} {e : ℤ} {acc : Accuracy} (hx : 0 ≤ x)
    (hrep : Represents (ExtendedMantissa.ofMantissaAndAccuracy m acc) (x / 2 ^ e))
    (hfloor : ⌊x / 2 ^ e⌋ = m) (he : e ≤ target m e) :
    value (roundWithAccuracy Format.binary32 s m e acc) = some (signed s (rounded x)) ∧
      Canonical (roundWithAccuracy Format.binary32 s m e acc) := by
  obtain ⟨hr, hexp⟩ := first_shift hx hrep hfloor he
  have hdef : roundWithAccuracy Format.binary32 s m e acc =
      let first := shiftToTargetExponent Format.binary32 m e acc
      let final := shiftToTargetExponent Format.binary32 first.1.roundedMantissa first.2 .exact
      if h : final.1.mantissa = 0 then .zero s
      else .finite s final.1.mantissa final.2 (Nat.pos_of_ne_zero h) := rfl
  rw [hdef]
  generalize shiftToTargetExponent Format.binary32 m e acc = first at hr hexp
  obtain ⟨hle, hfull⟩ := nearest_bounds hx hr
  have hmin : -149 ≤ exponent 24 (-149) x := emin_le_exponent
  obtain ⟨hmant, hlast⟩ := second_shift (e := first.2) hle (by omega)
  have hval := carry_value first.1.roundedMantissa first.2
  have hround : rounded x = (carry first.1.roundedMantissa first.2).1 *
      2 ^ (carry first.1.roundedMantissa first.2).2 := by
    rw [hval, hexp, rounded, roundTo, ← hr]
    push_cast
    rfl
  simp only
  generalize shiftToTargetExponent Format.binary32 first.1.roundedMantissa first.2 .exact = final
    at hmant hlast
  rw [← hmant, ← hlast] at hround
  split_ifs with h0
  · rw [h0, Nat.cast_zero, zero_mul] at hround
    exact ⟨by rw [hround, signed_zero]; rfl, trivial⟩
  · refine ⟨by rw [hround]; rfl, ?_⟩
    simp only [Canonical, hmant, hlast]
    unfold carry
    split_ifs with hcarry
    · exact ⟨by norm_num, by simp only; omega, Or.inl le_rfl⟩
    · refine ⟨lt_of_le_of_ne hle hcarry, by simp only; omega, ?_⟩
      rw [hexp]
      exact hfull

theorem log2_mul_pow {m : ℕ} (hm : 0 < m) (k : ℕ) : (m * 2 ^ k).log2 = m.log2 + k := by
  have hpos : 0 < 2 ^ k := Nat.two_pow_pos k
  rw [Nat.log2_eq_iff (Nat.mul_pos hm hpos).ne']
  constructor
  · rw [pow_add]
    exact Nat.mul_le_mul_right _ (Nat.log2_self_le hm.ne')
  · rw [show m.log2 + k + 1 = m.log2 + 1 + k by ring, pow_add]
    exact Nat.mul_lt_mul_of_pos_right Nat.lt_log2_self hpos

theorem decrease_exponent (m : ℕ) (e t : ℤ) :
    decreaseExponent m e t = (m * 2 ^ (e - t).toNat, e - (e - t).toNat) := by
  simp [decreaseExponent, Nat.shiftLeft_eq]

theorem decrease_value (m k : ℕ) (e : ℤ) : ((m * 2 ^ k : ℕ) : ℚ) * 2 ^ (e - k) = m * 2 ^ e := by
  rw [zpow_sub₀ (by norm_num : (2 : ℚ) ≠ 0), zpow_natCast]
  push_cast
  have hpos : (2 : ℚ) ^ k ≠ 0 := by positivity
  rw [mul_assoc, mul_div_cancel₀ _ hpos]

theorem round_exact {s : Sign} {m : ℕ} {e : ℤ} (he : e ≤ target m e) :
    value (roundWithAccuracy Format.binary32 s m e .exact) =
        some (signed s (rounded (m * 2 ^ e))) ∧
      Canonical (roundWithAccuracy Format.binary32 s m e .exact) := by
  have hpos : (2 : ℚ) ^ e ≠ 0 := by positivity
  have hdiv : (m * 2 ^ e : ℚ) / 2 ^ e = m := mul_div_cancel_right₀ _ hpos
  apply round_with_accuracy (by positivity)
  · rw [hdiv]
    exact represents_exact m
  · rw [hdiv]
    simp
  · exact he

theorem round_value {s : Sign} {m : ℕ} (hm : 0 < m) (e : ℤ) :
    value (UnpackedFloat.round Format.binary32 s m e) = some (signed s (rounded (m * 2 ^ e))) ∧
      Canonical (UnpackedFloat.round Format.binary32 s m e) := by
  have hdef : UnpackedFloat.round Format.binary32 s m e =
      roundWithAccuracy Format.binary32 s (decreaseExponent m e (target m e)).1
        (decreaseExponent m e (target m e)).2 .exact := rfl
  have hle : e - (e - target m e).toNat ≤
      target (m * 2 ^ (e - target m e).toNat) (e - (e - target m e).toNat) := by
    have hlog := log2_mul_pow hm (e - target m e).toNat
    rw [target_eq (m * 2 ^ _), hlog]
    have htarget := target_eq m e
    push_cast
    omega
  have h := round_exact (s := s) hle
  rw [decrease_value] at h
  rw [hdef, decrease_exponent]
  exact h

theorem signed_neg (s : Sign) (x : ℚ) : signed (-s) x = -signed s x := by
  cases s
  · exact (neg_neg x).symm
  · rfl

theorem normalize_value (n e : ℤ) (zs : Sign) :
    value (normalize Format.binary32 n e zs) = some (rounded (n * 2 ^ e)) ∧
      Canonical (normalize Format.binary32 n e zs) := by
  unfold UnpackedFloat.normalize
  rcases lt_trichotomy n 0 with h | h | h
  · rw [Int.compare_eq_lt.mpr h]
    obtain ⟨hval, hcan⟩ := round_value (s := .negative) (m := (-n).toNat) (by omega) e
    have hcast : (((-n).toNat : ℕ) : ℚ) = -n := by
      have hint : (((-n).toNat : ℕ) : ℤ) = -n := Int.toNat_of_nonneg (by omega)
      exact_mod_cast hint
    rw [hcast, neg_mul] at hval
    refine ⟨?_, hcan⟩
    rw [hval, rounded, round_to_neg]
    simp [signed]
  · subst h
    rw [Int.cast_zero, zero_mul, rounded, round_to_zero]
    exact ⟨rfl, trivial⟩
  · rw [Int.compare_eq_gt.mpr h]
    obtain ⟨hval, hcan⟩ := round_value (s := .positive) (m := n.toNat) (by omega) e
    have hcast : ((n.toNat : ℕ) : ℚ) = n := by
      have hint : ((n.toNat : ℕ) : ℤ) = n := Int.toNat_of_nonneg (by omega)
      exact_mod_cast hint
    rw [hcast] at hval
    exact ⟨hval, hcan⟩

theorem rounded_signed (s : Sign) (x : ℚ) : rounded (signed s x) = signed s (rounded x) := by
  cases s
  · exact round_to_neg
  · rfl

theorem signed_int (s : Sign) (m : ℕ) : ((s.apply m : ℤ) : ℚ) = signed s m := by
  cases s <;> simp [Sign.apply, signed]

theorem signed_mul_pow (s : Sign) (x y : ℚ) : signed s x * y = signed s (x * y) := by
  cases s
  · exact neg_mul x y
  · rfl

theorem canonical_rounded {f : UnpackedFloat} {q : ℚ} (hf : Canonical f) (hq : value f = some q) :
    rounded q = q := by
  cases f with
  | infinity s => cases hq
  | notANumber => cases hq
  | zero s =>
    obtain rfl := Option.some_inj.mp hq
    exact round_to_zero
  | finite s m e hm =>
    obtain rfl := Option.some_inj.mp hq
    obtain ⟨hbits, he, _⟩ := hf
    have habs : |(m : ℤ)| < 2 ^ 24 := by
      rw [Nat.abs_cast]
      exact_mod_cast hbits
    have hself := round_to_eq_self (p := 24) he habs
    rw [Int.cast_natCast] at hself
    rw [rounded_signed, rounded, hself]

theorem neg_value {f : UnpackedFloat} {q : ℚ} (hq : value f = some q) :
    value f.neg = some (-q) := by
  cases f with
  | infinity s => cases hq
  | notANumber => cases hq
  | zero s =>
    obtain rfl := Option.some_inj.mp hq
    rw [neg_zero]
    rfl
  | finite s m e hm =>
    obtain rfl := Option.some_inj.mp hq
    rw [← signed_neg]
    rfl

theorem neg_canonical {f : UnpackedFloat} (hf : Canonical f) : Canonical f.neg := by
  cases f <;> exact hf

theorem aligned_value (s : Sign) (m : ℕ) {e t : ℤ} (h : t ≤ e) :
    ((s.apply (decreaseExponent m e t).1 : ℤ) : ℚ) * 2 ^ t = signed s (m * 2 ^ e) := by
  have ht : e - (e - t).toNat = t := by omega
  have hval := decrease_value m (e - t).toNat e
  rw [ht] at hval
  rw [decrease_exponent, signed_int, signed_mul_pow, hval]

theorem add_value {f g : UnpackedFloat} {p q : ℚ} (hf : Canonical f) (hg : Canonical g)
    (hp : value f = some p) (hq : value g = some q) :
    value (UnpackedFloat.add Format.binary32 f g) = some (rounded (p + q)) ∧
      Canonical (UnpackedFloat.add Format.binary32 f g) := by
  cases f with
  | infinity s => cases hp
  | notANumber => cases hp
  | zero s =>
    obtain rfl := Option.some_inj.mp hp
    cases g with
    | infinity t => cases hq
    | notANumber => cases hq
    | zero t =>
      obtain rfl := Option.some_inj.mp hq
      rw [add_zero, rounded, round_to_zero]
      cases s <;> cases t <;> exact ⟨rfl, trivial⟩
    | finite t n d hn =>
      have hround := canonical_rounded hg hq
      rw [zero_add, hround]
      exact ⟨hq, hg⟩
  | finite s m e hm =>
    cases g with
    | infinity t => cases hq
    | notANumber => cases hq
    | zero t =>
      have hround := canonical_rounded hf hp
      obtain rfl := Option.some_inj.mp hq
      rw [add_zero, hround]
      exact ⟨hp, hf⟩
    | finite t n d hn =>
      have hdef : UnpackedFloat.add Format.binary32 (.finite s m e hm) (.finite t n d hn) =
          normalize Format.binary32 (s.apply (decreaseExponent m e (min e d)).1 +
            t.apply (decreaseExponent n d (min e d)).1) (min e d) .positive := rfl
      have hsum := normalize_value (s.apply (decreaseExponent m e (min e d)).1 +
        t.apply (decreaseExponent n d (min e d)).1) (min e d) .positive
      obtain rfl := Option.some_inj.mp hp
      obtain rfl := Option.some_inj.mp hq
      rw [Int.cast_add, add_mul, aligned_value s m (min_le_left e d),
        aligned_value t n (min_le_right e d)] at hsum
      rw [hdef]
      exact hsum

theorem sub_eq (f g : UnpackedFloat) :
    UnpackedFloat.sub Format.binary32 f g = UnpackedFloat.add Format.binary32 f g.neg := by
  have happly : ∀ (t : Sign) (n : ℤ), (-t).apply n = -t.apply n := by
    intro t n
    cases t
    · exact (neg_neg n).symm
    · rfl
  cases f with
  | finite s m e hm =>
    cases g with
    | finite t n d hn =>
      change normalize Format.binary32 (s.apply (decreaseExponent m e (min e d)).1 -
          t.apply (decreaseExponent n d (min e d)).1) (min e d) .positive =
        normalize Format.binary32 (s.apply (decreaseExponent m e (min e d)).1 +
          (-t).apply (decreaseExponent n d (min e d)).1) (min e d) .positive
      rw [happly, sub_eq_add_neg]
    | _ => rfl
  | _ => cases g <;> rfl

theorem sub_value {f g : UnpackedFloat} {p q : ℚ} (hf : Canonical f) (hg : Canonical g)
    (hp : value f = some p) (hq : value g = some q) :
    value (UnpackedFloat.sub Format.binary32 f g) = some (rounded (p - q)) ∧
      Canonical (UnpackedFloat.sub Format.binary32 f g) := by
  rw [sub_eq, sub_eq_add_neg]
  exact add_value hf (neg_canonical hg) hp (neg_value hq)

theorem signed_mul (s t : Sign) (x y : ℚ) : signed (s * t) (x * y) = signed s x * signed t y := by
  cases s <;> cases t
  · exact (neg_mul_neg x y).symm
  · exact (neg_mul x y).symm
  · exact (mul_neg x y).symm
  · rfl

theorem signed_div (s t : Sign) (x y : ℚ) : signed (s / t) (x / y) = signed s x / signed t y := by
  cases s <;> cases t
  · exact (neg_div_neg_eq x y).symm
  · exact (neg_div y x).symm
  · exact (div_neg x).symm
  · rfl

/-- A product of two mantissas has bits enough, or both are at the least exponent. -/
theorem mul_le_target {m n : ℕ} {e d : ℤ} (hm : 0 < m) (hn : 0 < n)
    (hme : 2 ^ 23 ≤ m ∨ e = -149) (hnd : 2 ^ 23 ≤ n ∨ d = -149) :
    e + d ≤ target (m * n) (e + d) := by
  have hlog : ∀ k, 2 ^ 23 ≤ k → 23 ≤ k.log2 := by
    intro k hk
    exact (Nat.le_log2 (by omega)).mpr hk
  rw [target_eq]
  rcases hme with hm' | rfl
  · have h := hlog _ (hm'.trans (Nat.le_mul_of_pos_right m hn))
    omega
  rcases hnd with hn' | rfl
  · have h := hlog _ (hn'.trans (Nat.le_mul_of_pos_left n hm))
    omega
  · omega

theorem mul_value {f g : UnpackedFloat} {p q : ℚ} (hf : Canonical f) (hg : Canonical g)
    (hp : value f = some p) (hq : value g = some q) :
    value (UnpackedFloat.mul Format.binary32 f g) = some (rounded (p * q)) ∧
      Canonical (UnpackedFloat.mul Format.binary32 f g) := by
  cases f with
  | infinity s => cases hp
  | notANumber => cases hp
  | zero s =>
    obtain rfl := Option.some_inj.mp hp
    rw [zero_mul, rounded, round_to_zero]
    cases g with
    | infinity t => cases hq
    | notANumber => cases hq
    | zero t => exact ⟨rfl, trivial⟩
    | finite t n d hn => exact ⟨rfl, trivial⟩
  | finite s m e hm =>
    cases g with
    | infinity t => cases hq
    | notANumber => cases hq
    | zero t =>
      obtain rfl := Option.some_inj.mp hq
      rw [mul_zero, rounded, round_to_zero]
      exact ⟨rfl, trivial⟩
    | finite t n d hn =>
      have hround := round_exact (s := s * t) (mul_le_target hm hn hf.2.2 hg.2.2)
      obtain rfl := Option.some_inj.mp hp
      obtain rfl := Option.some_inj.mp hq
      have hprod : ((m * n : ℕ) : ℚ) * 2 ^ (e + d) = m * 2 ^ e * (n * 2 ^ d) := by
        rw [zpow_add₀ (by norm_num : (2 : ℚ) ≠ 0)]
        push_cast
        ring
      rw [hprod, ← rounded_signed, signed_mul] at hround
      exact hround

theorem quotient_le_target {m n : ℕ} {e d t : ℤ} (hm : 0 < m) (hn : 0 < n) (ht : t ≤ e - d)
    (htarget : t ≤ Format.binary32.targetExponent (totalExponent m e - totalExponent n d)) :
    t ≤ target (m * 2 ^ (e - d - t).toNat / n) t := by
  have hexp : Format.binary32.targetExponent (totalExponent m e - totalExponent n d) =
      max ((m.log2 : ℤ) + 1 + e - (n.log2 + 1 + d) - 24) (-149) := by
    simp [Format.targetExponent, totalExponent, Format.mantissaBits, Format.minExponent]
  rw [hexp] at htarget
  rw [target_eq]
  rcases le_or_gt t (-149) with hmin | hmin
  · omega
  · have hlog : n.log2 + 24 ≤ m.log2 + (e - d - t).toNat := by omega
    have hquot : 2 ^ 23 ≤ m * 2 ^ (e - d - t).toNat / n := by
      rw [Nat.le_div_iff_mul_le hn]
      calc 2 ^ 23 * n ≤ 2 ^ 23 * 2 ^ (n.log2 + 1) := Nat.mul_le_mul_left _ Nat.lt_log2_self.le
        _ = 2 ^ (n.log2 + 24) := by rw [← pow_add]; congr 1; omega
        _ ≤ 2 ^ (m.log2 + (e - d - t).toNat) := Nat.pow_le_pow_right (by norm_num) hlog
        _ = 2 ^ m.log2 * 2 ^ (e - d - t).toNat := pow_add _ _ _
        _ ≤ m * 2 ^ (e - d - t).toNat := Nat.mul_le_mul_right _ (Nat.log2_self_le hm.ne')
    have hbits := (Nat.le_log2 (by omega)).mpr hquot
    omega

theorem div_value {f g : UnpackedFloat} {p q : ℚ} (hp : value f = some p) (hq : value g = some q)
    (hq0 : q ≠ 0) : value (UnpackedFloat.div Format.binary32 f g) = some (rounded (p / q)) ∧
      Canonical (UnpackedFloat.div Format.binary32 f g) := by
  cases g with
  | infinity t => cases hq
  | notANumber => cases hq
  | zero t => exact absurd (Option.some_inj.mp hq).symm hq0
  | finite t n d hn =>
    cases f with
    | infinity s => cases hp
    | notANumber => cases hp
    | zero s =>
      obtain rfl := Option.some_inj.mp hp
      rw [zero_div, rounded, round_to_zero]
      exact ⟨rfl, trivial⟩
    | finite s m e hm =>
      obtain rfl := Option.some_inj.mp hp
      obtain rfl := Option.some_inj.mp hq
      obtain ⟨k, hk⟩ : ∃ k, k = min (e - d)
          (Format.binary32.targetExponent (totalExponent m e - totalExponent n d)) := ⟨_, rfl⟩
      have hdef : UnpackedFloat.div Format.binary32 (.finite s m e hm) (.finite t n d hn) =
          roundWithAccuracy Format.binary32 (s / t) (m * 2 ^ (e - d - k).toNat / n) k
            (accuracyOfFraction (m * 2 ^ (e - d - k).toNat % n) n) := by
        rw [hk, ← Nat.shiftLeft_eq]
        rfl
      have hle := quotient_le_target hm hn (hk.trans_le (min_le_left _ _))
        (hk.trans_le (min_le_right _ _))
      have hquot : (m * 2 ^ e / (n * 2 ^ d) : ℚ) / 2 ^ k =
          ((m * 2 ^ (e - d - k).toNat : ℕ) : ℚ) / n := by
        have hexp : ((e - d - k).toNat : ℤ) = e - d - k := Int.toNat_of_nonneg (by omega)
        have hpow : (2 : ℚ) ^ (e - d - k).toNat = 2 ^ e / 2 ^ d / 2 ^ k := by
          rw [← zpow_natCast, hexp, zpow_sub₀ (by norm_num : (2 : ℚ) ≠ 0),
            zpow_sub₀ (by norm_num : (2 : ℚ) ≠ 0)]
        push_cast
        rw [hpow]
        field_simp
      have hrep := represents_div (a := m * 2 ^ (e - d - k).toNat) hn
      rw [← hquot] at hrep
      have hfloor := hrep.floor
      have hround := round_with_accuracy (s := s / t) (by positivity) hrep
        (by rw [hfloor]; cases accuracyOfFraction (m * 2 ^ (e - d - k).toNat % n) n with
          | exact => rfl
          | inexact o => cases o <;> rfl) hle
      rw [hdef, ← signed_div, rounded_signed]
      exact hround

theorem magnitude_lt {m n : ℕ} {e d : ℤ} (hm : m < 2 ^ 24) (he : -149 ≤ e)
    (hnd : 2 ^ 23 ≤ n ∨ d = -149) (h : e < d) : (m * 2 ^ e : ℚ) < n * 2 ^ d := by
  have hfull : 2 ^ 23 ≤ n := hnd.resolve_right (by omega)
  have hmq : (m : ℚ) < 2 ^ 24 := by exact_mod_cast hm
  have hnq : (2 ^ 23 : ℚ) ≤ n := by exact_mod_cast hfull
  have hpos : (0 : ℚ) < 2 ^ e := by positivity
  calc (m * 2 ^ e : ℚ) < 2 ^ 24 * 2 ^ e := mul_lt_mul_of_pos_right hmq hpos
    _ = 2 ^ 23 * 2 ^ (e + 1) := by rw [zpow_add_one₀ (by norm_num : (2 : ℚ) ≠ 0)]; ring
    _ ≤ 2 ^ 23 * 2 ^ d :=
      mul_le_mul_of_nonneg_left (zpow_le_zpow_right₀ (by norm_num) (by omega)) (by norm_num)
    _ ≤ n * 2 ^ d := mul_le_mul_of_nonneg_right hnq (by positivity)

theorem compare_magnitudes {m n : ℕ} {e d : ℤ} (hm : m < 2 ^ 24) (hn : n < 2 ^ 24)
    (hme : -149 ≤ e ∧ (2 ^ 23 ≤ m ∨ e = -149)) (hnd : -149 ≤ d ∧ (2 ^ 23 ≤ n ∨ d = -149)) :
    (compare e d).then (compare m n) = .lt ↔ (m * 2 ^ e : ℚ) < n * 2 ^ d := by
  rcases lt_trichotomy e d with h | h | h
  · rw [Int.compare_eq_lt.mpr h]
    exact iff_of_true rfl (magnitude_lt hm hme.1 hnd.2 h)
  · subst h
    have hpos : (0 : ℚ) < 2 ^ e := by positivity
    rw [Int.compare_eq_eq.mpr rfl, mul_lt_mul_iff_left₀ hpos]
    simp only [Ordering.then]
    rw [Nat.compare_eq_lt]
    exact Nat.cast_lt.symm
  · rw [Int.compare_eq_gt.mpr h]
    exact iff_of_false (by simp [Ordering.then]) (magnitude_lt hn hnd.1 hme.2 h).not_gt

theorem swap_compare (m n : ℕ) (e d : ℤ) : ((compare e d).then (compare m n)).swap =
    (compare d e).then (compare n m) := by
  rw [Ordering.swap_then, Int.compare_swap, Nat.compare_swap]

theorem lt_value {f g : UnpackedFloat} {p q : ℚ} (hf : Canonical f) (hg : Canonical g)
    (hp : value f = some p) (hq : value g = some q) : UnpackedFloat.lt f g = true ↔ p < q := by
  have hsome : ∀ o : Ordering, (some o == some Ordering.lt) = true ↔ o = .lt := by decide
  have hpos : ∀ {m : ℕ} {e : ℤ}, 0 < m → (0 : ℚ) < m * 2 ^ e := by
    intro m e hm
    have hmq : (0 : ℚ) < m := by exact_mod_cast hm
    positivity
  unfold UnpackedFloat.lt
  cases f with
  | infinity s => cases hp
  | notANumber => cases hp
  | zero s =>
    obtain rfl := Option.some_inj.mp hp
    cases g with
    | infinity t => cases hq
    | notANumber => cases hq
    | zero t =>
      obtain rfl := Option.some_inj.mp hq
      exact iff_of_false Bool.false_ne_true (lt_irrefl 0)
    | finite t n d hn =>
      obtain rfl := Option.some_inj.mp hq
      cases t
      · exact iff_of_false Bool.false_ne_true (not_lt.mpr (neg_nonpos.mpr (hpos hn).le))
      · exact iff_of_true rfl (hpos hn)
  | finite s m e hm =>
    obtain rfl := Option.some_inj.mp hp
    cases g with
    | infinity t => cases hq
    | notANumber => cases hq
    | zero t =>
      obtain rfl := Option.some_inj.mp hq
      cases s
      · exact iff_of_true rfl (neg_neg_iff_pos.mpr (hpos hm))
      · exact iff_of_false Bool.false_ne_true (hpos hm).not_gt
    | finite t n d hn =>
      obtain rfl := Option.some_inj.mp hq
      cases s <;> cases t
      · change (some ((compare e d).then (compare m n)).swap == some Ordering.lt) = true ↔ _
        rw [swap_compare, hsome, compare_magnitudes hg.1 hf.1 hg.2 hf.2]
        exact neg_lt_neg_iff.symm
      · exact iff_of_true rfl ((neg_neg_iff_pos.mpr (hpos hm)).trans (hpos hn))
      · exact iff_of_false Bool.false_ne_true
          ((neg_neg_iff_pos.mpr (hpos hn)).trans (hpos hm)).not_gt
      · change (some ((compare e d).then (compare m n)) == some Ordering.lt) = true ↔ _
        rw [hsome]
        exact compare_magnitudes hf.1 hg.1 hf.2 hg.2

theorem round_to_int_eq (s : Sign) (m : ℕ) (e : ℤ) :
    roundToInt s m e = s.apply (⌊(m * 2 ^ e : ℚ)⌋.toNat) := by
  have hdef : roundToInt s m e = s.apply (ExtendedMantissa.ofMantissaAndAccuracy
      (decreaseExponent m e 0).1 .exact >>> (0 - (decreaseExponent m e 0).2).toNat).mantissa := rfl
  have hval := decrease_value m (e - 0).toNat e
  have hrep := represents_shift (represents_exact (m * 2 ^ (e - 0).toNat))
    (0 - (e - (e - 0).toNat)).toNat
  have hexp : e - (e - 0).toNat = -((0 - (e - (e - 0).toNat)).toNat : ℤ) := by omega
  have hsame : ((m * 2 ^ (e - 0).toNat : ℕ) : ℚ) / 2 ^ (0 - (e - (e - 0).toNat)).toNat =
      m * 2 ^ e := by
    rw [← hval]
    generalize (0 - (e - (e - 0).toNat)).toNat = k at hexp ⊢
    rw [hexp, zpow_neg, zpow_natCast]
    rfl
  rw [hdef, decrease_exponent]
  have hfloor := hrep.floor
  rw [hsame] at hfloor
  rw [hfloor]
  rfl

theorem to_int_value {f : UnpackedFloat} {q : ℚ} (lo hi : ℤ) (hq : value f = some q) :
    (0 ≤ q → f.toInt lo hi = ⌊q⌋) ∧ (q ≤ 0 → f.toInt lo hi = -⌊-q⌋) := by
  cases f with
  | infinity s => cases hq
  | notANumber => cases hq
  | zero s =>
    obtain rfl := Option.some_inj.mp hq
    simp [UnpackedFloat.toInt]
  | finite s m e hm =>
    obtain rfl := Option.some_inj.mp hq
    have hmq : (0 : ℚ) < m := by exact_mod_cast hm
    have hpos : (0 : ℚ) < m * 2 ^ e := by positivity
    have hfloor : ((⌊(m * 2 ^ e : ℚ)⌋.toNat : ℕ) : ℤ) = ⌊(m * 2 ^ e : ℚ)⌋ :=
      Int.toNat_of_nonneg (Int.floor_nonneg.mpr hpos.le)
    rw [UnpackedFloat.toInt, round_to_int_eq]
    cases s
    · simp only [signed, Sign.apply, hfloor, neg_neg]
      exact ⟨fun h => absurd h (not_le.mpr (neg_neg_iff_pos.mpr hpos)), fun _ => trivial⟩
    · simp only [signed, Sign.apply, hfloor]
      exact ⟨fun _ => trivial, fun h => absurd h (not_le.mpr hpos)⟩

end FloatModel
