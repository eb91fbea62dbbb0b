import So101.FloatLaws

/-!
# The calibration map in float arithmetic

`calib_normalize` keeps within its interval and `calib_unnormalize` within the range of
the joint, whatever the rounding; the two ends of a range are met exactly.
-/
namespace CalibrationMap

open FloatLaws RoundedFloat
open Calibration (CalibJoint CFloat calibNormalize calibUnnormalize)
open Calibration.CFloat

/-- The ends of the range as `calib_load` leaves them: two `int` values in order. -/
structure RangeOk (j : CalibJoint) : Prop where
  min_int : -2 ^ 31 ≤ j.rangeMin
  lt : j.rangeMin < j.rangeMax
  max_int : j.rangeMax < 2 ^ 31

/-- The conversion to `float` keeps the ends apart. -/
def EndsDiffer (F : Type*) [CFloat F] (j : CalibJoint) : Prop :=
  lt (ofInt j.rangeMin : F) (ofInt j.rangeMax) = true

section Parts

variable {F : Type*} [CFloat F] (j : CalibJoint)

/-- `u` of `calib_normalize`. -/
def share (raw : ℤ) : F :=
  let lo : F := ofInt j.rangeMin
  let hi : F := ofInt j.rangeMax
  let v : F := ofInt raw
  let v := if lt v lo then lo else v
  let v := if lt hi v then hi else v
  (v - lo) / (hi - lo)

/-- The mapping of `u` to the normalized position. -/
def stretch (u : F) : F :=
  if j.isGripper then
    let n := u * ofInt 100
    if j.driveMode ≠ 0 then ofInt 100 - n else n
  else
    let n := u * ofInt 200 - ofInt 100
    if j.driveMode ≠ 0 then -n else n

theorem calib_normalize_eq (raw : ℤ) : (calibNormalize j raw : F) = stretch j (share j raw) := rfl

/-- `u` of `calib_unnormalize`. -/
def fraction (norm : F) : F :=
  if j.isGripper then
    let norm := if j.driveMode ≠ 0 then ofInt 100 - norm else norm
    let norm := if lt norm (ofInt 0) then ofInt 0 else norm
    let norm := if lt (ofInt 100) norm then ofInt 100 else norm
    norm / ofInt 100
  else
    let norm := if j.driveMode ≠ 0 then -norm else norm
    let norm := if lt norm (ofInt (-100)) then ofInt (-100) else norm
    let norm := if lt (ofInt 100) norm then ofInt 100 else norm
    (norm + ofInt 100) / ofInt 200

/-- The number that `calib_unnormalize` converts to `int`. -/
def scaled (norm : F) : F :=
  fraction j norm * ofInt (j.rangeMax - j.rangeMin) + ofInt j.rangeMin

theorem calib_unnormalize_eq (norm : F) : calibUnnormalize j norm = trunc (scaled j norm) := rfl

end Parts

variable {F : Type*} [RoundedFloat F] {j : CalibJoint}

theorem ends_value (hj : RangeOk j) (hends : EndsDiffer F j) : ∃ a b : ℚ,
    value (ofInt j.rangeMin : F) = some a ∧ value (ofInt j.rangeMax : F) = some b ∧
      |a| ≤ 2 ^ 31 ∧ |b| ≤ 2 ^ 31 ∧ 1 ≤ b - a := by
  obtain ⟨hmin, hlt, hmax⟩ := hj
  have hlo : value (ofInt j.rangeMin : F) = some (rnd F j.rangeMin) :=
    value_of_int _ (abs_le.mpr ⟨by omega, by omega⟩)
  have hhi : value (ofInt j.rangeMax : F) = some (rnd F j.rangeMax) :=
    value_of_int _ (abs_le.mpr ⟨by omega, by omega⟩)
  obtain ⟨m, hm⟩ := rnd_whole (F := F) j.rangeMin
  obtain ⟨n, hn⟩ := rnd_whole (F := F) j.rangeMax
  have hsep : rnd F j.rangeMin < rnd F j.rangeMax := (lt_iff hlo hhi).mp hends
  have hbound : ∀ {i : ℤ}, -2 ^ 31 ≤ i → i < 2 ^ 31 → |rnd F (i : ℚ)| ≤ 2 ^ 31 := by
    intro i hi hi'
    apply abs_rnd_le
    exact_mod_cast abs_le.mpr ⟨hi, hi'.le⟩
  refine ⟨_, _, hlo, hhi, hbound hmin (by omega), hbound (by omega) hmax, ?_⟩
  rw [hm, hn] at hsep ⊢
  have hmn : m < n := by exact_mod_cast hsep
  have hstep : m + 1 ≤ n := hmn
  have hq : ((m + 1 : ℤ) : ℚ) ≤ n := by exact_mod_cast hstep
  push_cast at hq
  linarith

theorem ends_differ_of_small (hmin : |j.rangeMin| < 2 ^ 24) (hmax : |j.rangeMax| < 2 ^ 24)
    (hlt : j.rangeMin < j.rangeMax) : EndsDiffer F j := by
  apply (lt_iff (of_int_value hmin) (of_int_value hmax)).mpr
  exact_mod_cast hlt

/-- The distances from the low end are rounded before they are divided. -/
theorem share_value (hj : RangeOk j) (hends : EndsDiffer F j) {raw : ℤ} (hraw : |raw| ≤ 2 ^ 31) :
    ∃ a b : ℚ, value (ofInt j.rangeMin : F) = some a ∧ value (ofInt j.rangeMax : F) = some b ∧
      1 ≤ rnd F (b - a) ∧ 0 ≤ rnd F (min (max (rnd F raw) a) b - a) ∧
      rnd F (min (max (rnd F raw) a) b - a) ≤ rnd F (b - a) ∧
      value (share j raw : F) =
        some (rnd F (rnd F (min (max (rnd F raw) a) b - a) / rnd F (b - a))) := by
  obtain ⟨a, b, ha, hb, hale, hble, hab⟩ := ends_value hj hends
  have hv : value (ofInt raw : F) = some (rnd F raw) := value_of_int _ (by omega)
  have hp := value_min (value_max hv ha) hb
  set p := min (max (rnd F raw) a) b with hpdef
  have hap : a ≤ p := le_min (le_max_right _ _) (by linarith)
  have hpb : p ≤ b := min_le_right _ _
  obtain ⟨halo, hahi⟩ := abs_le.mp hale
  obtain ⟨hblo, hbhi⟩ := abs_le.mp hble
  have hnum := value_sub hp ha (abs_le.mpr ⟨by linarith, by linarith⟩)
  have hden := value_sub hb ha (abs_le.mpr ⟨by linarith, by linarith⟩)
  have hone : (1 : ℚ) ≤ rnd F (b - a) := by
    have h := le_rnd (F := F) (n := 1) (by norm_num) (by simpa using hab)
    simpa using h
  have hzero : (0 : ℚ) ≤ rnd F (p - a) := by
    have h := le_rnd (F := F) (n := 0) (by norm_num) (q := p - a) (by simpa using hap)
    simpa using h
  have hle : rnd F (p - a) ≤ rnd F (b - a) := rnd_mono (by linarith)
  refine ⟨a, b, ha, hb, hone, hzero, hle, ?_⟩
  refine value_div hnum hden (by linarith) ?_
  rw [abs_of_nonneg (div_nonneg hzero (by linarith))]
  exact ((div_le_one (by linarith)).mpr hle).trans (by norm_num)

theorem share_between (hj : RangeOk j) (hends : EndsDiffer F j) {raw : ℤ}
    (hraw : |raw| ≤ 2 ^ 31) : Between (share j raw : F) 0 1 := by
  obtain ⟨a, b, _, _, hone, hzero, hle, hval⟩ := share_value hj hends hraw
  have h := between_rnd (l := 0) (h := 1) hval (by norm_num) (by norm_num)
    (by simpa using div_nonneg hzero (by linarith))
    (by simpa using (div_le_one (by linarith)).mpr hle)
  simpa using h

theorem stretch_between {u : F} (hu : Between u 0 1) : Between (stretch j u) (-100) 100 := by
  have h100 := between_int (F := F) (n := 100) (by norm_num)
  have h200 := between_int (F := F) (n := 200) (by norm_num)
  have hn := between_mul (H := 100) hu h100 (by norm_num) (by norm_num) (by norm_num)
  have hm := between_mul (H := 200) hu h200 (by norm_num) (by norm_num) (by norm_num)
  have hflip := between_sub (L := 0) (H := 100) h100 hn (by norm_num) (by norm_num)
    (by norm_num) (by norm_num)
  have hbody := between_sub (L := -100) (H := 100) hm h100 (by norm_num) (by norm_num)
    (by norm_num) (by norm_num)
  have hneg := between_neg hbody
  unfold stretch
  by_cases hg : j.isGripper = true
  · rw [if_pos hg]
    by_cases hd : j.driveMode ≠ 0
    · rw [if_pos hd]
      exact hflip.mono (by norm_num) (by norm_num)
    · rw [if_neg hd]
      exact hn.mono (by norm_num) (by norm_num)
  · rw [if_neg hg]
    by_cases hd : j.driveMode ≠ 0
    · rw [if_pos hd]
      exact hneg.mono (by norm_num) (by norm_num)
    · rw [if_neg hd]
      exact hbody.mono (by norm_num) (by norm_num)

theorem normalize_between (hj : RangeOk j) (hends : EndsDiffer F j) {raw : ℤ}
    (hraw : |raw| ≤ 2 ^ 31) : Between (calibNormalize j raw : F) (-100) 100 := by
  rw [calib_normalize_eq]
  exact stretch_between (share_between hj hends hraw)

theorem fraction_between {norm : F} (hnorm : Between norm (-100) 100) :
    Between (fraction j norm) 0 1 := by
  have h100 := between_int (F := F) (n := 100) (by norm_num)
  have hflip := between_sub (L := 0) (H := 200) h100 hnorm (by norm_num) (by norm_num)
    (by norm_num) (by norm_num)
  have hneg := between_neg hnorm
  unfold fraction
  by_cases hg : j.isGripper = true
  · rw [if_pos hg]
    have hin : Between (if j.driveMode ≠ 0 then ofInt 100 - norm else norm) (-100) 200 := by
      by_cases hd : j.driveMode ≠ 0
      · rw [if_pos hd]
        exact hflip.mono (by norm_num) (by norm_num)
      · rw [if_neg hd]
        exact hnorm.mono (by norm_num) (by norm_num)
    have hclamp := between_clamp (n := 0) (m := 100) hin (by norm_num) (by norm_num) (by norm_num)
    exact between_div (hclamp.mono (by norm_num) le_rfl) (by norm_num) (by norm_num)
  · rw [if_neg hg]
    have hin : Between (if j.driveMode ≠ 0 then -norm else norm) (-100) 100 := by
      by_cases hd : j.driveMode ≠ 0
      · rw [if_pos hd]
        exact hneg.mono (by norm_num) (by norm_num)
      · rw [if_neg hd]
        exact hnorm
    have hclamp := between_clamp (n := -100) (m := 100) hin (by norm_num) (by norm_num)
      (by norm_num)
    have hsum := between_add (L := 0) (H := 200) hclamp h100 (by norm_num) (by norm_num)
      (by norm_num) (by norm_num)
    exact between_div (hsum.mono (by norm_num) le_rfl) (by norm_num) (by norm_num)

theorem scaled_between {norm : F} (hmin : |j.rangeMin| < 2 ^ 20) (hmax : |j.rangeMax| < 2 ^ 20)
    (hle : j.rangeMin ≤ j.rangeMax) (hnorm : Between norm (-100) 100) :
    Between (scaled j norm) j.rangeMin j.rangeMax := by
  have hlo : (j.rangeMin : ℚ) ≤ j.rangeMax := by exact_mod_cast hle
  obtain ⟨hmin₁, hmin₂⟩ := abs_lt.mp hmin
  obtain ⟨hmax₁, hmax₂⟩ := abs_lt.mp hmax
  have hdiff : |j.rangeMax - j.rangeMin| < 2 ^ 24 := abs_lt.mpr ⟨by omega, by omega⟩
  have hprod := between_mul (H := j.rangeMax - j.rangeMin) (fraction_between (j := j) hnorm)
    (between_int hdiff) hdiff (by push_cast; linarith) le_rfl
  have hoff := between_int (F := F) (n := j.rangeMin) (by omega)
  exact between_add hprod hoff (by omega) (by omega) (by linarith) (by push_cast; linarith)

theorem unnormalize_mem {norm : F} (hmin : |j.rangeMin| < 2 ^ 20) (hmax : |j.rangeMax| < 2 ^ 20)
    (hle : j.rangeMin ≤ j.rangeMax) (hnorm : Between norm (-100) 100) :
    j.rangeMin ≤ calibUnnormalize j norm ∧ calibUnnormalize j norm ≤ j.rangeMax := by
  have hsum := scaled_between hmin hmax hle hnorm
  obtain ⟨q, hq, hsmall⟩ := hsum.converts hmin hmax
  obtain ⟨q', hq', hlq, hqh⟩ := hsum
  obtain rfl := Option.some_inj.mp (hq.symm.trans hq')
  rw [calib_unnormalize_eq, trunc_eq hq hsmall]
  exact trunc_rat_mem hlq hqh

/-- `drive_mode` turns the joint around. -/
def inverted (j : CalibJoint) : Bool := decide (j.driveMode ≠ 0)

/-- `u` at an end, and the normalized position there. -/
def endShare (top : Bool) : ℤ := if top then 1 else 0

def endNorm (j : CalibJoint) (top : Bool) : ℤ :=
  if top then 100 else if j.isGripper then 0 else -100

def endRaw (j : CalibJoint) (top : Bool) : ℤ := if top then j.rangeMax else j.rangeMin

theorem share_end (hj : RangeOk j) (hends : EndsDiffer F j) (top : Bool) :
    value (share j (endRaw j top) : F) = some (endShare top : ℚ) := by
  obtain ⟨hmin, hlt, hmax⟩ := hj
  have hraw : |endRaw j top| ≤ 2 ^ 31 := by
    cases top
    · exact abs_le.mpr ⟨by simpa [endRaw] using hmin, by simp only [endRaw]; omega⟩
    · exact abs_le.mpr ⟨by simp only [endRaw]; omega, by simpa [endRaw] using hmax.le⟩
  obtain ⟨a, b, ha, hb, hone, hzero, hle, hval⟩ := share_value ⟨hmin, hlt, hmax⟩ hends hraw
  have hlo : rnd F j.rangeMin = a := by
    rw [value_of_int _ (abs_le.mpr ⟨by omega, by omega⟩)] at ha
    exact Option.some_inj.mp ha
  have hhi : rnd F j.rangeMax = b := by
    rw [value_of_int _ (abs_le.mpr ⟨by omega, by omega⟩)] at hb
    exact Option.some_inj.mp hb
  have hab : a ≤ b := by
    rw [← hlo, ← hhi]
    exact rnd_mono (by exact_mod_cast hlt.le)
  rw [hval]
  cases top
  · have hzero' : rnd F (0 : ℚ) = 0 := by simpa using rnd_int (F := F) (n := 0) (by norm_num)
    simp [endRaw, endShare, hlo, hab, hzero']
  · have hone' : rnd F (1 : ℚ) = 1 := by simpa using rnd_int (F := F) (n := 1) (by norm_num)
    have hpos : rnd F (b - a) ≠ 0 := by linarith
    simp [endRaw, endShare, hhi, hab, hone', div_self hpos]

theorem stretch_end {u : F} {top : Bool} (hu : value u = some (endShare top : ℚ)) :
    value (stretch j u) = some (endNorm j (top ^^ inverted j) : ℚ) := by
  have h100 : value (ofInt 100 : F) = some ((100 : ℤ) : ℚ) := of_int_value (by norm_num)
  have h200 : value (ofInt 200 : F) = some ((200 : ℤ) : ℚ) := of_int_value (by norm_num)
  have hn := value_int_mul hu h100 (by cases top <;> decide)
  have hm := value_int_mul hu h200 (by cases top <;> decide)
  have hflip := value_int_sub h100 hn (by cases top <;> decide)
  have hbody := value_int_sub hm h100 (by cases top <;> decide)
  have hneg := value_neg hbody
  unfold stretch
  by_cases hg : j.isGripper = true
  · rw [if_pos hg]
    by_cases hd : j.driveMode ≠ 0
    · rw [if_pos hd, hflip]
      cases top <;> simp [endShare, endNorm, inverted, hd, hg]
    · rw [if_neg hd, hn]
      cases top <;> simp [endShare, endNorm, inverted, hd, hg]
  · rw [if_neg hg]
    by_cases hd : j.driveMode ≠ 0
    · rw [if_pos hd, hneg]
      cases top <;> norm_num [endShare, endNorm, inverted, hd, hg]
    · rw [if_neg hd, hbody]
      cases top <;> norm_num [endShare, endNorm, inverted, hd, hg]

theorem normalize_end (hj : RangeOk j) (hends : EndsDiffer F j) (top : Bool) :
    value (calibNormalize j (endRaw j top) : F) = some (endNorm j (top ^^ inverted j) : ℚ) := by
  rw [calib_normalize_eq]
  exact stretch_end (share_end hj hends top)

theorem fraction_end {norm : F} {top : Bool} (hnorm : value norm = some (endNorm j top : ℚ)) :
    value (fraction j norm) = some (endShare (top ^^ inverted j) : ℚ) := by
  have h100 : value (ofInt 100 : F) = some ((100 : ℤ) : ℚ) := of_int_value (by norm_num)
  have h200 : value (ofInt 200 : F) = some ((200 : ℤ) : ℚ) := of_int_value (by norm_num)
  unfold fraction
  by_cases hg : j.isGripper = true
  · rw [if_pos hg]
    have hin : value (if j.driveMode ≠ 0 then ofInt 100 - norm else norm) =
        some ((endShare (top ^^ inverted j) * 100 : ℤ) : ℚ) := by
      by_cases hd : j.driveMode ≠ 0
      · have hflip := value_int_sub h100 hnorm (by cases top <;> simp [endNorm, hg])
        rw [if_pos hd, hflip]
        cases top <;> simp [endShare, endNorm, inverted, hd, hg]
      · rw [if_neg hd, hnorm]
        cases top <;> simp [endShare, endNorm, inverted, hd, hg]
    have hclamp := value_clamp (n := 0) (m := 100) hin (by norm_num) (by norm_num)
      (by cases top ^^ inverted j <;> decide) (by cases top ^^ inverted j <;> decide)
    exact value_int_div hclamp h100 (by norm_num) (by cases top ^^ inverted j <;> decide)
  · rw [if_neg hg]
    have hin : value (if j.driveMode ≠ 0 then -norm else norm) =
        some ((endShare (top ^^ inverted j) * 200 - 100 : ℤ) : ℚ) := by
      by_cases hd : j.driveMode ≠ 0
      · rw [if_pos hd, value_neg hnorm]
        cases top <;> norm_num [endShare, endNorm, inverted, hd, hg]
      · rw [if_neg hd, hnorm]
        cases top <;> norm_num [endShare, endNorm, inverted, hd, hg]
    have hclamp := value_clamp (n := -100) (m := 100) hin (by norm_num) (by norm_num)
      (by cases top ^^ inverted j <;> decide) (by cases top ^^ inverted j <;> decide)
    have hsum := value_int_add hclamp h100 (by cases top ^^ inverted j <;> decide)
    rw [sub_add_cancel] at hsum
    exact value_int_div hsum h200 (by norm_num) (by cases top ^^ inverted j <;> decide)

theorem scaled_low {norm : F} (hj : RangeOk j) (hspan : j.rangeMax - j.rangeMin < 2 ^ 31)
    (hfrac : value (fraction j norm) = some ((0 : ℤ) : ℚ)) {n : ℤ} (hn : |n| < 2 ^ 24)
    (hle : j.rangeMin ≤ n) : ∃ q, value (scaled j norm) = some q ∧ q ≤ n := by
  obtain ⟨hmin, hlt, hmax⟩ := hj
  have hrange : value (ofInt (j.rangeMax - j.rangeMin) : F) = some (rnd F _) :=
    value_of_int _ (abs_le.mpr ⟨by omega, by omega⟩)
  have hoff : value (ofInt j.rangeMin : F) = some (rnd F j.rangeMin) :=
    value_of_int _ (abs_le.mpr ⟨by omega, by omega⟩)
  have hprod := value_mul hfrac hrange (by simp)
  have hzero : rnd F (0 : ℚ) = 0 := by simpa using rnd_int (F := F) (n := 0) (by norm_num)
  rw [Int.cast_zero, zero_mul, hzero] at hprod
  have habs : |rnd F (j.rangeMin : ℚ)| ≤ 2 ^ 31 :=
    abs_rnd_le (by exact_mod_cast abs_le.mpr ⟨hmin, (hlt.trans hmax).le⟩)
  have hsum := value_add hprod hoff (by rw [zero_add]; linarith)
  rw [zero_add] at hsum
  have hfirst : rnd F (j.rangeMin : ℚ) ≤ n := rnd_le hn (by exact_mod_cast hle)
  exact ⟨_, hsum, rnd_le hn hfirst⟩

theorem scaled_high {norm : F} (hj : RangeOk j) (hspan : j.rangeMax - j.rangeMin < 2 ^ 31)
    (hfrac : value (fraction j norm) = some ((1 : ℤ) : ℚ)) {n : ℤ} (hn : |n| < 2 ^ 20)
    (hlow : -2 ^ 20 ≤ j.rangeMin) (hle : n ≤ j.rangeMax) :
    ∃ q, value (scaled j norm) = some q ∧ n ≤ q := by
  obtain ⟨hmin, hlt, hmax⟩ := hj
  obtain ⟨hn₁, hn₂⟩ := abs_lt.mp hn
  have hrange : value (ofInt (j.rangeMax - j.rangeMin) : F) = some (rnd F _) :=
    value_of_int _ (abs_le.mpr ⟨by omega, by omega⟩)
  have hoff : value (ofInt j.rangeMin : F) = some (rnd F j.rangeMin) :=
    value_of_int _ (abs_le.mpr ⟨by omega, by omega⟩)
  have habs : |rnd F (j.rangeMin : ℚ)| ≤ 2 ^ 31 :=
    abs_rnd_le (by exact_mod_cast abs_le.mpr ⟨hmin, (hlt.trans hmax).le⟩)
  have hspanq : |rnd F ((j.rangeMax - j.rangeMin : ℤ) : ℚ)| ≤ 2 ^ 31 :=
    abs_rnd_le (by exact_mod_cast abs_le.mpr ⟨by omega, hspan.le⟩)
  have hprod := value_mul hfrac hrange (by rw [Int.cast_one, one_mul]; linarith)
  rw [Int.cast_one, one_mul] at hprod
  have hprodq : |rnd F (rnd F ((j.rangeMax - j.rangeMin : ℤ) : ℚ))| ≤ 2 ^ 31 := abs_rnd_le hspanq
  have hsum := value_add hprod hoff ((abs_add_le _ _).trans (by linarith))
  refine ⟨_, hsum, le_rnd (by omega) ?_⟩
  by_cases hsmall : j.rangeMin < 2 ^ 20
  · have hexact : rnd F (j.rangeMin : ℚ) = j.rangeMin := rnd_int (abs_lt.mpr ⟨by omega, by omega⟩)
    have hn' : |n - j.rangeMin| < 2 ^ 24 := abs_lt.mpr ⟨by omega, by omega⟩
    have hfirst : ((n - j.rangeMin : ℤ) : ℚ) ≤ rnd F ((j.rangeMax - j.rangeMin : ℤ) : ℚ) :=
      le_rnd hn' (by exact_mod_cast (by omega : n - j.rangeMin ≤ j.rangeMax - j.rangeMin))
    have hsecond := le_rnd (F := F) hn' hfirst
    rw [hexact]
    push_cast at hsecond ⊢
    linarith
  · have hfirst : ((0 : ℤ) : ℚ) ≤ rnd F ((j.rangeMax - j.rangeMin : ℤ) : ℚ) :=
      le_rnd (by norm_num) (by exact_mod_cast (by omega : 0 ≤ j.rangeMax - j.rangeMin))
    have hsecond := le_rnd (F := F) (n := 0) (by norm_num) hfirst
    have hmin' : (n : ℚ) ≤ rnd F (j.rangeMin : ℚ) :=
      le_rnd (by omega) (by exact_mod_cast (by omega : n ≤ j.rangeMin))
    rw [Int.cast_zero] at hsecond
    linarith

/-- Where the two joints are normalized alike, the ends of one are the ends of the other. -/
theorem fraction_at_end {l f : CalibJoint} (hl : RangeOk l) (hends : EndsDiffer F l)
    (hgrip : l.isGripper = f.isGripper) (top : Bool) :
    value (fraction f (calibNormalize l (endRaw l (top ^^ inverted l ^^ inverted f)) : F)) =
      some (endShare top : ℚ) := by
  have hnorm := normalize_end hl hends (top ^^ inverted l ^^ inverted f)
  have hsame : ∀ b, endNorm l b = endNorm f b := by
    intro b
    simp only [endNorm, hgrip]
  rw [hsame] at hnorm
  have hfrac := fraction_end hnorm
  cases top <;> cases hi : inverted l <;> cases hf : inverted f <;> simpa [hi, hf] using hfrac

theorem unnormalize_le {norm : F} {j : CalibJoint} (hj : RangeOk j)
    (hspan : j.rangeMax - j.rangeMin < 2 ^ 31)
    (hfrac : value (fraction j norm) = some ((0 : ℤ) : ℚ)) (hconv : Converts (scaled j norm))
    {n : ℤ} (hn : |n| < 2 ^ 24) (hle : j.rangeMin ≤ n) : calibUnnormalize j norm ≤ n := by
  obtain ⟨q, hq, hqn⟩ := scaled_low hj hspan hfrac hn hle
  obtain ⟨q', hq', hsmall⟩ := hconv
  obtain rfl := Option.some_inj.mp (hq.symm.trans hq')
  rw [calib_unnormalize_eq, trunc_eq hq hsmall]
  have hlow : ((-2 ^ 31 : ℤ) : ℚ) ≤ q := by
    push_cast
    exact (abs_lt.mp hsmall).1.le
  exact (trunc_rat_mem hlow hqn).2

theorem le_unnormalize {norm : F} {j : CalibJoint} (hj : RangeOk j)
    (hspan : j.rangeMax - j.rangeMin < 2 ^ 31)
    (hfrac : value (fraction j norm) = some ((1 : ℤ) : ℚ)) (hconv : Converts (scaled j norm))
    {n : ℤ} (hn : |n| < 2 ^ 20) (hlow : -2 ^ 20 ≤ j.rangeMin) (hle : n ≤ j.rangeMax) :
    n ≤ calibUnnormalize j norm := by
  obtain ⟨q, hq, hnq⟩ := scaled_high hj hspan hfrac hn hlow hle
  obtain ⟨q', hq', hsmall⟩ := hconv
  obtain rfl := Option.some_inj.mp (hq.symm.trans hq')
  rw [calib_unnormalize_eq, trunc_eq hq hsmall]
  have hhigh : q ≤ ((2 ^ 31 : ℤ) : ℚ) := by
    push_cast
    exact (abs_lt.mp hsmall).2.le
  exact (trunc_rat_mem hnq hhigh).1

end CalibrationMap
