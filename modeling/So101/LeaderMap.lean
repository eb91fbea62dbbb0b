import So101.CalibrationMap

/-!
# From the leader to the follower

`calib_unnormalize` of `calib_normalize` in exact arithmetic: the share of the leader's range
becomes the same share of the follower's, or what is left of it when one of them is turned
around. The subtraction of the two ends is exact here as well; `GoalRange` says for which
files it stays within an `int`.
-/
namespace LeaderMap

open FloatLaws CalibrationMap
open Calibration (CalibJoint truncRat calibNormalize calibUnnormalize)

def leaderMap (l f : CalibJoint) (raw : ℤ) : ℤ := calibUnnormalize f (calibNormalize l raw : ℚ)

/-- A share of the range of `f`, as a position. -/
def place (f : CalibJoint) (u : ℚ) : ℤ :=
  truncRat (u * (f.rangeMax - f.rangeMin : ℤ) + f.rangeMin)

theorem share_rat (j : CalibJoint) (raw : ℤ) :
    (share j raw : ℚ) = (min (max (raw : ℚ) j.rangeMin) j.rangeMax - j.rangeMin) /
      (j.rangeMax - j.rangeMin) := by
  have hmax := value_max (F := ℚ) (a := (raw : ℚ)) (b := j.rangeMin) rfl rfl
  have hclamp := value_min (F := ℚ) hmax (b := j.rangeMax) rfl
  unfold share
  exact congrArg (fun q : ℚ => (q - j.rangeMin) / (j.rangeMax - j.rangeMin))
    (Option.some_inj.mp hclamp)

section Share

variable {j : CalibJoint}

theorem width_pos (hj : j.rangeMin < j.rangeMax) : (0 : ℚ) < j.rangeMax - j.rangeMin := by
  have hlt : (j.rangeMin : ℚ) < j.rangeMax := by exact_mod_cast hj
  linarith

theorem share_mem (hj : j.rangeMin < j.rangeMax) (raw : ℤ) :
    0 ≤ (share j raw : ℚ) ∧ (share j raw : ℚ) ≤ 1 := by
  have hwidth := width_pos hj
  have hlow : (j.rangeMin : ℚ) ≤ min (max (raw : ℚ) j.rangeMin) j.rangeMax :=
    le_min (le_max_right _ _) (by linarith)
  have hhigh : min (max (raw : ℚ) j.rangeMin) j.rangeMax ≤ j.rangeMax := min_le_right _ _
  rw [share_rat]
  constructor
  · exact div_nonneg (by linarith) hwidth.le
  · exact (div_le_one hwidth).mpr (by linarith)

theorem share_mono (hj : j.rangeMin < j.rangeMax) :
    Monotone fun raw : ℤ => (share j raw : ℚ) := by
  intro a b hab
  have hcast : (a : ℚ) ≤ b := by exact_mod_cast hab
  simp only [share_rat]
  apply div_le_div_of_nonneg_right _ (width_pos hj).le
  exact sub_le_sub_right (min_le_min_right _ (max_le_max_right _ hcast)) _

theorem share_min (hj : j.rangeMin < j.rangeMax) : (share j j.rangeMin : ℚ) = 0 := by
  have hle : (j.rangeMin : ℚ) ≤ j.rangeMax := by linarith [width_pos hj]
  rw [share_rat, max_self, min_eq_left hle, sub_self, zero_div]

theorem share_max (hj : j.rangeMin < j.rangeMax) : (share j j.rangeMax : ℚ) = 1 := by
  have hwidth := width_pos hj
  have hle : (j.rangeMin : ℚ) ≤ j.rangeMax := by linarith
  rw [share_rat, max_eq_left hle, min_self, div_self hwidth.ne']

theorem place_mem (hj : j.rangeMin < j.rangeMax) {u : ℚ} (hu : 0 ≤ u ∧ u ≤ 1) :
    j.rangeMin ≤ place j u ∧ place j u ≤ j.rangeMax := by
  have hwidth := width_pos hj
  obtain ⟨hzero, hone⟩ := hu
  have hprod := mul_nonneg hzero hwidth.le
  have hle := mul_le_of_le_one_left hwidth.le hone
  apply trunc_rat_mem
  · push_cast
    linarith
  · push_cast
    linarith

theorem place_mono (hj : j.rangeMin < j.rangeMax) : Monotone (place j) := by
  intro u v huv
  have hwidth := width_pos hj
  apply trunc_rat_mono
  push_cast
  exact add_le_add_left (mul_le_mul_of_nonneg_right huv hwidth.le) _

theorem place_zero (j : CalibJoint) : place j 0 = j.rangeMin := by
  rw [place, zero_mul, zero_add, trunc_rat_int]

theorem place_one (j : CalibJoint) : place j 1 = j.rangeMax := by
  have hsum : (1 : ℚ) * (j.rangeMax - j.rangeMin : ℤ) + j.rangeMin = j.rangeMax := by
    push_cast
    ring
  rw [place, hsum, trunc_rat_int]

theorem place_share (hj : j.rangeMin < j.rangeMax) (raw : ℤ) :
    place j (share j raw) = min (max raw j.rangeMin) j.rangeMax := by
  have hwidth := (width_pos hj).ne'
  have hsum : (share j raw : ℚ) * (j.rangeMax - j.rangeMin : ℤ) + j.rangeMin =
      (min (max raw j.rangeMin) j.rangeMax : ℤ) := by
    rw [share_rat]
    push_cast
    field_simp
    ring
  rw [place, hsum, trunc_rat_int]

end Share

theorem clamp_rat {q lo hi : ℚ} (hlo : lo ≤ q) (hhi : q ≤ hi) :
    (let q := if Calibration.CFloat.lt q lo then lo else q
      if Calibration.CFloat.lt hi q then hi else q) = q := by
  have hmax := value_max (F := ℚ) (a := q) (b := lo) rfl rfl
  have hclamp := value_min (F := ℚ) hmax (b := hi) rfl
  rw [max_eq_left hlo, min_eq_left hhi] at hclamp
  exact Option.some_inj.mp hclamp

def seen (l f : CalibJoint) (u : ℚ) : ℚ := if inverted l = inverted f then u else 1 - u

theorem seen_mem {u : ℚ} (hu : 0 ≤ u ∧ u ≤ 1) (l f : CalibJoint) :
    0 ≤ seen l f u ∧ seen l f u ≤ 1 := by
  obtain ⟨hzero, hone⟩ := hu
  unfold seen
  split
  · exact ⟨hzero, hone⟩
  · exact ⟨sub_nonneg.mpr hone, sub_le_self 1 hzero⟩

theorem turned_twice (l f : CalibJoint) (s n : ℚ) :
    (if f.driveMode ≠ 0 then s - (if l.driveMode ≠ 0 then s - n else n) else
      if l.driveMode ≠ 0 then s - n else n) = if inverted l = inverted f then n else s - n := by
  unfold inverted
  by_cases hl : l.driveMode = 0
  · by_cases hf : f.driveMode = 0
    · simp [hl, hf]
    · simp [hl, hf]
  · by_cases hf : f.driveMode = 0
    · simp [hl, hf]
    · simp [hl, hf]

theorem fraction_stretch {l f : CalibJoint} (hgrip : l.isGripper = f.isGripper) {u : ℚ}
    (hu : 0 ≤ u ∧ u ≤ 1) : fraction f (stretch l u) = seen l f u := by
  obtain ⟨hzero, hone⟩ := seen_mem hu l f
  have h0 : (Calibration.CFloat.ofInt 0 : ℚ) = 0 := Int.cast_zero
  have h100 : (Calibration.CFloat.ofInt 100 : ℚ) = 100 := Int.cast_ofNat 100
  have hm100 : (Calibration.CFloat.ofInt (-100) : ℚ) = -100 := Int.cast_negOfNat 100
  have h200 : (Calibration.CFloat.ofInt 200 : ℚ) = 200 := Int.cast_ofNat 200
  unfold fraction stretch
  rw [hgrip, h0, h100, hm100, h200]
  by_cases hg : f.isGripper = true
  · have hturn : (if inverted l = inverted f then u * 100 else 100 - u * 100) =
        seen l f u * 100 := by
      unfold seen
      split
      · rfl
      · ring
    simp only [if_pos hg, turned_twice, hturn]
    rw [clamp_rat (by linarith) (by linarith)]
    exact mul_div_cancel_right₀ _ (by norm_num)
  · have hturn : (if inverted l = inverted f then u * 200 - 100 else 0 - (u * 200 - 100)) =
        seen l f u * 200 - 100 := by
      unfold seen
      split
      · rfl
      · ring
    have hneg := (turned_twice l f 0 (u * 200 - 100)).trans hturn
    simp only [zero_sub] at hneg
    simp only [if_neg hg, hneg]
    rw [clamp_rat (by linarith) (by linarith), sub_add_cancel]
    exact mul_div_cancel_right₀ _ (by norm_num)

theorem leader_map_eq {l f : CalibJoint} (hl : l.rangeMin < l.rangeMax)
    (hgrip : l.isGripper = f.isGripper) (raw : ℤ) :
    leaderMap l f raw = place f (seen l f (share l raw)) := by
  rw [leaderMap, calib_normalize_eq, calib_unnormalize_eq, scaled,
    fraction_stretch hgrip (share_mem hl raw)]
  rfl

/-- Leader positions become positions of the follower, in the same order or the opposite
one, end to end; an arm that leads itself only clamps. -/
theorem leader_map {l f : CalibJoint} (hl : l.rangeMin < l.rangeMax)
    (hf : f.rangeMin < f.rangeMax) (hgrip : l.isGripper = f.isGripper) :
    (∀ raw, f.rangeMin ≤ leaderMap l f raw ∧ leaderMap l f raw ≤ f.rangeMax) ∧
    ((l.driveMode ≠ 0 ↔ f.driveMode ≠ 0) → Monotone (leaderMap l f) ∧
      leaderMap l f l.rangeMin = f.rangeMin ∧ leaderMap l f l.rangeMax = f.rangeMax) ∧
    (¬ (l.driveMode ≠ 0 ↔ f.driveMode ≠ 0) → Antitone (leaderMap l f) ∧
      leaderMap l f l.rangeMin = f.rangeMax ∧ leaderMap l f l.rangeMax = f.rangeMin) ∧
    (l = f → ∀ raw,
      (raw < f.rangeMin → leaderMap l f raw = f.rangeMin) ∧
      (f.rangeMin ≤ raw → raw ≤ f.rangeMax → leaderMap l f raw = raw) ∧
      (f.rangeMax < raw → leaderMap l f raw = f.rangeMax)) := by
  have hmap := @leader_map_eq l f hl hgrip
  have hsame : inverted l = inverted f ↔ (l.driveMode ≠ 0 ↔ f.driveMode ≠ 0) := by
    rw [inverted, inverted, decide_eq_decide]
  refine ⟨?_, ?_, ?_, ?_⟩
  · intro raw
    rw [hmap]
    exact place_mem hf (seen_mem (share_mem hl raw) l f)
  · intro hdrive
    simp only [seen, if_pos (hsame.mpr hdrive)] at hmap
    refine ⟨?_, ?_, ?_⟩
    · intro a b hab
      rw [hmap, hmap]
      exact place_mono hf (share_mono hl hab)
    · rw [hmap, share_min hl, place_zero]
    · rw [hmap, share_max hl, place_one]
  · intro hdrive
    simp only [seen, if_neg (mt hsame.mp hdrive)] at hmap
    refine ⟨?_, ?_, ?_⟩
    · intro a b hab
      rw [hmap, hmap]
      exact place_mono hf (sub_le_sub_left (share_mono hl hab) 1)
    · rw [hmap, share_min hl, sub_zero, place_one]
    · rw [hmap, share_max hl, sub_self, place_zero]
  · rintro rfl raw
    rw [hmap, seen, if_pos rfl, place_share hl]
    omega

/-- Two grippers, of which one is turned around. -/
theorem leader_map_gripper :
    let l : CalibJoint := ⟨6, 0, 0, 2000, 3500, true⟩
    let f : CalibJoint := ⟨6, 1, 0, -100, 1400, true⟩
    Antitone (leaderMap l f) ∧ leaderMap l f 2000 = 1400 ∧ leaderMap l f 3500 = -100 := by
  intro l f
  have hmap := @leader_map l f (by decide) (by decide) rfl
  exact hmap.2.2.1 (by decide)

end LeaderMap
