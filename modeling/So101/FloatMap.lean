import So101.LeaderMap
import So101.SingleFloat

/-!
# The leader map as it is rounded

Each operation of `calib_normalize` and `calib_unnormalize` keeps or turns around the order of
its operand, and so does its rounding. What the exact map does, end to end and in order, the
map in `float` does as well.
-/
namespace FloatMap

open FloatLaws RoundedFloat CalibrationMap
open Calibration (CalibJoint calibNormalize calibUnnormalize)
open Calibration.CFloat

variable {F : Type*} [RoundedFloat F]

def Ordered (x y : F) (l h : ℚ) : Prop :=
  ∃ p q, value x = some p ∧ value y = some q ∧ l ≤ p ∧ p ≤ q ∧ q ≤ h

section Operations

variable {x y : F} {l h : ℚ} {n L H : ℤ}

theorem Ordered.mono {l' h' : ℚ} (hxy : Ordered x y l h) (hl : l' ≤ l) (hh : h ≤ h') :
    Ordered x y l' h' := by
  obtain ⟨p, q, hp, hq, hlp, hpq, hqh⟩ := hxy
  exact ⟨p, q, hp, hq, hl.trans hlp, hpq, hqh.trans hh⟩

theorem ordered_rnd {p q : ℚ} (hx : value x = some (rnd F p)) (hy : value y = some (rnd F q))
    (hL : |L| < 2 ^ 24) (hH : |H| < 2 ^ 24) (hLp : (L : ℚ) ≤ p) (hpq : p ≤ q) (hqH : q ≤ H) :
    Ordered x y L H :=
  ⟨_, _, hx, hy, le_rnd hL hLp, rnd_mono hpq, rnd_le hH hqH⟩

theorem ordered_neg (hxy : Ordered x y l h) : Ordered (-y) (-x) (-h) (-l) := by
  obtain ⟨p, q, hp, hq, hlp, hpq, hqh⟩ := hxy
  exact ⟨-q, -p, value_neg hq, value_neg hp, neg_le_neg hqh, neg_le_neg hpq, neg_le_neg hlp⟩

theorem ordered_add (hxy : Ordered x y l h) (hn : |n| < 2 ^ 24) (hL : |L| < 2 ^ 24)
    (hH : |H| < 2 ^ 24) (hl : (L : ℚ) ≤ l + n) (hh : h + n ≤ H) :
    Ordered (x + ofInt n) (y + ofInt n) L H := by
  obtain ⟨p, q, hp, hq, hlp, hpq, hqh⟩ := hxy
  have hsmall : ∀ r, l ≤ r → r ≤ h → |r + n| ≤ 2 ^ 64 := fun r hlr hrh =>
    abs_le_of_small hL hH (by linarith) (by linarith)
  have hx := value_add hp (of_int_value hn) (hsmall p hlp (hpq.trans hqh))
  have hy := value_add hq (of_int_value hn) (hsmall q (hlp.trans hpq) hqh)
  exact ordered_rnd hx hy hL hH (by linarith) (by linarith) (by linarith)

theorem ordered_sub (hxy : Ordered x y l h) (hn : |n| < 2 ^ 24) (hL : |L| < 2 ^ 24)
    (hH : |H| < 2 ^ 24) (hl : (L : ℚ) ≤ l - n) (hh : h - n ≤ H) :
    Ordered (x - ofInt n) (y - ofInt n) L H := by
  obtain ⟨p, q, hp, hq, hlp, hpq, hqh⟩ := hxy
  have hsmall : ∀ r, l ≤ r → r ≤ h → |r - n| ≤ 2 ^ 64 := fun r hlr hrh =>
    abs_le_of_small hL hH (by linarith) (by linarith)
  have hx := value_sub hp (of_int_value hn) (hsmall p hlp (hpq.trans hqh))
  have hy := value_sub hq (of_int_value hn) (hsmall q (hlp.trans hpq) hqh)
  exact ordered_rnd hx hy hL hH (by linarith) (by linarith) (by linarith)

theorem ordered_flip (hxy : Ordered x y l h) (hn : |n| < 2 ^ 24) (hL : |L| < 2 ^ 24)
    (hH : |H| < 2 ^ 24) (hl : (L : ℚ) ≤ n - h) (hh : n - l ≤ H) :
    Ordered (ofInt n - y) (ofInt n - x) L H := by
  obtain ⟨p, q, hp, hq, hlp, hpq, hqh⟩ := hxy
  have hsmall : ∀ r, l ≤ r → r ≤ h → |(n : ℚ) - r| ≤ 2 ^ 64 := fun r hlr hrh =>
    abs_le_of_small hL hH (by linarith) (by linarith)
  have hx := value_sub (of_int_value hn) hp (hsmall p hlp (hpq.trans hqh))
  have hy := value_sub (of_int_value hn) hq (hsmall q (hlp.trans hpq) hqh)
  exact ordered_rnd hy hx hL hH (by linarith) (by linarith) (by linarith)

theorem ordered_mul (hxy : Ordered x y 0 1) (hpos : 0 ≤ n) (hn : |n| < 2 ^ 24) :
    Ordered (x * ofInt n) (y * ofInt n) 0 n := by
  obtain ⟨p, q, hp, hq, hlp, hpq, hqh⟩ := hxy
  have hnq : (0 : ℚ) ≤ n := by exact_mod_cast hpos
  have hlow : ((0 : ℤ) : ℚ) ≤ p * n := by simpa using mul_nonneg hlp hnq
  have hle : p * n ≤ q * n := mul_le_mul_of_nonneg_right hpq hnq
  have hhigh : q * n ≤ n := mul_le_of_le_one_left hnq hqh
  have hx := value_mul hp (of_int_value hn)
    (abs_le_of_small (by norm_num) hn hlow (hle.trans hhigh))
  have hy := value_mul hq (of_int_value hn)
    (abs_le_of_small (by norm_num) hn (hlow.trans hle) hhigh)
  simpa using ordered_rnd hx hy (by norm_num) hn hlow hle hhigh

theorem ordered_div (hxy : Ordered x y 0 n) (hpos : 0 < n) (hn : |n| < 2 ^ 24) :
    Ordered (x / ofInt n) (y / ofInt n) 0 1 := by
  obtain ⟨p, q, hp, hq, hlp, hpq, hqh⟩ := hxy
  have hnq : (0 : ℚ) < n := by exact_mod_cast hpos
  have hlow : ((0 : ℤ) : ℚ) ≤ p / n := by simpa using div_nonneg hlp hnq.le
  have hle : p / n ≤ q / n := div_le_div_of_nonneg_right hpq hnq.le
  have hhigh : q / n ≤ ((1 : ℤ) : ℚ) := by simpa using (div_le_one hnq).mpr hqh
  have hx := value_div hp (of_int_value hn) hnq.ne'
    (abs_le_of_small (by norm_num) (by norm_num) hlow (hle.trans hhigh))
  have hy := value_div hq (of_int_value hn) hnq.ne'
    (abs_le_of_small (by norm_num) (by norm_num) (hlow.trans hle) hhigh)
  simpa using ordered_rnd hx hy (by norm_num) (by norm_num) hlow hle hhigh

def clamp (n m : ℤ) (x : F) : F :=
  let x := if lt x (ofInt n) then ofInt n else x
  if lt (ofInt m) x then ofInt m else x

theorem ordered_clamp {m : ℤ} (hxy : Ordered x y l h) (hn : |n| < 2 ^ 24) (hm : |m| < 2 ^ 24)
    (hnm : n ≤ m) : Ordered (clamp n m x) (clamp n m y) n m := by
  obtain ⟨p, q, hp, hq, _, hpq, _⟩ := hxy
  have hnmq : (n : ℚ) ≤ m := by exact_mod_cast hnm
  have hx := value_min (value_max hp (of_int_value hn)) (of_int_value hm)
  have hy := value_min (value_max hq (of_int_value hn)) (of_int_value hm)
  refine ⟨_, _, hx, hy, le_min (le_max_right _ _) hnmq, ?_, min_le_right _ _⟩
  exact min_le_min_right _ (max_le_max_right _ hpq)

theorem ordered_trunc (hxy : Ordered x y L H) (hL : |L| < 2 ^ 20) (hH : |H| < 2 ^ 20) :
    trunc x ≤ trunc y := by
  obtain ⟨p, q, hp, hq, hlp, hpq, hqh⟩ := hxy
  have hlow : (-2 ^ 20 : ℚ) < L := by exact_mod_cast (abs_lt.mp hL).1
  have hhigh : (H : ℚ) < 2 ^ 20 := by exact_mod_cast (abs_lt.mp hH).2
  rw [trunc_eq hp (abs_lt.mpr ⟨by linarith, by linarith⟩),
    trunc_eq hq (abs_lt.mpr ⟨by linarith, by linarith⟩)]
  exact trunc_rat_mono hpq

end Operations

/-- In order, or the other way round on a joint that is turned around. -/
def Facing (turned : Bool) (x y : F) (l h : ℚ) : Prop :=
  if turned then Ordered y x l h else Ordered x y l h

section Functions

variable {j : CalibJoint} {u v : F}

theorem share_ordered (hj : RangeOk j) (hends : EndsDiffer F j) {a b : ℤ} (ha : |a| ≤ 2 ^ 31)
    (hb : |b| ≤ 2 ^ 31) (hab : a ≤ b) : Ordered (share j a : F) (share j b) 0 1 := by
  obtain ⟨lo, hi, hlo, hhi, hone, hzero, _, hval⟩ := share_value hj hends ha
  obtain ⟨lo', hi', hlo', hhi', _, _, hle, hval'⟩ := share_value hj hends hb
  obtain rfl := Option.some_inj.mp (hlo.symm.trans hlo')
  obtain rfl := Option.some_inj.mp (hhi.symm.trans hhi')
  have hcast : (a : ℚ) ≤ b := by exact_mod_cast hab
  have hclamp : min (max (rnd F a) lo) hi ≤ min (max (rnd F b) lo) hi :=
    min_le_min_right _ (max_le_max_right _ (rnd_mono hcast))
  have hnum : rnd F (min (max (rnd F a) lo) hi - lo) ≤ rnd F (min (max (rnd F b) lo) hi - lo) :=
    rnd_mono (sub_le_sub_right hclamp lo)
  have hpos : (0 : ℚ) < rnd F (hi - lo) := by linarith
  have hlow : ((0 : ℤ) : ℚ) ≤ rnd F (min (max (rnd F a) lo) hi - lo) / rnd F (hi - lo) := by
    simpa using div_nonneg hzero hpos.le
  have hhigh : rnd F (min (max (rnd F b) lo) hi - lo) / rnd F (hi - lo) ≤ ((1 : ℤ) : ℚ) := by
    simpa using (div_le_one hpos).mpr hle
  simpa using ordered_rnd hval hval' (by norm_num) (by norm_num) hlow
    (div_le_div_of_nonneg_right hnum hpos.le) hhigh

theorem stretch_facing (huv : Ordered u v 0 1) :
    Facing (inverted j) (stretch j u) (stretch j v) (-100) 100 := by
  have hn := ordered_mul (n := 100) huv (by norm_num) (by norm_num)
  have hm := ordered_mul (n := 200) huv (by norm_num) (by norm_num)
  have hflip := ordered_flip (n := 100) (L := 0) (H := 100) hn (by norm_num) (by norm_num)
    (by norm_num) (by norm_num) (by norm_num)
  have hbody := ordered_sub (n := 100) (L := -100) (H := 100) hm (by norm_num) (by norm_num)
    (by norm_num) (by norm_num) (by norm_num)
  unfold stretch Facing inverted
  by_cases hg : j.isGripper = true
  · simp only [if_pos hg]
    by_cases hd : j.driveMode ≠ 0
    · simp only [if_pos hd, decide_eq_true hd, if_true]
      exact hflip.mono (by norm_num) (by norm_num)
    · simp only [if_neg hd, decide_eq_false hd]
      exact hn.mono (by norm_num) (by norm_num)
  · simp only [if_neg hg]
    by_cases hd : j.driveMode ≠ 0
    · simp only [if_pos hd, decide_eq_true hd, if_true]
      exact (ordered_neg hbody).mono (by norm_num) (by norm_num)
    · simp only [if_neg hd, decide_eq_false hd]
      exact hbody.mono (by norm_num) (by norm_num)

theorem fraction_facing (huv : Ordered u v (-100) 100) :
    Facing (inverted j) (fraction j u) (fraction j v) 0 1 := by
  have hflip := ordered_flip (n := 100) (L := 0) (H := 200) huv (by norm_num) (by norm_num)
    (by norm_num) (by norm_num) (by norm_num)
  have hgripper : ∀ {x y : F} {l h : ℚ}, Ordered x y l h →
      Ordered (clamp 0 100 x / ofInt 100) (clamp 0 100 y / ofInt 100) 0 1 := by
    intro x y l h hxy
    have hclamp := ordered_clamp (n := 0) (m := 100) hxy (by norm_num) (by norm_num) (by norm_num)
    exact ordered_div (hclamp.mono (by norm_num) le_rfl) (by norm_num) (by norm_num)
  have hjoint : ∀ {x y : F} {l h : ℚ}, Ordered x y l h →
      Ordered ((clamp (-100) 100 x + ofInt 100) / ofInt 200)
        ((clamp (-100) 100 y + ofInt 100) / ofInt 200) 0 1 := by
    intro x y l h hxy
    have hclamp := ordered_clamp (n := -100) (m := 100) hxy (by norm_num) (by norm_num)
      (by norm_num)
    have hsum := ordered_add (n := 100) (L := 0) (H := 200) hclamp (by norm_num) (by norm_num)
      (by norm_num) (by norm_num) (by norm_num)
    exact ordered_div (hsum.mono (by norm_num) le_rfl) (by norm_num) (by norm_num)
  unfold fraction Facing inverted
  by_cases hg : j.isGripper = true
  · simp only [if_pos hg]
    by_cases hd : j.driveMode ≠ 0
    · simp only [if_pos hd, decide_eq_true hd, if_true]
      exact hgripper hflip
    · simp only [if_neg hd, decide_eq_false hd]
      exact hgripper huv
  · simp only [if_neg hg]
    by_cases hd : j.driveMode ≠ 0
    · simp only [if_pos hd, decide_eq_true hd, if_true]
      exact hjoint (ordered_neg huv)
    · simp only [if_neg hd, decide_eq_false hd]
      exact hjoint huv

end Functions

variable (F) in
/-- `calib_unnormalize` of `calib_normalize`, with what `float` makes of both. -/
def floatMap (l f : CalibJoint) (raw : ℤ) : ℤ := calibUnnormalize f (calibNormalize l raw : F)

theorem fraction_normalize {l f : CalibJoint} (hl : RangeOk l) (hends : EndsDiffer F l) {a b : ℤ}
    (ha : |a| ≤ 2 ^ 31) (hb : |b| ≤ 2 ^ 31) (hab : a ≤ b) :
    Facing (inverted l ^^ inverted f) (fraction f (calibNormalize l a : F))
      (fraction f (calibNormalize l b)) 0 1 := by
  have hnorm := stretch_facing (j := l) (share_ordered hl hends ha hb hab)
  rw [← calib_normalize_eq, ← calib_normalize_eq] at hnorm
  unfold Facing at hnorm
  cases hi : inverted l with
  | false =>
    rw [hi] at hnorm
    rw [Bool.false_xor]
    exact fraction_facing hnorm
  | true =>
    rw [hi] at hnorm
    have hfrac := fraction_facing (j := f) hnorm
    unfold Facing at hfrac ⊢
    cases hf : inverted f <;> simpa [hf] using hfrac

theorem scaled_ordered {f : CalibJoint} {x y : F} (hle : f.rangeMin ≤ f.rangeMax)
    (hmin : |f.rangeMin| < 2 ^ 20) (hmax : |f.rangeMax| < 2 ^ 20)
    (hxy : Ordered (fraction f x) (fraction f y) 0 1) :
    calibUnnormalize f x ≤ calibUnnormalize f y := by
  obtain ⟨hmin₁, hmin₂⟩ := abs_lt.mp hmin
  obtain ⟨hmax₁, hmax₂⟩ := abs_lt.mp hmax
  have hspan : |f.rangeMax - f.rangeMin| < 2 ^ 24 := abs_lt.mpr ⟨by omega, by omega⟩
  have hmul := ordered_mul (n := f.rangeMax - f.rangeMin) hxy (by omega) hspan
  have hsum := ordered_add (n := f.rangeMin) (L := f.rangeMin) (H := f.rangeMax) hmul (by omega)
    (by omega) (by omega) (by simp) (by push_cast; linarith)
  exact ordered_trunc hsum hmin hmax

/-- An end of the leader's range goes to an end of the follower's. -/
theorem float_map_end {l f : CalibJoint} (hl : RangeOk l) (hends : EndsDiffer F l)
    (hgrip : l.isGripper = f.isGripper) (hlt : f.rangeMin < f.rangeMax)
    (hmin : |f.rangeMin| < 2 ^ 20) (hmax : |f.rangeMax| < 2 ^ 20) (top : Bool) :
    floatMap F l f (endRaw l (top ^^ inverted l ^^ inverted f)) = endRaw f top := by
  obtain ⟨hlmin, hllt, hlmax⟩ := hl
  have hl : RangeOk l := ⟨hlmin, hllt, hlmax⟩
  obtain ⟨hmin₁, hmin₂⟩ := abs_lt.mp hmin
  obtain ⟨hmax₁, hmax₂⟩ := abs_lt.mp hmax
  have hf : RangeOk f := ⟨by omega, hlt, by omega⟩
  have hraw : |endRaw l (top ^^ inverted l ^^ inverted f)| ≤ 2 ^ 31 := by
    unfold endRaw
    split
    · exact abs_le.mpr ⟨by omega, by omega⟩
    · exact abs_le.mpr ⟨by omega, by omega⟩
  have hnorm := normalize_between hl hends hraw
  have hmem := unnormalize_mem hmin hmax hlt.le hnorm
  have hconv := (scaled_between hmin hmax hlt.le hnorm).converts hmin hmax
  have hfrac := fraction_at_end (f := f) hl hends hgrip top
  have hsmall : |f.rangeMin| < 2 ^ 24 := by omega
  unfold floatMap
  cases top with
  | false =>
    exact le_antisymm (unnormalize_le hf (by omega) hfrac hconv hsmall le_rfl) hmem.1
  | true =>
    exact le_antisymm hmem.2 (le_unnormalize hf (by omega) hfrac hconv hmax (by omega) le_rfl)

/-- Whatever is rounded on the way: the goals keep the order of the leader's readings, or turn
it around where one of the joints is, and the ends of one range are the ends of the other. -/
theorem float_map (F : Type*) [RoundedFloat F] {l f : CalibJoint} (hl : RangeOk l)
    (hends : EndsDiffer F l) (hgrip : l.isGripper = f.isGripper)
    (hlt : f.rangeMin < f.rangeMax) (hmin : |f.rangeMin| < 2 ^ 20)
    (hmax : |f.rangeMax| < 2 ^ 20) :
    (inverted l = inverted f → MonotoneOn (floatMap F l f) (Set.Icc (-2 ^ 31) (2 ^ 31)) ∧
      floatMap F l f l.rangeMin = f.rangeMin ∧ floatMap F l f l.rangeMax = f.rangeMax) ∧
    (inverted l ≠ inverted f → AntitoneOn (floatMap F l f) (Set.Icc (-2 ^ 31) (2 ^ 31)) ∧
      floatMap F l f l.rangeMin = f.rangeMax ∧ floatMap F l f l.rangeMax = f.rangeMin) := by
  have horder : ∀ {a b : ℤ}, a ∈ Set.Icc (-2 ^ 31) (2 ^ 31) → b ∈ Set.Icc (-2 ^ 31) (2 ^ 31) →
      a ≤ b → Facing (inverted l ^^ inverted f) (fraction f (calibNormalize l a : F))
        (fraction f (calibNormalize l b)) 0 1 :=
    fun ha hb hab => fraction_normalize hl hends (abs_le.mpr ha) (abs_le.mpr hb) hab
  have htop := float_map_end (F := F) hl hends hgrip hlt hmin hmax true
  have hlow := float_map_end (F := F) hl hends hgrip hlt hmin hmax false
  constructor
  · intro hsame
    rw [hsame, Bool.xor_self] at horder
    simp only [hsame] at htop hlow
    refine ⟨fun a ha b hb hab => scaled_ordered hlt.le hmin hmax (horder ha hb hab), ?_, ?_⟩
    · simpa [endRaw] using hlow
    · simpa [endRaw] using htop
  · intro hne
    have hturn : (inverted l ^^ inverted f) = true := by simpa using hne
    rw [hturn] at horder
    simp only [Bool.xor_assoc, hturn] at htop hlow
    refine ⟨fun a ha b hb hab => scaled_ordered hlt.le hmin hmax (horder ha hb hab), ?_, ?_⟩
    · simpa [endRaw] using htop
    · simpa [endRaw] using hlow

/-- Two grippers in binary32, of which one is turned around. -/
theorem float_map_gripper :
    let l : CalibJoint := ⟨6, 0, 0, 2017, 3533, true⟩
    let f : CalibJoint := ⟨6, 1, 0, 1403, 2911, true⟩
    AntitoneOn (floatMap Float32.Model l f) (Set.Icc (-2 ^ 31) (2 ^ 31)) ∧
      floatMap Float32.Model l f 2017 = 2911 ∧ floatMap Float32.Model l f 3533 = 1403 := by
  intro l f
  have hl : RangeOk l := ⟨by decide, by decide, by decide⟩
  have hends : EndsDiffer Float32.Model l :=
    ends_differ_of_small (by decide) (by decide) (by decide)
  exact (float_map Float32.Model (f := f) hl hends rfl (by decide) (by decide) (by decide)).2
    (by decide)

end FloatMap
