import Mathlib.Data.Int.ConditionallyCompleteOrder
import Mathlib.Tactic.Linarith
import Mathlib.Tactic.NormNum
import Mathlib.Tactic.Positivity
import So101.Calibration

/-!
# What the float operations keep

An operation on finite operands is the exact operation followed by one monotone rounding,
as long as nothing overflows. From this alone come the bounds of the calibration map.
-/
namespace FloatLaws

open Calibration (CFloat truncRat)
open Calibration.CFloat

/-- `value x` is the number that `x` stands for, if it is finite. -/
class RoundedFloat (F : Type*) extends CFloat F where
  value : F → Option ℚ
  rnd : ℚ → ℚ
  rnd_mono : Monotone rnd
  rnd_grid : ∀ (m : ℤ) (k : ℕ), |m| < 2 ^ 24 → rnd (m * 2 ^ k) = m * 2 ^ k
  rnd_whole : ∀ n : ℤ, ∃ m : ℤ, rnd n = m
  value_of_int : ∀ n : ℤ, |n| ≤ 2 ^ 32 → value (ofInt n) = some (rnd n)
  value_add : ∀ {a b : F} {p q}, value a = some p → value b = some q → |p + q| ≤ 2 ^ 64 →
    value (a + b) = some (rnd (p + q))
  value_sub : ∀ {a b : F} {p q}, value a = some p → value b = some q → |p - q| ≤ 2 ^ 64 →
    value (a - b) = some (rnd (p - q))
  value_mul : ∀ {a b : F} {p q}, value a = some p → value b = some q → |p * q| ≤ 2 ^ 64 →
    value (a * b) = some (rnd (p * q))
  value_div : ∀ {a b : F} {p q}, value a = some p → value b = some q → q ≠ 0 → |p / q| ≤ 2 ^ 64 →
    value (a / b) = some (rnd (p / q))
  value_neg : ∀ {a : F} {p}, value a = some p → value (-a) = some (-p)
  lt_iff : ∀ {a b : F} {p q}, value a = some p → value b = some q → (lt a b = true ↔ p < q)
  trunc_eq : ∀ {a : F} {p}, value a = some p → |p| < 2 ^ 31 → trunc a = truncRat p

theorem some_congr {a b p q : ℚ} (f : ℚ → ℚ → ℚ) (ha : some a = some p) (hb : some b = some q) :
    some (f a b) = some (f p q) := by
  rw [Option.some_inj.mp ha, Option.some_inj.mp hb]

theorem some_lt_iff {a b p q : ℚ} (ha : some a = some p) (hb : some b = some q) :
    decide (a < b) = true ↔ p < q := by
  rw [Option.some_inj.mp ha, Option.some_inj.mp hb, decide_eq_true_iff]

instance : RoundedFloat ℚ where
  value := some
  rnd q := q
  rnd_mono := monotone_id
  rnd_grid _ _ _ := rfl
  rnd_whole n := ⟨n, rfl⟩
  value_of_int _ _ := rfl
  value_add ha hb _ := some_congr (· + ·) ha hb
  value_sub ha hb _ := some_congr (· - ·) ha hb
  value_mul ha hb _ := some_congr (· * ·) ha hb
  value_div ha hb _ _ := some_congr (· / ·) ha hb
  value_neg ha := congrArg (Option.map Neg.neg) ha
  lt_iff := some_lt_iff
  trunc_eq ha _ := congrArg truncRat (Option.some_inj.mp ha)

open RoundedFloat

theorem trunc_rat_of_nonneg {q : ℚ} (h : 0 ≤ q) : truncRat q = ⌊q⌋ := by
  rw [truncRat, Int.tdiv_eq_ediv_of_nonneg (Rat.num_nonneg.mpr h)]
  exact Rat.floor_def'.symm

theorem trunc_rat_neg (q : ℚ) : truncRat (-q) = -truncRat q := by
  simp [truncRat]

theorem trunc_rat_mem {q : ℚ} {l h : ℤ} (hl : (l : ℚ) ≤ q) (hh : q ≤ h) :
    l ≤ truncRat q ∧ truncRat q ≤ h := by
  rcases le_total 0 q with hq | hq
  · rw [trunc_rat_of_nonneg hq]
    refine ⟨Int.le_floor.mpr hl, ?_⟩
    have hfloor : (⌊q⌋ : ℚ) ≤ h := (Int.floor_le q).trans hh
    exact_mod_cast hfloor
  · have hneg : truncRat q = -⌊-q⌋ := by
      rw [← trunc_rat_of_nonneg (neg_nonneg.mpr hq), trunc_rat_neg, neg_neg]
    rw [hneg]
    constructor
    · have hfloor : (⌊-q⌋ : ℚ) ≤ -l := (Int.floor_le _).trans (neg_le_neg hl)
      have hint : ⌊-q⌋ ≤ -l := by exact_mod_cast hfloor
      omega
    · have hint : -h ≤ ⌊-q⌋ := Int.le_floor.mpr (by push_cast; exact neg_le_neg hh)
      omega

theorem trunc_rat_int (n : ℤ) : truncRat n = n := by
  obtain ⟨hlo, hhi⟩ := trunc_rat_mem (q := n) le_rfl le_rfl
  exact le_antisymm hhi hlo

theorem trunc_rat_mono : Monotone truncRat := by
  intro p q hpq
  rcases le_total 0 p with hp | hp
  · rw [trunc_rat_of_nonneg hp, trunc_rat_of_nonneg (hp.trans hpq)]
    exact Int.floor_le_floor hpq
  · rcases le_total 0 q with hq | hq
    · have hlow := (trunc_rat_mem (h := 0) (Int.floor_le p) (by simpa using hp)).2
      have hhigh := (trunc_rat_mem (l := 0) (by simpa using hq) (Int.le_ceil q)).1
      exact hlow.trans hhigh
    · rw [← neg_neg p, ← neg_neg q, trunc_rat_neg, trunc_rat_neg (-q),
        trunc_rat_of_nonneg (neg_nonneg.mpr hp), trunc_rat_of_nonneg (neg_nonneg.mpr hq)]
      exact neg_le_neg (Int.floor_le_floor (neg_le_neg hpq))

section Rounding

variable {F : Type*} [RoundedFloat F]

theorem rnd_int {n : ℤ} (h : |n| < 2 ^ 24) : rnd F n = n := by
  simpa using rnd_grid (F := F) n 0 h

theorem rnd_le {q : ℚ} {n : ℤ} (hn : |n| < 2 ^ 24) (h : q ≤ n) : rnd F q ≤ n :=
  (rnd_mono h).trans_eq (rnd_int hn)

theorem le_rnd {q : ℚ} {n : ℤ} (hn : |n| < 2 ^ 24) (h : (n : ℚ) ≤ q) : (n : ℚ) ≤ rnd F q :=
  (rnd_int hn).symm.trans_le (rnd_mono h)

theorem abs_rnd_le {q : ℚ} {k : ℕ} (h : |q| ≤ 2 ^ k) : |rnd F q| ≤ 2 ^ k := by
  obtain ⟨hlo, hhi⟩ := abs_le.mp h
  have hup : rnd F (2 ^ k) = 2 ^ k := by simpa using rnd_grid (F := F) 1 k (by norm_num)
  have hdown : rnd F (-2 ^ k) = -2 ^ k := by simpa using rnd_grid (F := F) (-1) k (by norm_num)
  refine abs_le.mpr ⟨?_, ?_⟩
  · exact hdown.symm.trans_le (rnd_mono hlo)
  · exact (rnd_mono hhi).trans_eq hup

/-- The finite value of `x` lies between two numbers. -/
def Between (x : F) (l h : ℚ) : Prop := ∃ q, value x = some q ∧ l ≤ q ∧ q ≤ h

theorem between_rnd {x : F} {q : ℚ} {l h : ℤ} (hx : value x = some (rnd F q))
    (hl : |l| < 2 ^ 24) (hh : |h| < 2 ^ 24) (hlq : (l : ℚ) ≤ q) (hqh : q ≤ h) :
    Between x l h :=
  ⟨_, hx, le_rnd hl hlq, rnd_le hh hqh⟩

theorem of_int_value {n : ℤ} (h : |n| < 2 ^ 24) : value (ofInt n : F) = some (n : ℚ) := by
  rw [value_of_int n (by omega), rnd_int h]

theorem value_max {a b : F} {p q : ℚ} (ha : value a = some p) (hb : value b = some q) :
    value (if lt a b then b else a) = some (max p q) := by
  by_cases h : p < q
  · rw [if_pos ((lt_iff ha hb).mpr h), hb, max_eq_right h.le]
  · rw [if_neg (mt (lt_iff ha hb).mp h), ha, max_eq_left (not_lt.mp h)]

theorem value_min {a b : F} {p q : ℚ} (ha : value a = some p) (hb : value b = some q) :
    value (if lt b a then b else a) = some (min p q) := by
  by_cases h : q < p
  · rw [if_pos ((lt_iff hb ha).mpr h), hb, min_eq_right h.le]
  · rw [if_neg (mt (lt_iff hb ha).mp h), ha, min_eq_left (not_lt.mp h)]

theorem Between.mono {x : F} {l h l' h' : ℚ} (hx : Between x l h) (hl : l' ≤ l) (hh : h ≤ h') :
    Between x l' h' := by
  obtain ⟨q, hq, hlq, hqh⟩ := hx
  exact ⟨q, hq, hl.trans hlq, hqh.trans hh⟩

/-- The float can be converted to `int`. -/
def Converts (x : F) : Prop := ∃ q, value x = some q ∧ |q| < 2 ^ 31

theorem Between.converts {x : F} {l h : ℤ} (hx : Between x l h) (hl : |l| < 2 ^ 20)
    (hh : |h| < 2 ^ 20) : Converts x := by
  obtain ⟨q, hq, hlq, hqh⟩ := hx
  have hlow : (-2 ^ 20 : ℚ) < l := by exact_mod_cast (abs_lt.mp hl).1
  have hhigh : (h : ℚ) < 2 ^ 20 := by exact_mod_cast (abs_lt.mp hh).2
  exact ⟨q, hq, abs_lt.mpr ⟨by linarith, by linarith⟩⟩

theorem between_int {n : ℤ} (h : |n| < 2 ^ 24) : Between (ofInt n : F) n n :=
  ⟨n, of_int_value h, le_rfl, le_rfl⟩

theorem between_neg {x : F} {l h : ℚ} (hx : Between x l h) : Between (-x) (-h) (-l) := by
  obtain ⟨q, hq, hlq, hqh⟩ := hx
  exact ⟨-q, value_neg hq, neg_le_neg hqh, neg_le_neg hlq⟩

section Small

variable {x y : F} {l h l' h' : ℚ} {L H : ℤ}

theorem abs_le_of_small {q : ℚ} (hL : |L| < 2 ^ 24) (hH : |H| < 2 ^ 24) (hlq : (L : ℚ) ≤ q)
    (hqh : q ≤ H) : |q| ≤ 2 ^ 64 := by
  have hl : (-2 ^ 24 : ℚ) < L := by exact_mod_cast (abs_lt.mp hL).1
  have hh : (H : ℚ) < 2 ^ 24 := by exact_mod_cast (abs_lt.mp hH).2
  exact abs_le.mpr ⟨by linarith, by linarith⟩

theorem between_add (hx : Between x l h) (hy : Between y l' h') (hL : |L| < 2 ^ 24)
    (hH : |H| < 2 ^ 24) (hl : (L : ℚ) ≤ l + l') (hh : h + h' ≤ H) : Between (x + y) L H := by
  obtain ⟨p, hp, hlp, hph⟩ := hx
  obtain ⟨q, hq, hlq, hqh⟩ := hy
  have hlow : (L : ℚ) ≤ p + q := by linarith
  have hhigh : p + q ≤ H := by linarith
  exact between_rnd (value_add hp hq (abs_le_of_small hL hH hlow hhigh)) hL hH hlow hhigh

theorem between_sub (hx : Between x l h) (hy : Between y l' h') (hL : |L| < 2 ^ 24)
    (hH : |H| < 2 ^ 24) (hl : (L : ℚ) ≤ l - h') (hh : h - l' ≤ H) : Between (x - y) L H := by
  obtain ⟨p, hp, hlp, hph⟩ := hx
  obtain ⟨q, hq, hlq, hqh⟩ := hy
  have hlow : (L : ℚ) ≤ p - q := by linarith
  have hhigh : p - q ≤ H := by linarith
  exact between_rnd (value_sub hp hq (abs_le_of_small hL hH hlow hhigh)) hL hH hlow hhigh

theorem between_mul (hx : Between x 0 1) (hy : Between y l h) (hH : |H| < 2 ^ 24) (hl : 0 ≤ l)
    (hh : h ≤ H) : Between (x * y) 0 H := by
  obtain ⟨p, hp, hlp, hph⟩ := hx
  obtain ⟨q, hq, hlq, hqh⟩ := hy
  have hq0 : 0 ≤ q := hl.trans hlq
  have hlow : ((0 : ℤ) : ℚ) ≤ p * q := by simpa using mul_nonneg hlp hq0
  have hhigh : p * q ≤ H := (mul_le_of_le_one_left hq0 hph).trans (hqh.trans hh)
  have habs := abs_le_of_small (by norm_num) hH hlow hhigh
  simpa using between_rnd (value_mul hp hq habs) (by norm_num) hH hlow hhigh

theorem between_div {n : ℤ} (hx : Between x 0 n) (hn : 0 < n) (hsmall : |n| < 2 ^ 24) :
    Between (x / ofInt n) 0 1 := by
  obtain ⟨p, hp, hlp, hph⟩ := hx
  have hnq : (0 : ℚ) < n := by exact_mod_cast hn
  have hlow : ((0 : ℤ) : ℚ) ≤ p / n := by simpa using div_nonneg hlp hnq.le
  have hhigh : p / n ≤ ((1 : ℤ) : ℚ) := by simpa using (div_le_one hnq).mpr hph
  have habs := abs_le_of_small (by norm_num) (by norm_num) hlow hhigh
  have hval := value_div hp (of_int_value hsmall) hnq.ne' habs
  simpa using between_rnd hval (by norm_num) (by norm_num) hlow hhigh

theorem value_int_add {m n : ℤ} (hx : value x = some (m : ℚ)) (hy : value y = some (n : ℚ))
    (h : |m + n| < 2 ^ 24) : value (x + y) = some ((m + n : ℤ) : ℚ) := by
  have hsum : ((m + n : ℤ) : ℚ) = m + n := Int.cast_add m n
  have hval := value_add hx hy (abs_le_of_small h h hsum.le hsum.ge)
  rwa [← hsum, rnd_int h] at hval

theorem value_int_sub {m n : ℤ} (hx : value x = some (m : ℚ)) (hy : value y = some (n : ℚ))
    (h : |m - n| < 2 ^ 24) : value (x - y) = some ((m - n : ℤ) : ℚ) := by
  have hdiff : ((m - n : ℤ) : ℚ) = m - n := Int.cast_sub m n
  have hval := value_sub hx hy (abs_le_of_small h h hdiff.le hdiff.ge)
  rwa [← hdiff, rnd_int h] at hval

theorem value_int_mul {m n : ℤ} (hx : value x = some (m : ℚ)) (hy : value y = some (n : ℚ))
    (h : |m * n| < 2 ^ 24) : value (x * y) = some ((m * n : ℤ) : ℚ) := by
  have hprod : ((m * n : ℤ) : ℚ) = m * n := Int.cast_mul m n
  have hval := value_mul hx hy (abs_le_of_small h h hprod.le hprod.ge)
  rwa [← hprod, rnd_int h] at hval

theorem value_int_div {m n : ℤ} (hx : value x = some ((m * n : ℤ) : ℚ))
    (hy : value y = some (n : ℚ)) (hn : n ≠ 0) (h : |m| < 2 ^ 24) :
    value (x / y) = some (m : ℚ) := by
  have hnq : (n : ℚ) ≠ 0 := by exact_mod_cast hn
  have hquot : ((m * n : ℤ) : ℚ) / n = m := by rw [Int.cast_mul, mul_div_cancel_right₀ _ hnq]
  have hval := value_div hx hy hnq (by rw [hquot]; exact abs_le_of_small h h le_rfl le_rfl)
  rwa [hquot, rnd_int h] at hval

theorem between_clamp {n m : ℤ} (hx : Between x l h) (hn : |n| < 2 ^ 24) (hm : |m| < 2 ^ 24)
    (hnm : n ≤ m) :
    Between (let x := if lt x (ofInt n) then ofInt n else x
      if lt (ofInt m) x then ofInt m else x) n m := by
  obtain ⟨q, hq, _, _⟩ := hx
  have hnmq : (n : ℚ) ≤ m := by exact_mod_cast hnm
  exact ⟨_, value_min (value_max hq (of_int_value hn)) (of_int_value hm),
    le_min (le_max_right _ _) hnmq, min_le_right _ _⟩

theorem value_clamp {n m k : ℤ} (hx : value x = some (k : ℚ)) (hn : |n| < 2 ^ 24)
    (hm : |m| < 2 ^ 24) (hnk : n ≤ k) (hkm : k ≤ m) :
    value (let x := if lt x (ofInt n) then ofInt n else x
      if lt (ofInt m) x then ofInt m else x) = some (k : ℚ) := by
  have hnkq : (n : ℚ) ≤ k := by exact_mod_cast hnk
  have hkmq : (k : ℚ) ≤ m := by exact_mod_cast hkm
  have hval := value_min (value_max hx (of_int_value hn)) (of_int_value hm)
  rwa [max_eq_left hnkq, min_eq_left hkmq] at hval

end Small

end Rounding

end FloatLaws
