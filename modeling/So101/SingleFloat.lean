import So101.FloatLaws
import So101.Lib.PackedFloat

/-!
# Binary32 meets the laws

The laws of the float operations hold of the 32-bit format itself, as the core model
computes it.
-/
namespace SingleFloat

open Calibration (CFloat truncRat)
open FloatLaws FloatModel Rounding

instance : CFloat Float32.Model where
  ofInt := Float32.Model.ofInt
  lt := Float32.Model.lt
  trunc f := f.toInt32.toInt

theorem rounded_mono : Monotone rounded := round_to_mono (by norm_num)

theorem rounded_grid (m : ℤ) (k : ℕ) (h : |m| < 2 ^ 24) : rounded (m * 2 ^ k) = m * 2 ^ k := by
  have hself : rounded (m * 2 ^ (k : ℤ)) = m * 2 ^ (k : ℤ) := round_to_eq_self (by omega) h
  rwa [zpow_natCast] at hself

theorem rounded_whole (n : ℤ) : ∃ m : ℤ, rounded n = m := round_to_whole n

theorem number_trunc {f : Float32.Model} {p : ℚ} (hp : number f = some p) (h : |p| < 2 ^ 31) :
    CFloat.trunc f = truncRat p := by
  obtain ⟨hpos, hneg⟩ := number_to_int32 hp h
  rcases le_total 0 p with hp0 | hp0
  · rw [trunc_rat_of_nonneg hp0]
    exact hpos hp0
  · have htrunc := trunc_rat_of_nonneg (neg_nonneg.mpr hp0)
    rw [trunc_rat_neg] at htrunc
    calc CFloat.trunc f = -⌊-p⌋ := hneg hp0
      _ = truncRat p := by rw [← htrunc, neg_neg]

instance : RoundedFloat Float32.Model where
  value := number
  rnd := rounded
  rnd_mono := rounded_mono
  rnd_grid := rounded_grid
  rnd_whole := rounded_whole
  value_of_int _ h := number_of_int h
  value_add hp hq h := number_add hp hq h
  value_sub hp hq h := number_sub hp hq h
  value_mul hp hq h := number_mul hp hq h
  value_div hp hq hq0 h := number_div hp hq hq0 h
  value_neg hp := number_neg hp
  lt_iff hp hq := number_lt hp hq
  trunc_eq hp h := number_trunc hp h

end SingleFloat
