import Mathlib.Algebra.Order.Field.Power
import Mathlib.Data.Int.ConditionallyCompleteOrder
import Mathlib.Data.Int.Log
import Mathlib.Data.Rat.Floor
import Mathlib.Tactic.Linarith
import Mathlib.Tactic.Positivity

/-!
# Rounding to a floating grid

A number is rounded to a multiple of a power of two, the power chosen from its size so
that the multiple has `p` bits, but never below a least exponent. Rounding is monotone
and leaves the numbers of the grid alone.
-/
namespace Rounding

def nearestEven (x : ℚ) : ℤ :=
  if Int.fract x < 1 / 2 then ⌊x⌋
  else if 1 / 2 < Int.fract x then ⌊x⌋ + 1
  else ⌊x⌋ + ⌊x⌋ % 2

theorem floor_le_nearest_even (x : ℚ) : ⌊x⌋ ≤ nearestEven x := by
  unfold nearestEven
  split_ifs <;> omega

theorem nearest_even_le_floor (x : ℚ) : nearestEven x ≤ ⌊x⌋ + 1 := by
  unfold nearestEven
  split_ifs <;> omega

@[simp] theorem nearest_even_int (n : ℤ) : nearestEven n = n := by
  simp [nearestEven]

theorem nearest_even_mono : Monotone nearestEven := by
  intro x y hxy
  rcases (Int.floor_le_floor hxy).lt_or_eq with hlt | heq
  · calc nearestEven x ≤ ⌊x⌋ + 1 := nearest_even_le_floor x
      _ ≤ ⌊y⌋ := hlt
      _ ≤ nearestEven y := floor_le_nearest_even y
  · have hfract : Int.fract x ≤ Int.fract y := by
      have hx := Int.self_sub_floor x
      have hy := Int.self_sub_floor y
      have hcast : (⌊x⌋ : ℚ) = ⌊y⌋ := by exact_mod_cast heq
      linarith
    unfold nearestEven
    rw [heq]
    split_ifs <;> first | omega | linarith

theorem nearest_even_neg (x : ℚ) : nearestEven (-x) = -nearestEven x := by
  by_cases hx : Int.fract x = 0
  · have hfloor : x = ⌊x⌋ := by
      have h := Int.self_sub_floor x
      linarith
    rw [hfloor, ← Int.cast_neg, nearest_even_int, nearest_even_int]
  · have hneg : Int.fract (-x) = 1 - Int.fract x := Int.fract_neg hx
    have hfloor : ⌊-x⌋ = -⌊x⌋ - 1 := by
      have h₁ := Int.self_sub_floor (-x)
      have h₂ := Int.self_sub_floor x
      have hq : (⌊-x⌋ : ℚ) = ((-⌊x⌋ - 1 : ℤ) : ℚ) := by push_cast; linarith
      exact_mod_cast hq
    unfold nearestEven
    rw [hneg, hfloor]
    split_ifs <;> first | omega | linarith

section Grid

variable (p : ℕ) (emin : ℤ)

def exponent (x : ℚ) : ℤ := if x = 0 then emin else max (Int.log 2 |x| + 1 - p) emin

def roundTo (x : ℚ) : ℚ := nearestEven (x / 2 ^ exponent p emin x) * 2 ^ exponent p emin x

variable {p : ℕ} {emin : ℤ} {x y : ℚ}

theorem emin_le_exponent : emin ≤ exponent p emin x := by
  unfold exponent
  split_ifs
  · exact le_rfl
  · exact le_max_right _ _

theorem exponent_neg : exponent p emin (-x) = exponent p emin x := by
  simp [exponent]

theorem round_to_neg : roundTo p emin (-x) = -roundTo p emin x := by
  unfold roundTo
  rw [exponent_neg, neg_div, nearest_even_neg]
  push_cast
  ring

@[simp] theorem round_to_zero : roundTo p emin 0 = 0 := by
  have h := nearest_even_int 0
  rw [Int.cast_zero] at h
  rw [roundTo, zero_div, h, Int.cast_zero, zero_mul]

theorem grid_div {m k e : ℤ} (h : e ≤ k) :
    (m * 2 ^ k : ℚ) / 2 ^ e = ((m * 2 ^ (k - e).toNat : ℤ) : ℚ) := by
  have hk : ((k - e).toNat : ℤ) = k - e := Int.toNat_of_nonneg (by omega)
  have hpow : (2 : ℚ) ^ (k - e) = 2 ^ (k - e).toNat := by rw [← zpow_natCast, hk]
  rw [mul_div_assoc, ← zpow_sub₀ (by norm_num : (2 : ℚ) ≠ 0), hpow]
  push_cast
  rfl

theorem round_to_grid (p : ℕ) (emin : ℤ) {m k : ℤ} (h : exponent p emin (m * 2 ^ k) ≤ k) :
    roundTo p emin (m * 2 ^ k) = m * 2 ^ k := by
  have hpos : (2 : ℚ) ^ exponent p emin (m * 2 ^ k) ≠ 0 := by positivity
  have hdiv := grid_div (m := m) h
  rw [roundTo, hdiv, nearest_even_int, ← hdiv, div_mul_cancel₀ _ hpos]

theorem round_to_le (p : ℕ) (emin : ℤ) {m k : ℤ} (hk : exponent p emin x ≤ k) (hx : x ≤ m * 2 ^ k) :
    roundTo p emin x ≤ m * 2 ^ k := by
  have hpos : (0 : ℚ) < 2 ^ exponent p emin x := by positivity
  have hle : x / 2 ^ exponent p emin x ≤ m * 2 ^ k / 2 ^ exponent p emin x :=
    div_le_div_of_nonneg_right hx hpos.le
  rw [grid_div hk] at hle
  have hround := nearest_even_mono hle
  rw [nearest_even_int] at hround
  have hcast : (nearestEven (x / 2 ^ exponent p emin x) : ℚ) ≤
      ((m * 2 ^ (k - exponent p emin x).toNat : ℤ) : ℚ) := by exact_mod_cast hround
  rw [← grid_div hk, le_div_iff₀ hpos] at hcast
  exact hcast

theorem le_round_to (p : ℕ) (emin : ℤ) {m k : ℤ} (hk : exponent p emin x ≤ k) (hx : m * 2 ^ k ≤ x) :
    m * 2 ^ k ≤ roundTo p emin x := by
  have h := round_to_le p emin (x := -x) (m := -m) (k := k)
    (by rwa [exponent_neg]) (by push_cast; linarith)
  rw [round_to_neg] at h
  push_cast at h
  linarith

theorem exponent_of_ne_zero (p : ℕ) (emin : ℤ) (hx : x ≠ 0) :
    exponent p emin x = max (Int.log 2 |x| + 1 - p) emin := if_neg hx

theorem exponent_lt (hx : 0 ≤ x) (hxy : x ≤ y) (h : exponent p emin x ≠ exponent p emin y) :
    exponent p emin x < exponent p emin y ∧
      x ≤ 2 ^ (exponent p emin y + p - 1) ∧ 2 ^ (exponent p emin y + p - 1) ≤ y := by
  rcases hx.lt_or_eq with hx0 | rfl
  · have hy0 : 0 < y := hx0.trans_le hxy
    have hlog : Int.log 2 |x| ≤ Int.log 2 |y| := by
      rw [abs_of_pos hx0, abs_of_pos hy0]
      exact Int.log_mono_right hx0 hxy
    rw [exponent_of_ne_zero p emin hx0.ne', exponent_of_ne_zero p emin hy0.ne'] at h ⊢
    have hy : max (Int.log 2 |y| + 1 - p) emin = Int.log 2 |y| + 1 - p := by omega
    have hlt : Int.log 2 |x| + 1 ≤ Int.log 2 |y| := by omega
    rw [hy, show Int.log 2 |y| + 1 - (p : ℤ) + p - 1 = Int.log 2 |y| by ring]
    refine ⟨by omega, ?_, ?_⟩
    · have hup := Int.lt_zpow_succ_log_self (R := ℚ) (b := 2) (by norm_num) |x|
      rw [abs_of_pos hx0] at hup hlt
      exact hup.le.trans (zpow_le_zpow_right₀ (by norm_num) hlt)
    · have hlow := Int.zpow_log_le_self (R := ℚ) (b := 2) (by norm_num) (abs_pos.mpr hy0.ne')
      rwa [abs_of_pos hy0] at hlow ⊢
  · have hy0 : y ≠ 0 := by
      rintro rfl
      exact h rfl
    have hpos : 0 < y := lt_of_le_of_ne hxy hy0.symm
    have hzero : exponent p emin 0 = emin := if_pos rfl
    rw [hzero, exponent_of_ne_zero p emin hy0] at h ⊢
    have hy : max (Int.log 2 |y| + 1 - p) emin = Int.log 2 |y| + 1 - p := by omega
    rw [hy, show Int.log 2 |y| + 1 - (p : ℤ) + p - 1 = Int.log 2 |y| by ring]
    refine ⟨by omega, by positivity, ?_⟩
    have hlow := Int.zpow_log_le_self (R := ℚ) (b := 2) (by norm_num) (abs_pos.mpr hy0)
    rwa [abs_of_pos hpos] at hlow ⊢

theorem round_to_mono_nonneg (p : ℕ) (emin : ℤ) (hp : 1 ≤ p) (hx : 0 ≤ x) (hxy : x ≤ y) :
    roundTo p emin x ≤ roundTo p emin y := by
  by_cases h : exponent p emin x = exponent p emin y
  · unfold roundTo
    rw [h]
    have hpos : (0 : ℚ) < 2 ^ exponent p emin y := by positivity
    have hround := nearest_even_mono (div_le_div_of_nonneg_right hxy hpos.le)
    have hcast : (nearestEven (x / 2 ^ exponent p emin y) : ℚ) ≤
        nearestEven (y / 2 ^ exponent p emin y) := by exact_mod_cast hround
    exact mul_le_mul_of_nonneg_right hcast hpos.le
  · obtain ⟨hlt, hxt, hty⟩ := exponent_lt hx hxy h
    have hup := round_to_le p emin (x := x) (m := 1)
      (k := exponent p emin y + p - 1) (by omega) (by simpa using hxt)
    have hdown := le_round_to p emin (x := y) (m := 1)
      (k := exponent p emin y + p - 1) (by omega) (by simpa using hty)
    exact hup.trans hdown

theorem round_to_nonneg (hx : 0 ≤ x) : 0 ≤ roundTo p emin x := by
  have h := le_round_to p emin (x := x) (m := 0) le_rfl (by simpa using hx)
  simpa using h

theorem round_to_mono (hp : 1 ≤ p) : Monotone (roundTo p emin) := by
  intro x y hxy
  rcases le_total 0 x with hx | hx
  · exact round_to_mono_nonneg p emin hp hx hxy
  rcases le_total 0 y with hy | hy
  · have hx' : 0 ≤ roundTo p emin (-x) := round_to_nonneg (by linarith)
    have hy' : 0 ≤ roundTo p emin y := round_to_nonneg hy
    rw [round_to_neg] at hx'
    linarith
  · have h := round_to_mono_nonneg p emin hp (x := -y) (y := -x)
      (by linarith) (by linarith)
    rw [round_to_neg, round_to_neg] at h
    linarith

theorem exponent_le_of_abs_lt {k : ℤ} (hk : emin ≤ k) (hx : |x| < 2 ^ (k + p)) :
    exponent p emin x ≤ k := by
  unfold exponent
  split_ifs with h0
  · exact hk
  · have hlog : Int.log 2 |x| < k + p :=
      (Int.lt_zpow_iff_log_lt (by norm_num) (abs_pos.mpr h0)).mp (by exact_mod_cast hx)
    exact max_le (by omega) hk

theorem round_to_eq_self {m k : ℤ} (hk : emin ≤ k) (hm : |m| < 2 ^ p) :
    roundTo p emin (m * 2 ^ k) = m * 2 ^ k := by
  apply round_to_grid
  apply exponent_le_of_abs_lt hk
  have hpos : (0 : ℚ) < 2 ^ k := by positivity
  have hmq : |(m : ℚ)| < 2 ^ p := by exact_mod_cast hm
  rw [abs_mul, abs_of_pos hpos, add_comm, zpow_add₀ (by norm_num : (2 : ℚ) ≠ 0), zpow_natCast]
  exact mul_lt_mul_of_pos_right hmq hpos

theorem abs_lt_exponent (p : ℕ) (emin : ℤ) (x : ℚ) : |x| < 2 ^ (exponent p emin x + p) := by
  by_cases hx : x = 0
  · rw [hx, abs_zero]
    positivity
  · have hup := Int.lt_zpow_succ_log_self (R := ℚ) (b := 2) (by norm_num) |x|
    have hexp : Int.log 2 |x| + 1 ≤ exponent p emin x + p := by
      rw [exponent_of_ne_zero p emin hx]
      omega
    exact hup.trans_le (zpow_le_zpow_right₀ (by norm_num) hexp)

/-- What has been rounded is on the grid, also where it was rounded up to a power of two. -/
theorem round_to_idem (hp : 1 ≤ p) : roundTo p emin (roundTo p emin x) = roundTo p emin x := by
  have hpos : (0 : ℚ) < 2 ^ exponent p emin x := by positivity
  have habs := abs_lt_exponent p emin x
  rw [zpow_add₀ (by norm_num : (2 : ℚ) ≠ 0), mul_comm, ← div_lt_iff₀ hpos, zpow_natCast] at habs
  have hdiv : |x / 2 ^ exponent p emin x| < 2 ^ p := by rwa [abs_div, abs_of_pos hpos]
  obtain ⟨hlow, hhigh⟩ := abs_lt.mp hdiv
  have hup := nearest_even_mono hhigh.le
  have hdown := nearest_even_mono hlow.le
  have hint := nearest_even_int (2 ^ p)
  push_cast at hint
  rw [hint] at hup
  rw [nearest_even_neg, hint] at hdown
  have hroot : (2 ^ p : ℚ) * 2 ^ exponent p emin x = (1 : ℤ) * 2 ^ (exponent p emin x + p) := by
    rw [zpow_add₀ (by norm_num : (2 : ℚ) ≠ 0), zpow_natCast]
    push_cast
    ring
  have hone : |(1 : ℤ)| < 2 ^ p := by
    rw [abs_one]
    exact one_lt_pow₀ (by norm_num) (by omega)
  have hk : emin ≤ exponent p emin x + p := by
    have hmin : emin ≤ exponent p emin x := emin_le_exponent
    omega
  have hpower := round_to_eq_self hk hone
  rw [← hroot] at hpower
  have hself : roundTo p emin x = nearestEven (x / 2 ^ exponent p emin x) *
      2 ^ exponent p emin x := rfl
  generalize nearestEven (x / 2 ^ exponent p emin x) = n at hself hup hdown
  rw [hself]
  rcases hup.lt_or_eq with hlt | rfl
  · rcases hdown.lt_or_eq with hgt | rfl
    · exact round_to_eq_self emin_le_exponent (abs_lt.mpr ⟨hgt, hlt⟩)
    · push_cast
      rw [neg_mul, round_to_neg, hpower]
  · push_cast
    exact hpower

theorem round_to_whole (n : ℤ) : ∃ m : ℤ, roundTo p emin n = m := by
  rcases le_total (exponent p emin n) 0 with h | h
  · refine ⟨n, ?_⟩
    have hgrid := round_to_grid p emin (m := n) (k := 0) (by simpa using h)
    simpa using hgrid
  · obtain ⟨k, hk⟩ := Int.eq_ofNat_of_zero_le h
    refine ⟨nearestEven (n / 2 ^ exponent p emin n) * 2 ^ k, ?_⟩
    unfold roundTo
    rw [hk]
    push_cast
    rw [zpow_natCast]

theorem nearest_even_le_pred {y : ℚ} {n : ℤ} (h : y < n - 1 / 2) : nearestEven y ≤ n - 1 := by
  have hfloor := Int.self_sub_floor y
  have hnonneg := Int.fract_nonneg y
  have hlt : (⌊y⌋ : ℚ) < n := by linarith
  have hint : ⌊y⌋ < n := by exact_mod_cast hlt
  rcases Int.lt_or_eq_of_le (Int.le_sub_one_of_lt hint) with hbelow | heq
  · have hup := nearest_even_le_floor y
    omega
  · have hcast : (⌊y⌋ : ℚ) = n - 1 := by exact_mod_cast heq
    have hsmall : Int.fract y < 1 / 2 := by linarith
    rw [nearestEven, if_pos hsmall, heq]

theorem nearest_even_eq {y : ℚ} {n : ℤ} (hlow : n - 1 / 2 < y) (hhigh : y < n + 1 / 2) :
    nearestEven y = n := by
  have hup := nearest_even_le_pred (y := y) (n := n + 1) (by push_cast; linarith)
  have hdown := nearest_even_le_pred (y := -y) (n := -n + 1) (by push_cast; linarith)
  rw [nearest_even_neg] at hdown
  omega

/-- A tie below an even number goes up to it. -/
theorem nearest_even_tie {n : ℤ} (heven : n % 2 = 0) : nearestEven (n - 1 / 2) = n := by
  have hfloor : ⌊(n - 1 / 2 : ℚ)⌋ = n - 1 := by
    apply Int.floor_eq_iff.mpr
    push_cast
    constructor <;> linarith
  have hfract : Int.fract (n - 1 / 2 : ℚ) = 1 / 2 := by
    rw [← Int.self_sub_floor, hfloor]
    push_cast
    ring
  rw [nearestEven, hfract, hfloor, if_neg (lt_irrefl _), if_neg (lt_irrefl _)]
  omega

theorem two_zpow_sub (k : ℤ) (n : ℕ) : (2 : ℚ) ^ k = 2 ^ n * 2 ^ (k - n) := by
  rw [← zpow_natCast, ← zpow_add₀ (by norm_num : (2 : ℚ) ≠ 0)]
  congr 1
  ring

section Midpoint

variable {k : ℤ}

theorem midpoint_div (k : ℤ) :
    ((2 ^ k - 2 ^ (k - p) / 2) / 2 ^ (k - p) : ℚ) = (2 ^ p : ℤ) - 1 / 2 := by
  have hstep : (0 : ℚ) < 2 ^ (k - p) := by positivity
  rw [div_eq_iff hstep.ne', two_zpow_sub k p]
  push_cast
  ring

theorem midpoint_bounds (hp : 1 ≤ p) (k : ℤ) :
    (2 : ℚ) ^ (k - 1) ≤ 2 ^ k - 2 ^ (k - p) / 2 ∧ (2 : ℚ) ^ k - 2 ^ (k - p) / 2 < 2 ^ k := by
  have hstep : (0 : ℚ) < 2 ^ (k - p) := by positivity
  have hhalf := two_zpow_sub k 1
  have hle : (2 : ℚ) ^ (k - p) ≤ 2 ^ (k - 1) := by
    apply zpow_le_zpow_right₀ (by norm_num)
    omega
  push_cast at hhalf
  constructor <;> linarith

theorem round_to_midpoint (hp : 1 ≤ p) (hk : emin ≤ k - p) :
    roundTo p emin (2 ^ k - 2 ^ (k - p) / 2) = 2 ^ k := by
  obtain ⟨hlow, hhigh⟩ := midpoint_bounds hp k
  have hlow0 : (0 : ℚ) < 2 ^ (k - 1) := by positivity
  have hpos : (0 : ℚ) < 2 ^ k - 2 ^ (k - p) / 2 := hlow0.trans_le hlow
  have hlog : Int.log 2 (2 ^ k - 2 ^ (k - p) / 2 : ℚ) = k - 1 := by
    apply le_antisymm
    · have hup := (Int.lt_zpow_iff_log_lt (b := 2) (by norm_num) hpos (x := k)).mp
        (by exact_mod_cast hhigh)
      omega
    · have hmono := Int.log_mono_right (b := 2) hlow0 hlow
      have hself := Int.log_zpow (R := ℚ) (b := 2) (by norm_num) (k - 1)
      push_cast at hself
      omega
  have hexp : exponent p emin (2 ^ k - 2 ^ (k - p) / 2) = k - p := by
    rw [exponent_of_ne_zero p emin hpos.ne', abs_of_pos hpos, hlog]
    omega
  have heven : (2 ^ p : ℤ) % 2 = 0 := by
    obtain ⟨n, rfl⟩ : ∃ n, p = n + 1 := ⟨p - 1, by omega⟩
    rw [pow_succ, Int.mul_emod_left]
  rw [roundTo, hexp, midpoint_div, nearest_even_tie heven, two_zpow_sub k p]
  push_cast
  rfl

/-- Below the midpoint the last place is that of the numbers below `2 ^ k`, or a finer one. -/
theorem round_to_lt_of_lt_midpoint (hp : 1 ≤ p) (hk : emin ≤ k - p) (hpos : 0 < x)
    (hx : x < 2 ^ k - 2 ^ (k - p) / 2) : roundTo p emin x < 2 ^ k := by
  have hstep : (0 : ℚ) < 2 ^ (k - p) := by positivity
  obtain ⟨_, hhigh⟩ := midpoint_bounds hp k
  have hexp : exponent p emin x ≤ k - p := by
    apply exponent_le_of_abs_lt hk
    rw [abs_of_pos hpos, sub_add_cancel]
    exact hx.trans hhigh
  rcases Int.lt_or_eq_of_le hexp with hfiner | heq
  · -- the midpoint is on the grid
    have hgrid : (2 : ℚ) ^ k - 2 ^ (k - p) / 2 = (2 ^ (p + 1) - 1 : ℤ) * 2 ^ (k - p - 1) := by
      have hhalf := two_zpow_sub (k - p) 1
      have hfull := two_zpow_sub k (p + 1)
      push_cast at hhalf hfull ⊢
      rw [← sub_sub] at hfull
      linarith
    rw [hgrid] at hx hhigh
    exact (round_to_le p emin (by omega) hx.le).trans_lt hhigh
  · have hy : x / 2 ^ (k - p) < (2 ^ p : ℤ) - 1 / 2 := by
      rw [← midpoint_div]
      exact div_lt_div_of_pos_right hx hstep
    have hnear : (nearestEven (x / 2 ^ (k - p)) : ℚ) ≤ (2 ^ p : ℤ) - 1 := by
      exact_mod_cast nearest_even_le_pred hy
    have hle := mul_le_mul_of_nonneg_right hnear hstep.le
    have hpow := two_zpow_sub k p
    rw [roundTo, heq]
    push_cast at hle
    linarith

theorem round_to_lt_zpow_iff (hp : 1 ≤ p) (hk : emin ≤ k - p) (hpos : 0 < x) :
    roundTo p emin x < 2 ^ k ↔ x < 2 ^ k - 2 ^ (k - p) / 2 := by
  constructor
  · contrapose!
    intro hx
    rw [← round_to_midpoint hp hk]
    exact round_to_mono hp hx
  · exact round_to_lt_of_lt_midpoint hp hk hpos

end Midpoint

theorem exponent_eq {k : ℤ} (hk : emin ≤ k + 1 - p) (hlow : 2 ^ k ≤ x)
    (hhigh : x < 2 ^ (k + 1)) : exponent p emin x = k + 1 - p := by
  have hpos : 0 < x := lt_of_lt_of_le (by positivity) hlow
  have hge : k ≤ Int.log 2 x :=
    (Int.zpow_le_iff_le_log (by norm_num) hpos).mp (by exact_mod_cast hlow)
  have hlt : Int.log 2 x < k + 1 :=
    (Int.lt_zpow_iff_log_lt (by norm_num) hpos).mp (by exact_mod_cast hhigh)
  rw [exponent_of_ne_zero p emin hpos.ne', abs_of_pos hpos]
  omega

theorem round_to_near {k m : ℤ} (hk : emin ≤ k + 1 - p) (hlow : 2 ^ k ≤ x)
    (hhigh : x < 2 ^ (k + 1)) (hleft : (m - 1 / 2) * 2 ^ (k + 1 - p) < x)
    (hright : x < (m + 1 / 2) * 2 ^ (k + 1 - p)) :
    roundTo p emin x = m * 2 ^ (k + 1 - p) := by
  have hstep : (0 : ℚ) < 2 ^ (k + 1 - p) := by positivity
  rw [roundTo, exponent_eq hk hlow hhigh,
    nearest_even_eq ((lt_div_iff₀ hstep).mpr hleft) ((div_lt_iff₀ hstep).mpr hright)]

theorem next_grid_le {k m : ℤ} (hx : roundTo p emin x = x) (hk : 2 ^ k ≤ x)
    (hm : m * 2 ^ (k + 1 - p) < x) : (m + 1) * 2 ^ (k + 1 - p) ≤ x := by
  have hpos : (0 : ℚ) < 2 ^ k := by positivity
  have hx0 : 0 < x := hpos.trans_le hk
  have hexp : k + 1 - p ≤ exponent p emin x := by
    have hlog : k ≤ Int.log 2 x := by
      have hmono := Int.log_mono_right (b := 2) hpos hk
      have hself := Int.log_zpow (R := ℚ) (b := 2) (by norm_num) k
      push_cast at hself
      omega
    rw [exponent_of_ne_zero p emin hx0.ne', abs_of_pos hx0]
    omega
  obtain ⟨n, hn⟩ : ∃ n : ℤ, x / 2 ^ (k + 1 - p) = n := by
    have hgrid := grid_div (m := nearestEven (x / 2 ^ exponent p emin x)) hexp
    have hself : (nearestEven (x / 2 ^ exponent p emin x) : ℚ) * 2 ^ exponent p emin x = x := hx
    rw [hself] at hgrid
    exact ⟨_, hgrid⟩
  have hstep : (0 : ℚ) < 2 ^ (k + 1 - p) := by positivity
  rw [← lt_div_iff₀ hstep, hn] at hm
  rw [← le_div_iff₀ hstep, hn]
  have hint : m < n := by exact_mod_cast hm
  exact_mod_cast hint

end Grid

end Rounding
