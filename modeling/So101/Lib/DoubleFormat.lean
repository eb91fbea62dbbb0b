import So101.Lib.Rounding

/-!
# The numbers of binary64

Finite numbers are rationals on the grid of 53 bits and below the overflow bound, so that no
other value can be built. Division rounds once. Zeros are not told apart by their sign.
-/
namespace DoubleFormat

open Rounding

abbrev rounded (x : ℚ) : ℚ := roundTo 53 (-1074) x

structure IsFinite (q : ℚ) : Prop where
  grid : rounded q = q
  bounded : |q| < 2 ^ 1024

inductive Double where
  | finite (q : ℚ) (h : IsFinite q)
  | infinite (negative : Bool)
  | nan

theorem rounded_finite {x : ℚ} (h : |rounded x| < 2 ^ 1024) : IsFinite (rounded x) :=
  ⟨round_to_idem (by decide), h⟩

theorem int_finite {n : ℤ} (h : |n| < 2 ^ 53) : IsFinite n := by
  have hgrid : rounded (n * 2 ^ (0 : ℤ)) = n * 2 ^ (0 : ℤ) := round_to_eq_self (by decide) h
  rw [zpow_zero, mul_one] at hgrid
  have habs : |(n : ℚ)| < 2 ^ 53 := by exact_mod_cast h
  have hle : (2 : ℚ) ^ 53 ≤ 2 ^ 1024 := pow_le_pow_right₀ (by norm_num) (by norm_num)
  exact ⟨hgrid, habs.trans_le hle⟩

theorem zero_finite : IsFinite 0 where
  grid := round_to_zero
  bounded := by
    rw [abs_zero]
    positivity

/-- The nearest number of the format; beyond the largest one it is infinite. -/
def ofRat (x : ℚ) : Double :=
  if h : |rounded x| < 2 ^ 1024 then .finite (rounded x) (rounded_finite h)
  else .infinite (decide (x < 0))

def Double.div : Double → Double → Double
  | .finite a _, .finite b _ =>
    if b = 0 then if a = 0 then .nan else .infinite (decide (a < 0))
    else ofRat (a / b)
  | .finite _ _, .infinite _ => ofRat 0
  | .infinite s, .finite b _ => .infinite (xor s (decide (b < 0)))
  | .infinite _, .infinite _ => .nan
  | .nan, _ => .nan
  | _, .nan => .nan

/-- `a <= b`; false as soon as one of them is not a number. -/
def Double.le : Double → Double → Bool
  | .finite a _, .finite b _ => decide (a ≤ b)
  | .finite _ _, .infinite s => !s
  | .infinite s, .finite _ _ => s
  | .infinite s, .infinite t => s || !t
  | .nan, _ => false
  | _, .nan => false

/-- `a < b` -/
def Double.lt : Double → Double → Bool
  | .finite a _, .finite b _ => decide (a < b)
  | .finite _ _, .infinite s => !s
  | .infinite s, .finite _ _ => s
  | .infinite s, .infinite t => s && !t
  | .nan, _ => false
  | _, .nan => false

theorem of_rat_finite {q : ℚ} (h : IsFinite q) : ofRat q = .finite q h := by
  have hgrid := h.grid
  have hbound : |rounded q| < 2 ^ 1024 := by
    rw [hgrid]
    exact h.bounded
  rw [ofRat, dif_pos hbound]
  simp only [hgrid]

theorem IsFinite.next_le {q : ℚ} (h : IsFinite q) {k m : ℤ} (hk : 2 ^ k ≤ q)
    (hm : m * 2 ^ (k - 52) < q) : (m + 1) * 2 ^ (k - 52) ≤ q := by
  have hplace : k + 1 - (53 : ℕ) = k - 52 := by
    push_cast
    ring
  have hnext := next_grid_le h.grid hk (m := m)
  rw [hplace] at hnext
  exact hnext hm

end DoubleFormat
