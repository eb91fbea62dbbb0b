import Mathlib.Algebra.Order.Group.Abs
import Mathlib.Algebra.Order.Group.MinMax
import Mathlib.Order.Interval.Set.UnorderedInterval

/-!
# Moving towards a target by bounded steps

A value moves by its distance to the target, cut off at a step to either side. It stays
between where it was and the target.
-/
namespace RateLimit

variable {α : Type*} [AddCommGroup α] [LinearOrder α]

def limited (step d : α) : α := max (-step) (min d step)

def toward (step t x : α) : α := x + limited step (t - x)

theorem neg_le_limited (step d : α) : -step ≤ limited step d := le_max_left _ _

variable [IsOrderedAddMonoid α] {step t x : α}

theorem limited_le (h : 0 ≤ step) (d : α) : limited step d ≤ step :=
  max_le ((neg_nonpos.mpr h).trans h) (min_le_right d step)

theorem abs_toward_sub_le (h : 0 ≤ step) : |toward step t x - x| ≤ step := by
  rw [toward, add_sub_cancel_left, abs_le]
  exact ⟨neg_le_limited step _, limited_le h _⟩

theorem toward_mem_uIcc (h : 0 ≤ step) : toward step t x ∈ Set.uIcc x t := by
  have hneg : -step ≤ 0 := neg_nonpos.mpr h
  rcases le_total x t with hxt | htx
  · have hd : 0 ≤ t - x := sub_nonneg.mpr hxt
    rw [Set.uIcc_of_le hxt, toward, limited, max_eq_right (hneg.trans (le_min hd h))]
    constructor
    · exact le_add_of_nonneg_right (le_min hd h)
    · exact (add_le_add_right (min_le_left _ _) x).trans_eq (add_sub_cancel x t)
  · have hd : t - x ≤ 0 := sub_nonpos.mpr htx
    rw [Set.uIcc_of_ge htx, toward, limited, min_eq_left (hd.trans h)]
    constructor
    · exact (add_sub_cancel x t).symm.trans_le (add_le_add_right (le_max_right _ _) x)
    · exact add_le_of_nonpos_right (max_le hneg hd)

theorem lt_toward (h : 0 < step) (hxt : x < t) : x < toward step t x :=
  lt_add_of_pos_right x (lt_max_of_lt_right (lt_min (sub_pos.mpr hxt) h))

theorem toward_lt (h : 0 < step) (htx : t < x) : toward step t x < x := by
  have hd : t - x < 0 := sub_neg.mpr htx
  exact add_lt_of_neg_right x (max_lt (neg_neg_of_pos h) ((min_le_left _ _).trans_lt hd))

theorem toward_bounds (h : 0 ≤ step) {lo hi : α} (hx : lo ≤ x ∧ x ≤ hi) (ht : lo ≤ t ∧ t ≤ hi) :
    lo ≤ toward step t x ∧ toward step t x ≤ hi :=
  Set.uIcc_subset_Icc hx ht (toward_mem_uIcc h)

/-- A step takes its length off the distance, or all of the distance. -/
theorem abs_sub_toward (h : 0 ≤ step) (t x : α) :
    |t - toward step t x| = |t - x| - min step |t - x| := by
  have hneg : -step ≤ 0 := neg_nonpos.mpr h
  rw [toward, sub_add_eq_sub_sub, limited]
  rcases le_total 0 (t - x) with hd | hd
  · rw [abs_of_nonneg hd, max_eq_right (hneg.trans (le_min hd h)), min_comm]
    exact abs_of_nonneg (sub_nonneg.mpr (min_le_right _ _))
  · rw [abs_of_nonpos hd, min_eq_left (hd.trans h), abs_of_nonpos]
    · have hmirror : max (-step) (t - x) = -min step (-(t - x)) := by
        rw [← max_neg_neg, neg_neg]
      rw [hmirror, neg_sub', neg_neg]
    · exact sub_nonpos.mpr (le_max_right _ _)

theorem toward_le (h : 0 ≤ step) (hxt : x ≤ t) : toward step t x ≤ t := by
  have hmem := toward_mem_uIcc h (t := t) (x := x)
  rw [Set.uIcc_of_le hxt] at hmem
  exact hmem.2

theorem le_toward (h : 0 ≤ step) (htx : t ≤ x) : t ≤ toward step t x := by
  have hmem := toward_mem_uIcc h (t := t) (x := x)
  rw [Set.uIcc_of_ge htx] at hmem
  exact hmem.1

theorem abs_sub_le_of_steps {x : ℕ → α} {m : α} (hm : 0 ≤ m) {n : ℕ}
    (hsteps : ∀ k < n, ∃ s, m ≤ s ∧ x (k + 1) = toward s t (x k)) :
    |t - x n| ≤ max 0 (|t - x 0| - n • m) := by
  induction n with
  | zero => simp
  | succ n ih =>
    obtain ⟨s, hs, hx⟩ := hsteps n n.lt_succ_self
    have hdist := ih fun k hk => hsteps k (hk.trans n.lt_succ_self)
    rw [hx, abs_sub_toward (hm.trans hs)]
    rcases le_total s |t - x n| with hfar | hnear
    · rw [min_eq_left hfar]
      have hless : |t - x n| - s ≤ max 0 (|t - x 0| - n • m) - m := sub_le_sub hdist hs
      refine hless.trans ?_
      rw [← max_sub_sub_right, succ_nsmul, sub_add_eq_sub_sub]
      exact max_le_max_right _ (by simpa using hm)
    · rw [min_eq_right hnear, sub_self]
      exact le_max_left _ _

theorem reached_of_steps {x : ℕ → α} {m : α} (hm : 0 ≤ m) {n : ℕ}
    (hsteps : ∀ k < n, ∃ s, m ≤ s ∧ x (k + 1) = toward s t (x k))
    (hfar : |t - x 0| ≤ n • m) : x n = t := by
  have hdist := abs_sub_le_of_steps hm hsteps
  rw [max_eq_left (sub_nonpos.mpr hfar)] at hdist
  exact (sub_eq_zero.mp (abs_nonpos_iff.mp hdist)).symm

end RateLimit
