import Mathlib.Algebra.Order.Monoid.Defs
import Mathlib.Algebra.Order.Monoid.Unbundled.Pow
import Mathlib.Data.Nat.Find
import Mathlib.Logic.Function.Iterate
import Mathlib.Order.Bounds.Basic

/-!
# Slots on a fixed grid

A deadline that is moved by a step until it is no longer in the past, and the step that adds
a whole period as long as the sum stays below a limit. The loop stops on the first slot of the
grid that is not in the past, if that slot lies below the limit.
-/
namespace SlotGrid

section Steps

variable {α : Type*} [LinearOrder α] {step : α → α} {now next : α} {n k : ℕ}

/-- The rounds of `while next < now do next := step next`, at most `n`. -/
def rounds (step : α → α) (now : α) : ℕ → α → ℕ
  | 0, _ => 0
  | n + 1, next => if next < now then rounds step now n (step next) + 1 else 0

theorem rounds_of_lt (h : next < now) :
    rounds step now (n + 1) next = rounds step now n (step next) + 1 :=
  if_pos h

@[simp] theorem rounds_of_le (h : now ≤ next) (n : ℕ) : rounds step now n next = 0 := by
  cases n with
  | zero => rfl
  | succ n => exact if_neg h.not_gt

theorem rounds_pos_iff : 0 < rounds step now (n + 1) next ↔ next < now := by
  constructor
  · intro hpos
    by_contra hle
    rw [rounds_of_le (not_lt.mp hle)] at hpos
    exact lt_irrefl 0 hpos
  · intro h
    rw [rounds_of_lt h]
    exact Nat.succ_pos _

/-- With as many rounds as it needs, the loop stops at the first deadline that is not past. -/
theorem rounds_eq (hk : k ≤ n) (hbefore : ∀ i < k, step^[i] next < now)
    (hend : now ≤ step^[k] next) : rounds step now n next = k := by
  induction k generalizing n next with
  | zero => exact rounds_of_le hend n
  | succ k ih =>
    obtain ⟨m, rfl⟩ := Nat.exists_eq_add_of_le' hk
    have hlate : next < now := hbefore 0 (Nat.succ_pos k)
    have hrest : rounds step now (m + k) (step next) = k := by
      apply ih (Nat.le_add_left k m)
      · intro i hi
        rw [← Function.iterate_succ_apply]
        exact hbefore (i + 1) (Nat.succ_lt_succ hi)
      · rw [← Function.iterate_succ_apply]
        exact hend
    rw [← Nat.add_assoc, rounds_of_lt hlate, hrest]

end Steps

section Periods

variable {α : Type*} [AddCommMonoid α] [LinearOrder α] [IsOrderedAddMonoid α]
variable {step : α → α} {period limit now next : α} {n : ℕ}

/-- From `next` on, the step adds the period as long as the sum is below the limit. -/
def Adds (step : α → α) (period limit next : α) : Prop :=
  ∀ x, next ≤ x → x + period < limit → step x = x + period

/-- A slot of the grid from `next` on is not in the past and lies below the limit. -/
def Reachable (period limit now next : α) : Prop :=
  ∃ k : ℕ, now ≤ next + k • period ∧ next + k • period < limit

theorem slot_mono (hperiod : 0 ≤ period) {i k : ℕ} (h : i ≤ k) :
    next + i • period ≤ next + k • period :=
  add_le_add_right (nsmul_le_nsmul_left hperiod h) next

theorem iterate_eq (hperiod : 0 ≤ period) (hstep : Adds step period limit next) {k : ℕ}
    (h : next + k • period < limit) : step^[k] next = next + k • period := by
  induction k with
  | zero => simp
  | succ k ih =>
    have hsum : next + (k + 1) • period = next + k • period + period := by
      rw [succ_nsmul, add_assoc]
    have hbefore : next + k • period < limit := (slot_mono hperiod k.le_succ).trans_lt h
    have hlow : next ≤ next + k • period := le_add_of_nonneg_right (nsmul_nonneg hperiod k)
    rw [Function.iterate_succ_apply', ih hbefore, hsum]
    exact hstep _ hlow (hsum ▸ h)

structure Stops (step : α → α) (period limit now next : α) (n : ℕ) : Prop where
  slot : step^[rounds step now n next] next = next + rounds step now n next • period
  least : IsLeast {k : ℕ | now ≤ next + k • period} (rounds step now n next)
  below : next + rounds step now n next • period < limit

theorem stops_of_reachable (hperiod : 0 ≤ period) (hstep : Adds step period limit next)
    (hfuel : ∀ k : ℕ, next + k • period < limit → k ≤ n)
    (h : Reachable period limit now next) : Stops step period limit now next n := by
  classical
  have hex : ∃ k : ℕ, now ≤ next + k • period := by
    obtain ⟨k, hk, _⟩ := h
    exact ⟨k, hk⟩
  -- the first slot that is not past lies below the one that is reachable
  have hfirst : next + Nat.find hex • period < limit := by
    obtain ⟨k, hk, hlimit⟩ := h
    exact (slot_mono hperiod (Nat.find_min' hex hk)).trans_lt hlimit
  have hrounds : rounds step now n next = Nat.find hex := by
    apply rounds_eq (hfuel _ hfirst)
    · intro i hi
      rw [iterate_eq hperiod hstep ((slot_mono hperiod hi.le).trans_lt hfirst)]
      exact not_le.mp (Nat.find_min hex hi)
    · rw [iterate_eq hperiod hstep hfirst]
      exact Nat.find_spec hex
  refine ⟨?_, ?_, ?_⟩
  · rw [hrounds]
    exact iterate_eq hperiod hstep hfirst
  · rw [hrounds]
    exact ⟨Nat.find_spec hex, fun k hk => Nat.find_min' hex hk⟩
  · rw [hrounds]
    exact hfirst

end Periods

end SlotGrid
