import Mathlib.Data.Set.Subsingleton
import So101.Lib.Machine

/-!
# A semaphore used as a lock

The count of the semaphore and those who hold it. Holders may die, which nobody can see;
a restore posts the semaphore without holding it. The lock is exclusive as long as a
restore happens only when the count is 0 and no holder is left.
-/
namespace BinarySemaphore

open GuardedMachine

variable {ι : Type*}

structure State (ι : Type*) where
  count : ℕ
  holders : Set ι

inductive Action (ι : Type*) where
  | acquire (i : ι)
  | release (i : ι)
  | abandon (i : ι)
  | restore

def machine (ι : Type*) : Machine (State ι) (Action ι) where
  enabled s
    | .acquire i => 0 < s.count ∧ i ∉ s.holders
    | .release i => i ∈ s.holders
    | .abandon i => i ∈ s.holders
    | .restore => True
  next s
    | .acquire i => ⟨s.count - 1, insert i s.holders⟩
    | .release i => ⟨s.count + 1, s.holders \ {i}⟩
    | .abandon i => ⟨s.count, s.holders \ {i}⟩
    | .restore => ⟨s.count + 1, s.holders⟩

structure Exclusive (s : State ι) : Prop where
  count_le : s.count ≤ 1
  locked : ∀ i ∈ s.holders, s.count = 0
  unique : s.holders.Subsingleton

def Sound (s : State ι) : Action ι → Prop
  | .restore => s.count = 0 ∧ s.holders = ∅
  | _ => True

theorem exclusive_next {s : State ι} {a : Action ι} (h : Exclusive s)
    (ha : (machine ι).enabled s a) (hsound : Sound s a) : Exclusive ((machine ι).next s a) := by
  obtain ⟨hle, hlocked, hunique⟩ := h
  cases a with
  | acquire i =>
    obtain ⟨hpos, _⟩ := ha
    have hempty : s.holders = ∅ := by
      apply Set.eq_empty_of_forall_notMem
      intro j hj
      have hzero := hlocked j hj
      omega
    have hnext : (machine ι).next s (.acquire i) = ⟨s.count - 1, {i}⟩ := by
      simp [machine, hempty]
    rw [hnext]
    refine ⟨by simp only; omega, fun j _ => by simp only; omega, Set.subsingleton_singleton⟩
  | release i =>
    have hzero := hlocked i ha
    have hempty : s.holders \ {i} = ∅ := by
      apply Set.eq_empty_of_forall_notMem
      rintro j ⟨hj, hne⟩
      exact hne (hunique hj ha)
    refine ⟨by simp only [machine]; omega, fun j hj => ?_, ?_⟩
    · simp only [machine, hempty] at hj
      exact hj.elim
    · simp only [machine, hempty]
      exact Set.subsingleton_empty
  | abandon i =>
    exact ⟨hle, fun j hj => hlocked j hj.1, hunique.anti (fun j hj => hj.1)⟩
  | restore =>
    obtain ⟨hzero, hempty⟩ := hsound
    refine ⟨by simp only [machine]; omega, fun j hj => ?_, ?_⟩
    · simp only [machine, hempty] at hj
      exact hj.elim
    · simp only [machine, hempty]
      exact Set.subsingleton_empty

end BinarySemaphore
