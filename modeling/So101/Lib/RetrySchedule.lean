import Mathlib.Algebra.Order.Ring.Nat
import Mathlib.Tactic.Ring

/-!
# Retries after a row of failures

A counter of consecutive failures that stops at a limit, and the earliest time of the next
retry, which outlives a recovery. The retries fall on the multiples of the waiting time all
the same, whatever outages came before.
-/
namespace RetrySchedule

structure Retry where
  streak : ℕ
  time : ℕ
  notBefore : ℕ

variable {limit every fails : ℕ} {r : Retry}

def count (ok : Bool) (fails : ℕ) : ℕ := if ok then 0 else fails + 1

@[simp] theorem count_true : count true fails = 0 := rfl

@[simp] theorem count_false : count false fails = fails + 1 := rfl

def attempt (limit : ℕ) (ok : Bool) (r : Retry) : Retry where
  streak := if ok then 0 else r.streak + if r.streak < limit then 1 else 0
  time := r.time + 1
  notBefore := r.notBefore

def Due (every : ℕ) (r : Retry) : Prop := r.streak ≥ every ∧ r.time ≥ r.notBefore

instance (every : ℕ) (r : Retry) : Decidable (Due every r) :=
  inferInstanceAs (Decidable (_ ∧ _))

def next (limit every : ℕ) (ok : Bool) (r : Retry) : Retry :=
  if Due every (attempt limit ok r) then
    { attempt limit ok r with notBefore := r.time + 1 + every }
  else
    attempt limit ok r

theorem next_of_due {ok : Bool} (h : Due every (attempt limit ok r)) :
    next limit every ok r = { attempt limit ok r with notBefore := r.time + 1 + every } :=
  if_pos h

theorem next_of_not_due {ok : Bool} (h : ¬ Due every (attempt limit ok r)) :
    next limit every ok r = attempt limit ok r :=
  if_neg h

@[simp] theorem next_streak (ok : Bool) :
    (next limit every ok r).streak = (attempt limit ok r).streak := by
  by_cases h : Due every (attempt limit ok r)
  · rw [next_of_due h]
  · rw [next_of_not_due h]

@[simp] theorem next_time (ok : Bool) : (next limit every ok r).time = r.time + 1 := by
  by_cases h : Due every (attempt limit ok r)
  · rw [next_of_due h]
    rfl
  · rw [next_of_not_due h]
    rfl

theorem not_before_le_next (ok : Bool) : r.notBefore ≤ (next limit every ok r).notBefore := by
  by_cases h : Due every (attempt limit ok r)
  · rw [next_of_due h]
    have htime : r.notBefore ≤ r.time + 1 := h.2
    exact htime.trans (Nat.le_add_right _ _)
  · rw [next_of_not_due h]
    rfl

/-- An outage of `fails` attempts began at time `r.time - fails`. Before its first retry the
time set by an earlier outage may still stand, but not beyond that retry. -/
structure OnSchedule (limit every fails : ℕ) (r : Retry) : Prop where
  streak : r.streak = min limit fails
  stamp_le : r.notBefore + fails ≤ r.time + every * (fails / every + 1)
  stamp_eq : every ≤ fails → r.notBefore + fails = r.time + every * (fails / every + 1)

theorem on_schedule_start (limit every : ℕ) : OnSchedule limit every 0 ⟨0, 0, 0⟩ where
  streak := (Nat.min_zero limit).symm
  stamp_le := Nat.zero_le _
  stamp_eq h := by simp [Nat.le_zero.mp h]

theorem OnSchedule.attempt_streak (h : OnSchedule limit every fails r) (ok : Bool) :
    (attempt limit ok r).streak = min limit (count ok fails) := by
  have hstreak := h.streak
  cases ok with
  | true => simp [attempt, count]
  | false =>
    simp only [attempt, count]
    by_cases hlt : r.streak < limit
    · simp [hlt]
      omega
    · simp [hlt]
      omega

theorem succ_dvd_iff :
    every ∣ fails + 1 ↔ fails + 1 = every * (fails / every + 1) := by
  constructor
  · intro hdvd
    rw [← Nat.succ_div_of_dvd hdvd, Nat.mul_div_cancel' hdvd]
  · intro h
    exact ⟨_, h⟩

/-- A failure is due for a retry where it completes a multiple of the waiting time. -/
theorem OnSchedule.due_iff (h : OnSchedule limit every fails r) (hpos : 0 < every)
    (hlimit : every ≤ limit) (ok : Bool) :
    Due every (attempt limit ok r) ↔ 0 < count ok fails ∧ every ∣ count ok fails := by
  have hle := h.stamp_le
  have hstreak := h.attempt_streak ok
  cases ok with
  | true => simp [Due, attempt, hpos.ne']
  | false =>
    have htime : (attempt limit false r).time = r.time + 1 := rfl
    have hstamp : (attempt limit false r).notBefore = r.notBefore := rfl
    simp only [count_false] at hstreak ⊢
    simp only [Due, hstreak, htime, hstamp, succ_dvd_iff]
    have hdiv := Nat.div_add_mod fails every
    have hmod := Nat.mod_lt fails hpos
    have hsucc := Nat.mul_succ every (fails / every)
    rw [Nat.succ_eq_add_one] at hsucc
    constructor
    · rintro ⟨hlong, hdue⟩
      refine ⟨Nat.succ_pos _, ?_⟩
      by_cases hfirst : every ≤ fails
      · -- the stamp is the end of the current multiple
        have heq := h.stamp_eq hfirst
        omega
      · have hzero : fails / every = 0 := Nat.div_eq_of_lt (by omega)
        rw [hzero]
        omega
    · rintro ⟨-, hend⟩
      constructor <;> omega

theorem OnSchedule.next (h : OnSchedule limit every fails r) (hpos : 0 < every)
    (hlimit : every ≤ limit) (ok : Bool) :
    OnSchedule limit every (count ok fails) (next limit every ok r) := by
  have hstreak := h.attempt_streak ok
  have hdue := h.due_iff hpos hlimit ok
  have hle := h.stamp_le
  have hsucc := Nat.mul_succ every (fails / every)
  rw [Nat.succ_eq_add_one] at hsucc
  by_cases hd : Due every (attempt limit ok r)
  · obtain ⟨hn, k, hk⟩ := hdue.mp hd
    have hstamp : r.time + 1 + every + count ok fails =
        r.time + 1 + every * (count ok fails / every + 1) := by
      rw [hk, Nat.mul_div_cancel_left k hpos, Nat.mul_add_one]
      omega
    rw [next_of_due hd]
    exact ⟨hstreak, hstamp.le, fun _ => hstamp⟩
  · rw [next_of_not_due hd]
    cases ok with
    | true =>
      have hmul : every * (fails / every) ≤ fails := Nat.mul_div_le fails every
      refine ⟨hstreak, ?_, ?_⟩
      · simp only [attempt, count_true, Nat.zero_div]
        omega
      · rw [count_true]
        omega
    | false =>
      have hndvd : ¬ every ∣ fails + 1 := fun hdvd => hd (hdue.mpr ⟨Nat.succ_pos fails, hdvd⟩)
      have hquot : (fails + 1) / every = fails / every := Nat.succ_div_of_not_dvd hndvd
      refine ⟨hstreak, ?_, ?_⟩
      · simp only [attempt, count_false, hquot]
        omega
      · simp only [attempt, count_false, hquot]
        intro hlong
        have hne : fails + 1 ≠ every := by
          rintro rfl
          exact hndvd (dvd_refl _)
        have heq := h.stamp_eq (by omega)
        omega

end RetrySchedule
