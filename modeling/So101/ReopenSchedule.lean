import So101.ControlCycle
import So101.Lib.RetrySchedule

/-!
# When a bus is reopened

Each bus follows the retry schedule: the streak that is published is its counter, and
`retry_l` and `retry_f` are its time stamps. An outage of any length is retried at every
multiple of `REOPEN_AFTER` failed reads, whatever earlier outages left in the stamp.
-/
namespace ReopenSchedule

open GuardedMachine ServoBus ControlThread ControlCycle RetrySchedule
open Calibration (CFloat)
open SharedMemory (Sample Ctx)

def streakLimit : ℕ := 0xFFFF

def readOk : Bus → Input → Bool
  | .leader, inp => inp.leaderRead.isSome
  | .follower, inp => inp.followerRead.isSome

variable {F : Type*}

def streak : Bus → Sample F → ℕ
  | .leader, s => s.leaderStreak
  | .follower, s => s.followerStreak

def retryStamp : Bus → Control F → ℕ
  | .leader, st => st.retryL
  | .follower, st => st.retryF

def retry (bus : Bus) (st : Control F) : Retry where
  streak := streak bus st.s
  time := st.s.cycle
  notBefore := retryStamp bus st

def failedReads (bus : Bus) (inputs : List Input) : ℕ :=
  (inputs.reverse.takeWhile fun inp => !readOk bus inp).length

/-- The calls of `reopen_bus` on the bus. -/
def reopenings (bus : Bus) (ops : List BusOp) : ℕ := ops.count (.reopen bus)

def Reopens (bus : Bus) (inp : Input) (st : Control F) : Prop :=
  Due reopenAfter (attempt streakLimit (readOk bus inp) (retry bus st))

instance (bus : Bus) (inp : Input) (st : Control F) : Decidable (Reopens bus inp st) :=
  inferInstanceAs (Decidable (Due _ _))

@[simp] theorem failed_reads_snoc (bus : Bus) (inputs : List Input) (inp : Input) :
    failedReads bus (inputs ++ [inp]) = count (readOk bus inp) (failedReads bus inputs) := by
  cases h : readOk bus inp <;> simp [failedReads, h]

@[simp] theorem reopenings_append (bus : Bus) (ops more : List BusOp) :
    reopenings bus (ops ++ more) = reopenings bus ops + reopenings bus more :=
  List.count_append ..

@[simp] theorem reopenings_nil (bus : Bus) : reopenings bus [] = 0 := rfl

section Cycle

variable [CFloat F] (c : Ctx) (inp : Input) (st : Control F)

theorem leader_sample_streaks (s : Sample F) :
    (leaderSample c inp s).leaderStreak = nextStreak inp.leaderRead.isSome s.leaderStreak ∧
      (leaderSample c inp s).followerStreak = s.followerStreak ∧
      (leaderSample c inp s).cycle = s.cycle := by
  cases h : inp.leaderRead <;> simp [leaderSample, h]

theorem follower_sample_streaks (s : Sample F) :
    (followerSample c inp s).followerStreak =
        nextStreak inp.followerRead.isSome s.followerStreak ∧
      (followerSample c inp s).leaderStreak = s.leaderStreak ∧
      (followerSample c inp s).cycle = s.cycle := by
  cases h : inp.followerRead <;> simp [followerSample, h]

theorem read_leader_retry :
    retry .leader (readLeader c inp (wakeUp inp st)).1 =
        next streakLimit reopenAfter (readOk .leader inp) (retry .leader st) ∧
      retry .follower (readLeader c inp (wakeUp inp st)).1 =
        { retry .follower st with time := st.s.cycle + 1 } ∧
      (readLeader c inp (wakeUp inp st)).2 = if Reopens .leader inp st then
        [.reopen .leader,
          inp.write .leaderOff .leader (setTorque (armIds c.calLeader) false)] else [] := by
  obtain ⟨hleader, hfollower, hcycle⟩ := leader_sample_streaks c inp (wakeUp inp st).s
  have hdue : ((leaderSample c inp (wakeUp inp st).s).leaderStreak ≥ reopenAfter ∧
      (leaderSample c inp (wakeUp inp st).s).cycle ≥ (wakeUp inp st).retryL) ↔
      Reopens .leader inp st := by
    rw [hleader, hcycle]
    rfl
  simp only [readLeader, hdue]
  by_cases h : Reopens .leader inp st
  · rw [if_pos h, if_pos h, next_of_due h]
    simp only [retry, streak, retryStamp, hleader, hfollower, hcycle]
    exact ⟨rfl, rfl, trivial⟩
  · rw [if_neg h, if_neg h, next_of_not_due h]
    simp only [retry, streak, retryStamp, hleader, hfollower, hcycle]
    exact ⟨rfl, rfl, trivial⟩

theorem read_buses_retry (bus : Bus) : retry bus (readBuses c inp st).1 =
    next streakLimit reopenAfter (readOk bus inp) (retry bus st) := by
  obtain ⟨hleader, hfollower, _⟩ := read_leader_retry c inp st
  simp only [readBuses]
  generalize (readLeader c inp (wakeUp inp st)).1 = st₁ at hleader hfollower
  obtain ⟨hstreak, hother, hcycle⟩ := follower_sample_streaks c inp st₁.s
  simp only [retry, streak, retryStamp, Retry.mk.injEq] at hfollower
  obtain ⟨hstreak₁, hcycle₁, hstamp₁⟩ := hfollower
  have hdue : ((followerSample c inp st₁.s).followerStreak ≥ reopenAfter ∧
      (followerSample c inp st₁.s).cycle ≥ st₁.retryF) ↔ Reopens .follower inp st := by
    rw [hstreak, hcycle, hstreak₁, hcycle₁, hstamp₁]
    rfl
  simp only [readFollower, hdue]
  cases bus with
  | leader =>
    rw [← hleader]
    by_cases h : Reopens .follower inp st
    · rw [if_pos h]
      simp only [retry, streak, retryStamp, hother, hcycle]
    · rw [if_neg h]
      simp only [retry, streak, retryStamp, hother, hcycle]
  | follower =>
    by_cases h : Reopens .follower inp st
    · rw [if_pos h, next_of_due h]
      simp only [retry, streak, retryStamp, hstreak, hcycle, hstreak₁, hcycle₁]
      rfl
    · rw [if_neg h, next_of_not_due h]
      simp only [retry, streak, retryStamp, hstreak, hcycle, hstreak₁, hcycle₁, hstamp₁]
      rfl

theorem read_buses_reopenings (bus : Bus) : reopenings bus (readBuses c inp st).2 =
    if Reopens bus inp st then 1 else 0 := by
  obtain ⟨_, _, hops⟩ := read_leader_retry c inp st
  rw [read_ops, hops, reopenings_append]
  have hfollower : FollowerReopens inp st ↔ Reopens .follower inp st := Iff.rfl
  simp only [hfollower]
  cases bus with
  | leader =>
    by_cases hl : Reopens .leader inp st <;> by_cases hf : Reopens .follower inp st <;>
      simp [hl, hf, reopenings, Input.write]
  | follower =>
    by_cases hl : Reopens .leader inp st <;> by_cases hf : Reopens .follower inp st <;>
      simp [hl, hf, reopenings, Input.write]

omit [CFloat F] in
theorem enter_mode_retry (req : SharedMemory.Mode) (bus : Bus) :
    retry bus (enterMode req st) = retry bus st := by
  simp only [enterMode]
  cases bus <;> split_ifs <;> rfl

omit [CFloat F] in
theorem mode_transition_retry (bus : Bus) :
    retry bus (modeTransition c inp st).1 = retry bus st ∧
      reopenings bus (modeTransition c inp st).2 = 0 := by
  have htransition := mode_transition c inp st
  generalize modeTransition c inp st = result at htransition ⊢
  cases htransition with
  | same | refused => exact ⟨rfl, rfl⟩
  | kept | limp => exact ⟨enter_mode_retry _ _ bus, rfl⟩
  | enabled =>
    constructor
    · rw [enter_mode_retry]
      cases bus <;> rfl
    · simp [enableTorque, reopenings, Input.write]
  | released =>
    constructor
    · rw [enter_mode_retry]
      cases bus <;> rfl
    · simp [reopenings, Input.write]

theorem move_goal_retry (bus : Bus) : retry bus (moveGoal c inp st).1 = retry bus st ∧
    reopenings bus (moveGoal c inp st).2 = 0 := by
  simp only [moveGoal]
  cases bus <;> split_ifs <;> simp [retry, streak, retryStamp, reopenings, Input.write]

omit [CFloat F] in
theorem next_slot_retry (bus : Bus) :
    retry bus (nextSlot c inp (publish inp st)) = retry bus st := by
  simp only [nextSlot]
  cases bus <;> split_ifs <;> rfl

/-- One cycle is one step of the schedule of each bus. -/
theorem cycle_retry (bus : Bus) :
    retry bus (controlCycle c inp st).1 =
        next streakLimit reopenAfter (readOk bus inp) (retry bus st) ∧
      reopenings bus (controlCycle c inp st).2 = if Reopens bus inp st then 1 else 0 := by
  simp only [controlCycle]
  obtain ⟨hmode, hmodeOps⟩ := mode_transition_retry c inp (readBuses c inp st).1 bus
  obtain ⟨hgoal, hgoalOps⟩ :=
    move_goal_retry c inp (modeTransition c inp (readBuses c inp st).1).1 bus
  constructor
  · rw [next_slot_retry, hgoal, hmode, read_buses_retry]
  · rw [reopenings_append, reopenings_append, read_buses_reopenings, hmodeOps, hgoalOps,
      Nat.add_zero]

end Cycle

section Runs

variable [CFloat F] (c : Ctx) (bus : Bus)

def runFrom (c : Ctx) (now : ℤ) (sentFollower sentLeader : Bool) (inputs : List Input) :
    ControlRun F :=
  (controlThread c).run (startUp c now sentFollower sentLeader) inputs

theorem run_from_snoc (now : ℤ) (sentFollower sentLeader : Bool) (inputs : List Input)
    (inp : Input) : (runFrom c now sentFollower sentLeader (inputs ++ [inp]) : ControlRun F) =
      nextCycle c (runFrom c now sentFollower sentLeader inputs) inp := by
  rw [runFrom, run_append, run_cons, run_nil]
  rfl

theorem retry_next (r : ControlRun F) (inp : Input) : retry bus (nextCycle c r inp).st =
    next streakLimit reopenAfter (readOk bus inp) (retry bus r.st) :=
  (cycle_retry c inp r.st bus).1

theorem run_on_schedule (now : ℤ) (sentFollower sentLeader : Bool) (inputs : List Input) :
    OnSchedule streakLimit reopenAfter (failedReads bus inputs)
      (retry bus (runFrom c now sentFollower sentLeader inputs : ControlRun F).st) := by
  induction inputs using List.reverseRecOn with
  | nil =>
    have hstart : retry bus (startUp c now sentFollower sentLeader : ControlRun F).st =
        ⟨0, 0, 0⟩ := by
      cases bus <;> rfl
    rw [runFrom, run_nil, hstart]
    exact on_schedule_start streakLimit reopenAfter
  | append_singleton inputs inp ih =>
    rw [run_from_snoc, retry_next, failed_reads_snoc]
    exact ih.next (by decide) (by decide) (readOk bus inp)

theorem run_time (r : ControlRun F) (inputs : List Input) :
    (retry bus ((controlThread c).run r inputs).st).time =
      (retry bus r.st).time + inputs.length := by
  induction inputs generalizing r with
  | nil => rfl
  | cons inp inputs ih =>
    have hnext : (retry bus (nextCycle c r inp).st).time = (retry bus r.st).time + 1 := by
      rw [retry_next, next_time]
    rw [run_cons, List.length_cons]
    exact (ih (nextCycle c r inp)).trans (by omega)

theorem run_stamp_le (r : ControlRun F) (inputs : List Input) :
    (retry bus r.st).notBefore ≤ (retry bus ((controlThread c).run r inputs).st).notBefore := by
  induction inputs generalizing r with
  | nil => exact le_rfl
  | cons inp inputs ih =>
    have hnext : (retry bus r.st).notBefore ≤ (retry bus (nextCycle c r inp).st).notBefore := by
      rw [retry_next]
      exact not_before_le_next (readOk bus inp)
    rw [run_cons]
    exact hnext.trans (ih (nextCycle c r inp))

/-- Between two reconnections of a bus lie at least `REOPEN_AFTER` cycles. -/
theorem reopens_apart (r : ControlRun F) (mid : List Input) {first last : Input}
    (hfirst : Reopens bus first r.st)
    (hlast : Reopens bus last ((controlThread c).run r (first :: mid)).st) :
    reopenAfter ≤ mid.length + 1 := by
  have hstamp : (retry bus (nextCycle c r first).st).notBefore =
      (retry bus r.st).time + 1 + reopenAfter := by
    rw [retry_next, next_of_due hfirst]
  have hkept := run_stamp_le c bus (nextCycle c r first) mid
  have htime := run_time c bus r (first :: mid)
  rw [List.length_cons] at htime
  rw [run_cons] at hlast htime
  have hreached : (retry bus ((controlThread c).run (nextCycle c r first) mid).st).notBefore ≤
      (retry bus ((controlThread c).run (nextCycle c r first) mid).st).time + 1 := hlast.2
  have hnext : (controlThread c).next r first = nextCycle c r first := rfl
  rw [hnext] at htime
  omega

theorem reopen_schedule (now : ℤ) (sentFollower sentLeader : Bool) (inputs : List Input)
    (inp : Input) :
    let r : List Input → ControlRun F := runFrom c now sentFollower sentLeader
    let fails := failedReads bus (inputs ++ [inp])
    streak bus (r (inputs ++ [inp])).st.s = min 65535 fails ∧
      reopenings bus (controlCycle c inp (r inputs).st).2 =
        (if 0 < fails ∧ reopenAfter ∣ fails then 1 else 0) ∧
      ∀ pre first mid, inputs = pre ++ first :: mid →
        0 < reopenings bus (controlCycle c first (r pre).st).2 →
        0 < reopenings bus (controlCycle c inp (r inputs).st).2 →
        reopenAfter ≤ mid.length + 1 := by
  dsimp only
  have hrun := run_on_schedule (F := F) c bus now sentFollower sentLeader inputs
  have hnext := run_on_schedule (F := F) c bus now sentFollower sentLeader (inputs ++ [inp])
  have hdue := hrun.due_iff (by decide) (by decide) (readOk bus inp)
  refine ⟨hnext.streak, ?_, ?_⟩
  · rw [(cycle_retry c inp _ bus).2, failed_reads_snoc]
    exact if_congr hdue rfl rfl
  · rintro pre first mid rfl hfirst hlast
    have hreopens : ∀ inp (st : Control F), 0 < reopenings bus (controlCycle c inp st).2 →
        Reopens bus inp st := by
      intro inp st hpos
      by_contra hnot
      rw [(cycle_retry c inp st bus).2, if_neg hnot] at hpos
      exact absurd hpos (lt_irrefl 0)
    apply reopens_apart c bus (runFrom c now sentFollower sentLeader pre) mid
      (hreopens first _ hfirst)
    rw [runFrom, ← run_append]
    exact hreopens inp _ hlast

end Runs

end ReopenSchedule
