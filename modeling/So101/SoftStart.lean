import Mathlib.Tactic.NormNum
import So101.WriteDiscipline

/-!
# Leaving the soft start

A joint leaves the slow ramp by a distance test against its target. A cycle without a
leader reading has no target but the goal itself, which passes the test at once.
-/
namespace SoftStart

open GuardedMachine ServoBus ControlThread ControlCycle WriteDiscipline
open Calibration (Joint CFloat calibUnnormalize)
open SharedMemory (Ctx Mode)

variable {F : Type*} [CFloat F] {c : Ctx} {inp : Input} {st : Control F}

/-- The goal from which the cycle steps, if it ends with torque on. -/
def goalBefore (inp : Input) (st : Control F) : Joint → ℤ :=
  match st.torque, inp.followerRead with
  | false, some bf => positionsRead bf
  | _, _ => st.goal

def KeepsTorque (inp : Input) (st : Control F) : Prop :=
  st.torque = true ∧ ¬ FollowerReopens inp st ∨ ∃ bf, Enabling inp st bf

theorem keeps_torque_iff (c : Ctx) (h : TorqueInMode st) (hreq : inp.modeReq = Mode.teleop.word) :
    (controlCycle c inp st).1.torque = true ↔ KeepsTorque inp st := by
  obtain ⟨ops, hout, _⟩ := cycle_outcome c inp h
  generalize (controlCycle c inp st).1.torque = torque at hout ⊢
  unfold KeepsTorque
  cases hout with
  | reopened hr =>
    have hno : ∀ bf, ¬ Enabling inp st bf := fun bf hen => by
      have hread := hen.read
      simp [reopens_read_failed hr] at hread
    simp [hr, hno]
  | released _ _ hb => exact absurd hreq hb.1
  | kept hr ht _ => simp [hr, ht]
  | enabled bf hen => simpa using Or.inr ⟨bf, hen⟩
  | limp _ ht hno => simp [ht, hno]

structure SteppingFrom (inp : Input) (st st' : Control F) : Prop where
  applied : st'.applied = loadedMode inp.modeReq
  ramp : ∀ j, st'.rampMask j = true ↔
    loadedMode inp.modeReq ≠ st.applied ∨ st.rampMask j = true
  goal : st'.goal = goalBefore inp st

theorem entered_on (hon : (entered c inp st).torque = true) :
    SteppingFrom inp st (entered c inp st) := by
  have hreads := after_reads c inp st
  have happlied : (loading c inp st).applied = st.applied := hreads.applied
  have hmask : (loading c inp st).rampMask = st.rampMask := hreads.rampMask
  have hgoal : (loading c inp st).goal = st.goal := hreads.goal
  have hkept : (loading c inp st).torque = true → goalBefore inp st = st.goal := by
    intro ht
    have htorque := hreads.torque.symm.trans ht
    simp only [Bool.and_eq_true] at htorque
    simp [goalBefore, htorque.1]
  have htrans := mode_transition c inp (loading c inp st)
  unfold entered at hon ⊢
  generalize modeTransition c inp (loading c inp st) = r at htrans hon ⊢
  cases htrans with
  | same hsame =>
    rw [happlied] at hsame
    exact ⟨happlied.trans hsame.symm, fun j => by simp [hmask, hsame], hgoal.trans (hkept hon).symm⟩
  | kept hne _ ht =>
    refine ⟨rfl, fun j => ?_, ?_⟩
    · rw [enter_mode_mask, if_pos ⟨hne, ht⟩]
      simpa using Or.inl (happlied ▸ hne)
    · rw [enter_mode_goal, hgoal, hkept ht]
  | enabled hne _ ht hok =>
    have hread : inp.followerRead.isSome = true := hreads.follower_ok.symm.trans hok
    obtain ⟨bf, hbf⟩ := Option.isSome_iff_exists.mp hread
    have hpos : (loading c inp st).s.followerPos = positionsRead bf := hreads.follower_pos bf hbf
    have hstays : ¬ FollowerReopens inp st := by
      intro hr
      simp [reopens_read_failed hr] at hbf
    have hoff : st.torque = false := by
      have htorque := hreads.torque.symm.trans ht
      simpa [hstays] using htorque
    refine ⟨rfl, fun j => ?_, ?_⟩
    · rw [enter_mode_mask, if_pos ⟨hne, rfl⟩]
      simpa using Or.inl (happlied ▸ hne)
    · rw [enter_mode_goal]
      simp [enableTorque, hpos, goalBefore, hoff, hbf]
  | refused _ _ ht _ => simp [ht] at hon
  | released _ _ _ => simp at hon
  | limp _ _ ht => simp [ht] at hon

/-- `hold[j]` in HOLD, and in TELEOP where the most recent successful leader reading sends
the joint. -/
def IsTarget (c : Ctx) (r : ControlRun F) (j : Joint) (t : ℤ) : Prop :=
  (r.st.applied = .hold ∧ t = r.st.hold j) ∨
    (r.st.applied = .teleop ∧ r.leaderSeen = true ∧
      t = calibUnnormalize (c.calFollower j) (r.st.s.leaderNorm j))

/-- A ramp bit cleared in a cycle that ends with torque on is one of a joint that has
arrived: its goal, before the step, is within `ramp_done` of its target. -/
def LeftOnArrival (c : Ctx) (r : ControlRun F) (inp : Input) : Prop :=
  ∀ j, (entered c inp r.st).rampMask j = true → (nextCycle c r inp).st.torque = true →
    (nextCycle c r inp).st.rampMask j = false →
    ∃ t, IsTarget c (nextCycle c r inp) j t ∧ |t - (entered c inp r.st).goal j| ≤ c.rampDone

/-- In a cycle that runs TELEOP on torque without a leader reading, the joints that are
still ramping, or start to, are already within `ramp_done` of the last reading. -/
def DropoutNear (c : Ctx) (r : ControlRun F) (inp : Input) : Prop :=
  inp.modeReq = Mode.teleop.word → KeepsTorque inp r.st → inp.leaderRead = none →
    0 ≤ c.rampDone → ∀ j, r.st.applied ≠ .teleop ∨ r.st.rampMask j = true →
    r.leaderSeen = true ∧
      |calibUnnormalize (c.calFollower j) (r.st.s.leaderNorm j) - goalBefore inp r.st j| ≤
        c.rampDone

theorem cycle_state (hon : (entered c inp st).torque = true) :
    (controlCycle c inp st).1.rampMask = stillRamping c (entered c inp st) ∧
      (controlCycle c inp st).1.hold = (entered c inp st).hold ∧
      (controlCycle c inp st).1.s.leaderNorm = (entered c inp st).s.leaderNorm := by
  have hmove : (moveGoal c inp (entered c inp st)).1 =
      { entered c inp st with
        goal := steppedGoal c (entered c inp st)
        rampMask := stillRamping c (entered c inp st) } := by
    simp only [moveGoal, if_pos hon]
  have hcycle : (controlCycle c inp st).1 =
      nextSlot c inp (publish inp (moveGoal c inp (entered c inp st)).1) := rfl
  rw [hcycle, hmove]
  simp [next_slot_frame, publish, hon]

theorem entered_sample (c : Ctx) (inp : Input) (st : Control F) :
    (entered c inp st).s.leaderOk = inp.leaderRead.isSome ∧
    (entered c inp st).s.leaderNorm = leaderNormAfter c inp st := by
  have hreads := after_reads c inp st
  rw [entered, mode_transition_sample]
  exact ⟨hreads.leader_ok, hreads.leader_norm⟩

section Cycle

variable {r : ControlRun F} {j : Joint}

theorem cleared_iff (hon : (entered c inp r.st).torque = true)
    (hramp : (entered c inp r.st).rampMask j = true) :
    (nextCycle c r inp).st.rampMask j = false ↔
      |target c (entered c inp r.st) j - (entered c inp r.st).goal j| ≤ c.rampDone := by
  have hmask : (nextCycle c r inp).st.rampMask = stillRamping c (entered c inp r.st) :=
    (cycle_state hon).1
  rw [hmask]
  simp [stillRamping, hramp]

/-- Without a leader reading the target of TELEOP is the goal itself. -/
theorem cleared_in_dropout_iff (hon : (entered c inp r.st).torque = true)
    (hramp : (entered c inp r.st).rampMask j = true)
    (hteleop : (entered c inp r.st).applied = .teleop) (hfail : inp.leaderRead = none) :
    (nextCycle c r inp).st.rampMask j = false ↔ 0 ≤ c.rampDone := by
  have hok : (entered c inp r.st).s.leaderOk = false := by
    rw [(entered_sample c inp r.st).1, hfail]
    rfl
  have htarget : target c (entered c inp r.st) j = (entered c inp r.st).goal j := by
    simp [target, hteleop, hok]
  rw [cleared_iff hon hramp, htarget, sub_self, abs_zero]

theorem is_target_teleop_iff (hon : (entered c inp r.st).torque = true)
    (hteleop : (entered c inp r.st).applied = .teleop) {t : ℤ} :
    IsTarget c (nextCycle c r inp) j t ↔
      (r.leaderSeen || inp.leaderRead.isSome) = true ∧
        t = calibUnnormalize (c.calFollower j) (leaderNormAfter c inp r.st j) := by
  have happlied : (nextCycle c r inp).st.applied = .teleop :=
    (cycle_applied c inp r.st).trans hteleop
  have hnorm : (nextCycle c r inp).st.s.leaderNorm = leaderNormAfter c inp r.st :=
    (cycle_state hon).2.2.trans (entered_sample c inp r.st).2
  have hseen : (nextCycle c r inp).leaderSeen = (r.leaderSeen || inp.leaderRead.isSome) := rfl
  simp [IsTarget, happlied, hnorm, hseen]

theorem target_of_reading (hteleop : (entered c inp r.st).applied = .teleop)
    (hread : inp.leaderRead.isSome = true) :
    target c (entered c inp r.st) j =
      calibUnnormalize (c.calFollower j) (leaderNormAfter c inp r.st j) := by
  obtain ⟨hok, hnorm⟩ := entered_sample c inp r.st
  simp [target, hteleop, hok, hnorm, hread]

theorem is_target_hold (hon : (entered c inp r.st).torque = true)
    (hhold : (entered c inp r.st).applied = .hold) :
    IsTarget c (nextCycle c r inp) j (target c (entered c inp r.st) j) := by
  have happlied : (nextCycle c r inp).st.applied = .hold :=
    (cycle_applied c inp r.st).trans hhold
  have hkept : (nextCycle c r inp).st.hold = (entered c inp r.st).hold := (cycle_state hon).2.1
  refine Or.inl ⟨happlied, ?_⟩
  rw [hkept]
  simp [target, hhold]

theorem ramping_teleop_iff (hfrom : SteppingFrom inp r.st (entered c inp r.st))
    (hreq : inp.modeReq = Mode.teleop.word) :
    (entered c inp r.st).rampMask j = true ↔
      r.st.applied ≠ .teleop ∨ r.st.rampMask j = true := by
  rw [hfrom.ramp, loaded_teleop_iff.mpr hreq, ne_comm]

/-- A dropout clears the bit of every ramping joint, wherever the last reading sends it. -/
theorem dropout_near (h : TorqueInMode r.st) (hall : LeftOnArrival c r inp) :
    DropoutNear c r inp := by
  intro hreq hkeep hfail hdone j hj
  have hend := (keeps_torque_iff c h hreq).mpr hkeep
  have hon := (cycle_torque c inp r.st).symm.trans hend
  have hfrom := entered_on hon
  have hteleop := hfrom.applied.trans (loaded_teleop_iff.mpr hreq)
  have hramp := (ramping_teleop_iff hfrom hreq).mpr hj
  have hclear := (cleared_in_dropout_iff hon hramp hteleop hfail).mpr hdone
  obtain ⟨t, ht, hle⟩ := hall j hramp hend hclear
  obtain ⟨hseen, rfl⟩ := (is_target_teleop_iff hon hteleop).mp ht
  rw [hfrom.goal] at hle
  refine ⟨?_, ?_⟩
  · simpa [hfail] using hseen
  · simpa only [leaderNormAfter, hfail] using hle

theorem left_on_arrival (h : TorqueInMode r.st) (hnear : DropoutNear c r inp) :
    LeftOnArrival c r inp := by
  intro j hramp hend hclear
  have hon := (cycle_torque c inp r.st).symm.trans hend
  have hfrom := entered_on hon
  have htest := (cleared_iff hon hramp).mp hclear
  rcases (entered_torque h hon).1 with hteleop | hhold
  · have hreq := loaded_teleop_iff.mp (hfrom.applied.symm.trans hteleop)
    by_cases hread : inp.leaderRead.isSome = true
    · refine ⟨_, (is_target_teleop_iff hon hteleop).mpr ⟨by simp [hread], rfl⟩, ?_⟩
      rwa [← target_of_reading hteleop hread]
    · have hfail : inp.leaderRead = none := by simpa using hread
      have hkeep := (keeps_torque_iff c h hreq).mp hend
      have hdone := (cleared_in_dropout_iff hon hramp hteleop hfail).mp hclear
      obtain ⟨hseen, hle⟩ :=
        hnear hreq hkeep hfail hdone j ((ramping_teleop_iff hfrom hreq).mp hramp)
      refine ⟨_, (is_target_teleop_iff hon hteleop).mpr ⟨by simp [hseen], rfl⟩, ?_⟩
      rw [hfrom.goal]
      simpa only [leaderNormAfter, hfail] using hle
  · exact ⟨_, is_target_hold hon hhold, htest⟩

theorem left_on_arrival_iff (h : TorqueInMode r.st) :
    LeftOnArrival c r inp ↔ DropoutNear c r inp :=
  ⟨dropout_near h, left_on_arrival h⟩

end Cycle

/-- Joints leave the soft start on arrival in exactly the runs in which no leader reading
fails in TELEOP while a joint is still ramping far from where the last one sent it. -/
theorem soft_start_left_on_arrival (c : Ctx) (now : ℤ) (sentFollower sentLeader : Bool)
    (inps : List Input) :
    (controlThread c).Along (LeftOnArrival c)
        (startUp c now sentFollower sentLeader : ControlRun F) inps ↔
      (controlThread c).Along (DropoutNear c)
        (startUp c now sentFollower sentLeader : ControlRun F) inps := by
  have hstart : TorqueInMode (startUp c now sentFollower sentLeader : ControlRun F).st :=
    fun ht => by cases ht
  have hiff : ∀ (r : ControlRun F) inp, TorqueInMode r.st → (controlThread c).enabled r inp →
      (LeftOnArrival c r inp ↔ DropoutNear c r inp) := fun _ _ h _ => left_on_arrival_iff h
  have hnext : ∀ (r : ControlRun F) inp, TorqueInMode r.st → (controlThread c).enabled r inp →
      DropoutNear c r inp → TorqueInMode ((controlThread c).next r inp).st :=
    fun _ _ h _ _ => torque_in_mode_next h
  exact along_iff (I := fun r => TorqueInMode r.st) hiff hnext hstart (free_valid _ _ _)

/-- TELEOP is entered with the leader at the end of its range and the follower in the
middle; the next leader reading fails. -/
def dropoutInRamp : List Input :=
  [{ quietInput with
      modeReq := Mode.teleop.word
      leaderRead := some (fun _ => ![lowByte 4095, highByte 4095]) },
    { quietInput with modeReq := Mode.teleop.word, leaderRead := none }]

theorem soft_start_left_far :
    let c := Ctx.default Calibration.fullRange Calibration.fullRange
    ¬ (controlThread c).Along (LeftOnArrival c) (startUp c 0 true true : ControlRun ℚ)
      dropoutInRamp := by
  intro c hall
  have hfar : (entered c dropoutInRamp[1] ((controlThread c).run
      (startUp c 0 true true : ControlRun ℚ) [dropoutInRamp[0]]).st).rampMask 0 = true := by
    decide +kernel
  have hon : ((controlThread c).run (startUp c 0 true true : ControlRun ℚ)
      dropoutInRamp).st.torque = true := by decide +kernel
  have hclear : ((controlThread c).run (startUp c 0 true true : ControlRun ℚ)
      dropoutInRamp).st.rampMask 0 = false := by decide +kernel
  obtain ⟨t, ht, hle⟩ := hall.2.1 0 hfar hon hclear
  rcases ht with ⟨hhold, _⟩ | ⟨_, _, rfl⟩
  · revert hhold
    decide +kernel
  · revert hle
    decide +kernel

end SoftStart
