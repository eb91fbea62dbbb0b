import So101.ControlThread

/-!
# What one control cycle does

One specification for each section of the cycle; the mode transition is inverted once,
into the five things it can do. The results on runs use these and unfold no section.
-/
namespace ControlCycle

open GuardedMachine ServoBus ControlThread
open Calibration (Joint CFloat calibNormalize)
open SharedMemory (Sample Ctx Mode U32)

variable {F : Type*} (c : Ctx) (inp : Input) (st : Control F)

/-- The cycle closes and opens the follower bus again, which drops the torque. -/
def FollowerReopens (inp : Input) (st : Control F) : Prop :=
  nextStreak inp.followerRead.isSome st.s.followerStreak ≥ reopenAfter ∧
    st.s.cycle + 1 ≥ st.retryF

instance : Decidable (FollowerReopens inp st) := inferInstanceAs (Decidable (_ ∧ _))

theorem reopens_read_failed {inp : Input} {st : Control F} (h : FollowerReopens inp st) :
    inp.followerRead = none := by
  cases hr : inp.followerRead with
  | none => rfl
  | some bf =>
    have hstreak := h.1
    simp [hr, nextStreak, reopenAfter] at hstreak

theorem abs_position_le (raw : U16) : |SharedMemory.int16 (ftsDecodeSm raw 15)| ≤ 32767 := by
  have hdecode := abs_decode_le raw
  obtain ⟨hlo, hhi⟩ := abs_le.mp hdecode
  rwa [SharedMemory.int16_of_mem (by omega) (by omega)]

theorem abs_positions_read (bf : Joint → Fin 8 → Byte) (j : Joint) :
    |positionsRead bf j| ≤ 32767 := abs_position_le _

theorem abs_leader_position (bl : Fin 2 → Byte) : |leaderPosition bl| ≤ 32767 :=
  abs_position_le _

/-- The normalized leader position that the cycle maps to the follower. -/
def leaderNormAfter [CFloat F] (c : Ctx) (inp : Input) (st : Control F) : Joint → F :=
  match inp.leaderRead with
  | some bl => fun j => calibNormalize (c.calLeader j) (leaderPosition (bl j))
  | none => st.s.leaderNorm

/-- What `readLeader` leaves alone. -/
structure LeaderFrame (st st' : Control F) : Prop where
  applied : st'.applied = st.applied
  goal : st'.goal = st.goal
  hold : st'.hold = st.hold
  rampMask : st'.rampMask = st.rampMask
  torque : st'.torque = st.torque
  retryF : st'.retryF = st.retryF

theorem LeaderFrame.trans {st₁ st₂ st₃ : Control F} (h : LeaderFrame st₁ st₂)
    (k : LeaderFrame st₂ st₃) : LeaderFrame st₁ st₃ where
  applied := k.applied.trans h.applied
  goal := k.goal.trans h.goal
  hold := k.hold.trans h.hold
  rampMask := k.rampMask.trans h.rampMask
  torque := k.torque.trans h.torque
  retryF := k.retryF.trans h.retryF

section Reads

variable [CFloat F]

/-- What the two reads leave of the state of the last cycle, and what they put in it. -/
structure AfterReads (c : Ctx) (inp : Input) (st st' : Control F) : Prop where
  applied : st'.applied = st.applied
  goal : st'.goal = st.goal
  hold : st'.hold = st.hold
  rampMask : st'.rampMask = st.rampMask
  torque : st'.torque = (st.torque && !decide (FollowerReopens inp st))
  leader_ok : st'.s.leaderOk = inp.leaderRead.isSome
  leader_norm : st'.s.leaderNorm = leaderNormAfter c inp st
  follower_ok : st'.s.followerOk = inp.followerRead.isSome
  follower_pos : ∀ bf, inp.followerRead = some bf → st'.s.followerPos = positionsRead bf

theorem read_leader_frame : LeaderFrame st (readLeader c inp st).1 := by
  unfold readLeader
  dsimp only
  split <;> exact ⟨rfl, rfl, rfl, rfl, rfl, rfl⟩

theorem read_leader_sample : (readLeader c inp st).1.s = leaderSample c inp st.s := by
  unfold readLeader
  dsimp only
  split <;> rfl

theorem leader_sample_fields (s : Sample F) :
    (leaderSample c inp s).leaderOk = inp.leaderRead.isSome ∧
      (leaderSample c inp s).followerStreak = s.followerStreak ∧
      (leaderSample c inp s).cycle = s.cycle := by
  cases h : inp.leaderRead <;> simp [leaderSample, h]

theorem leader_sample_norm : (leaderSample c inp st.s).leaderNorm = leaderNormAfter c inp st := by
  cases h : inp.leaderRead <;> simp [leaderSample, leaderNormAfter, h]

theorem follower_sample_fields (s : Sample F) :
    (followerSample c inp s).followerOk = inp.followerRead.isSome ∧
      (followerSample c inp s).followerStreak =
        nextStreak inp.followerRead.isSome s.followerStreak ∧
      (followerSample c inp s).cycle = s.cycle ∧
      (followerSample c inp s).leaderOk = s.leaderOk ∧
      (followerSample c inp s).leaderNorm = s.leaderNorm := by
  cases h : inp.followerRead <;> simp [followerSample, h]

theorem follower_sample_pos (s : Sample F) {bf : Joint → Fin 8 → Byte}
    (h : inp.followerRead = some bf) :
    (followerSample c inp s).followerPos = positionsRead bf := by
  simp only [followerSample, h]
  rfl

theorem reopens_iff {st₁ : Control F} (hs : st₁.s = leaderSample c inp (wakeUp inp st).s)
    (hr : st₁.retryF = st.retryF) :
    ((followerSample c inp st₁.s).followerStreak ≥ reopenAfter ∧
      (followerSample c inp st₁.s).cycle ≥ st₁.retryF) ↔ FollowerReopens inp st := by
  obtain ⟨_, hstreak, hcycle, _⟩ := follower_sample_fields c inp st₁.s
  obtain ⟨_, hstreak', hcycle'⟩ := leader_sample_fields c inp (wakeUp inp st).s
  rw [hstreak, hcycle, hr, hs, hstreak', hcycle']
  rfl

theorem after_reads : AfterReads c inp st (readBuses c inp st).1 := by
  have hwake : LeaderFrame st (wakeUp inp st) := ⟨rfl, rfl, rfl, rfl, rfl, rfl⟩
  have hframe := hwake.trans (read_leader_frame c inp (wakeUp inp st))
  have hs := read_leader_sample c inp (wakeUp inp st)
  have hreopen := reopens_iff c inp st hs hframe.retryF
  obtain ⟨hok, _⟩ := leader_sample_fields c inp (wakeUp inp st).s
  have hnorm := leader_sample_norm c inp (wakeUp inp st)
  rw [← hs] at hok hnorm
  obtain ⟨hfok, _, _, hlok, hlnorm⟩ :=
    follower_sample_fields c inp (readLeader c inp (wakeUp inp st)).1.s
  have hpos : ∀ bf, inp.followerRead = some bf → _ :=
    fun _ h => follower_sample_pos c inp (readLeader c inp (wakeUp inp st)).1.s h
  simp only [readBuses, readFollower, hreopen]
  by_cases h : FollowerReopens inp st
  · rw [if_pos h]
    exact ⟨hframe.applied, hframe.goal, hframe.hold, hframe.rampMask, by simp [h],
      hlok.trans hok, hlnorm.trans hnorm, hfok, hpos⟩
  · rw [if_neg h]
    exact ⟨hframe.applied, hframe.goal, hframe.hold, hframe.rampMask, by simp [h, hframe.torque],
      hlok.trans hok, hlnorm.trans hnorm, hfok, hpos⟩

theorem read_leader_bus : ∀ op ∈ (readLeader c inp st).2, op.bus = .leader := by
  unfold readLeader
  dsimp only
  split <;> simp [Input.write, BusOp.bus]

theorem read_ops : (readBuses c inp st).2 = (readLeader c inp (wakeUp inp st)).2 ++
    if FollowerReopens inp st then
      [.reopen .follower, inp.write .reopenOff .follower (setTorque (armIds c.calFollower) false)]
    else [] := by
  have hs := read_leader_sample c inp (wakeUp inp st)
  have hframe := read_leader_frame c inp (wakeUp inp st)
  have hreopen := reopens_iff c inp st hs hframe.retryF
  simp only [readBuses, readFollower, hreopen]
  by_cases h : FollowerReopens inp st <;> simp [h]

end Reads

section EnterMode

variable (req : Mode)

@[simp] theorem enter_mode_torque : (enterMode req st).torque = st.torque := by
  simp only [enterMode]
  split_ifs <;> rfl

@[simp] theorem enter_mode_sample : (enterMode req st).s = st.s := by
  simp only [enterMode]
  split_ifs <;> rfl

@[simp] theorem enter_mode_goal : (enterMode req st).goal = st.goal := by
  simp only [enterMode]
  split_ifs <;> rfl

theorem enter_mode_mask : (enterMode req st).rampMask =
    if req ≠ st.applied ∧ st.torque then fun _ => true else st.rampMask := by
  simp only [enterMode]
  split_ifs <;> rfl

theorem enter_mode_hold : (enterMode req st).hold =
    if req = .hold ∧ st.torque then if st.s.followerOk then st.s.followerPos else st.goal
    else st.hold := by
  simp only [enterMode]
  split_ifs <;> rfl

theorem enter_mode_refused (h : st.torque = false) : enterMode st.applied st = st := by
  have hhold : ¬ (st.applied = .hold ∧ st.torque = true) := by simp [h]
  have hmask : ¬ (st.applied ≠ st.applied ∧ st.torque = true) := by simp
  simp only [enterMode, if_neg hhold, if_neg hmask]

end EnterMode

/-- The things that the transition can do, with what decides between them. -/
inductive Transition (c : Ctx) (inp : Input) (st : Control F) :
    Control F × List BusOp → Prop where
  | same (h : loadedMode inp.modeReq = st.applied) : Transition c inp st (st, [])
  | kept (hne : loadedMode inp.modeReq ≠ st.applied)
      (hreq : loadedMode inp.modeReq = .teleop ∨ loadedMode inp.modeReq = .hold)
      (ht : st.torque = true) :
      Transition c inp st (enterMode (loadedMode inp.modeReq) st, [])
  | enabled (hne : loadedMode inp.modeReq ≠ st.applied)
      (hreq : loadedMode inp.modeReq = .teleop ∨ loadedMode inp.modeReq = .hold)
      (ht : st.torque = false) (hok : st.s.followerOk = true) :
      Transition c inp st
        (enterMode (loadedMode inp.modeReq) (enableTorque c inp st).1, (enableTorque c inp st).2)
  | refused (hne : loadedMode inp.modeReq ≠ st.applied)
      (hreq : loadedMode inp.modeReq = .teleop ∨ loadedMode inp.modeReq = .hold)
      (ht : st.torque = false) (hok : st.s.followerOk = false) : Transition c inp st (st, [])
  | released (hne : loadedMode inp.modeReq ≠ st.applied)
      (hreq : loadedMode inp.modeReq = .idle ∨ loadedMode inp.modeReq = .estop)
      (ht : st.torque = true) :
      Transition c inp st (enterMode (loadedMode inp.modeReq) { st with torque := false },
        [inp.write .torqueOff .follower (setTorque (armIds c.calFollower) false)])
  | limp (hne : loadedMode inp.modeReq ≠ st.applied)
      (hreq : loadedMode inp.modeReq = .idle ∨ loadedMode inp.modeReq = .estop)
      (ht : st.torque = false) :
      Transition c inp st (enterMode (loadedMode inp.modeReq) st, [])

theorem mode_transition : Transition c inp st (modeTransition c inp st) := by
  unfold modeTransition
  dsimp only
  by_cases hsame : loadedMode inp.modeReq = st.applied
  · rw [if_pos hsame]
    exact .same hsame
  rw [if_neg hsame]
  by_cases hreq : loadedMode inp.modeReq = .teleop ∨ loadedMode inp.modeReq = .hold
  · rw [if_pos hreq]
    cases ht : st.torque with
    | true => exact .kept hsame hreq ht
    | false =>
      cases hok : st.s.followerOk with
      | true => exact .enabled hsame hreq ht hok
      | false =>
        rw [enter_mode_refused st ht]
        exact .refused hsame hreq ht hok
  · rw [if_neg hreq]
    have hlow : loadedMode inp.modeReq = .idle ∨ loadedMode inp.modeReq = .estop := by
      cases hm : loadedMode inp.modeReq <;> simp_all
    cases ht : st.torque with
    | true => exact .released hsame hlow ht
    | false => exact .limp hsame hlow ht

theorem mode_transition_sample : (modeTransition c inp st).1.s = st.s := by
  have h := mode_transition c inp st
  generalize modeTransition c inp st = r at h ⊢
  cases h <;> simp [enableTorque]

@[simp] theorem publish_torque : (publish inp st).torque = st.torque := rfl

@[simp] theorem publish_applied : (publish inp st).applied = st.applied := rfl

theorem next_slot_frame : (nextSlot c inp st).torque = st.torque ∧
    (nextSlot c inp st).applied = st.applied ∧ (nextSlot c inp st).goal = st.goal ∧
    (nextSlot c inp st).hold = st.hold ∧ (nextSlot c inp st).rampMask = st.rampMask ∧
    (nextSlot c inp st).s.followerPos = st.s.followerPos ∧
    (nextSlot c inp st).s.leaderNorm = st.s.leaderNorm ∧
    (nextSlot c inp st).s.torqueOn = st.s.torqueOn := by
  simp only [nextSlot]
  split_ifs <;> exact ⟨rfl, rfl, rfl, rfl, rfl, rfl, rfl, rfl⟩

section Cycle

variable [CFloat F]

@[simp] theorem move_goal_torque : (moveGoal c inp st).1.torque = st.torque := by
  simp only [moveGoal]
  split_ifs <;> rfl

@[simp] theorem move_goal_applied : (moveGoal c inp st).1.applied = st.applied := by
  simp only [moveGoal]
  split_ifs <;> rfl

@[simp] theorem move_goal_sample : (moveGoal c inp st).1.s = st.s := by
  simp only [moveGoal]
  split_ifs <;> rfl

theorem move_goal_ops : (moveGoal c inp st).2 = if st.torque then
    [inp.write .goal .follower (writeGoal (armIds c.calFollower) (steppedGoal c st))] else [] := by
  simp only [moveGoal]
  split_ifs <;> rfl

/-- The state in which the mode is loaded, and the state after the transition. -/
def loading (c : Ctx) (inp : Input) (st : Control F) : Control F := (readBuses c inp st).1
def entered (c : Ctx) (inp : Input) (st : Control F) : Control F :=
  (modeTransition c inp (loading c inp st)).1

theorem cycle_torque : (controlCycle c inp st).1.torque = (entered c inp st).torque := by
  simp [controlCycle, next_slot_frame, entered, loading]

theorem cycle_applied : (controlCycle c inp st).1.applied = (entered c inp st).applied := by
  simp [controlCycle, next_slot_frame, entered, loading]

theorem cycle_torque_on : (controlCycle c inp st).1.s.torqueOn = (entered c inp st).torque := by
  simp [controlCycle, next_slot_frame, entered, loading, publish]

theorem cycle_ops : (controlCycle c inp st).2 = (readBuses c inp st).2 ++
    (modeTransition c inp (loading c inp st)).2 ++
    if (entered c inp st).torque then
      [inp.write .goal .follower
        (writeGoal (armIds c.calFollower) (steppedGoal c (entered c inp st)))]
    else [] := by
  simp only [controlCycle, move_goal_ops]
  rfl

theorem cycle_follower_pos {bf : Joint → Fin 8 → Byte} (h : inp.followerRead = some bf) :
    (controlCycle c inp st).1.s.followerPos = positionsRead bf := by
  have hpos := (after_reads c inp st).follower_pos bf h
  simp only [controlCycle, next_slot_frame, publish, move_goal_sample]
  rw [mode_transition_sample]
  exact hpos

end Cycle

end ControlCycle
