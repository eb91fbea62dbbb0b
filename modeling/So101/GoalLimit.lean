import So101.CalibrationMap
import So101.Lib.RateLimit
import So101.SoftStart

/-!
# The rate limit of the goal

Under torque the goal of a joint moves towards the target of the cycle by one bounded
step. The invariant is an interval in which goal and hold pose stay; it holds the
register's values, so no goal is changed by its 16 bits or by the sign bit.
-/
namespace GoalLimit

open GuardedMachine ServoBus ControlThread ControlCycle SoftStart
open FloatLaws CalibrationMap RateLimit
open Calibration (Joint CalibArm CalibJoint CFloat calibNormalize calibUnnormalize)
open SharedMemory (Ctx Mode int16 int16_of_mem)

def Inside (lo hi x : ℤ) : Prop := lo ≤ x ∧ x ≤ hi

/-- Goals and hold poses lie between `lo` and `hi`. -/
structure Within {F : Type*} (lo hi : ℤ) (st : Control F) : Prop where
  goal : ∀ j, Inside lo hi (st.goal j)
  hold : ∀ j, Inside lo hi (st.hold j)

/-- An interval of `int16_t` with all that a position register can say. -/
structure Holds16 (lo hi : ℤ) : Prop where
  lo_int16 : -2 ^ 15 ≤ lo
  lo_read : lo ≤ -32767
  hi_read : 32767 ≤ hi
  hi_int16 : hi < 2 ^ 15

def MapsInto (F : Type*) [CFloat F] (c : Ctx) (lo hi : ℤ) : Prop :=
  ∀ j raw, |raw| ≤ 32767 →
    Inside lo hi (calibUnnormalize (c.calFollower j) (calibNormalize (c.calLeader j) raw : F))

section Interval

variable {lo hi : ℤ}

theorem Holds16.of_abs (h : Holds16 lo hi) {x : ℤ} (hx : |x| ≤ 32767) : Inside lo hi x := by
  obtain ⟨hlo, hhi⟩ := abs_le.mp hx
  exact ⟨h.lo_read.trans hlo, hhi.trans h.hi_read⟩

theorem Holds16.int16_eq (h : Holds16 lo hi) {x : ℤ} (hx : Inside lo hi x) : int16 x = x :=
  int16_of_mem (h.lo_int16.trans hx.1) (hx.2.trans_lt h.hi_int16)

theorem clamp_step_eq {step : ℤ} (h : 0 < step) (d : ℤ) : clampStep step d = limited step d := by
  simp only [clampStep, limited]
  split_ifs <;> omega

end Interval

variable {F : Type*} [CFloat F] {c : Ctx} {inp : Input} {st : Control F} {lo hi : ℤ}

theorem loading_within (h : Within lo hi st) : Within lo hi (loading c inp st) := by
  have hreads := after_reads c inp st
  constructor
  · intro j
    rw [loading, hreads.goal]
    exact h.goal j
  · intro j
    rw [loading, hreads.hold]
    exact h.hold j

theorem loading_pos_mem (c : Ctx) (inp : Input) (h16 : Holds16 lo hi)
    (hok : (loading c inp st).s.followerOk = true) (j : Joint) :
    Inside lo hi ((loading c inp st).s.followerPos j) := by
  have hreads := after_reads c inp st
  obtain ⟨bf, hbf⟩ := Option.isSome_iff_exists.mp (hreads.follower_ok.symm.trans hok)
  rw [loading, hreads.follower_pos bf hbf]
  exact h16.of_abs (abs_positions_read bf j)

omit [CFloat F] in
theorem enter_mode_within {req : Mode} (h : Within lo hi st)
    (hpos : st.s.followerOk = true → ∀ j, Inside lo hi (st.s.followerPos j)) :
    Within lo hi (enterMode req st) := by
  constructor
  · intro j
    rw [enter_mode_goal]
    exact h.goal j
  · intro j
    rw [enter_mode_hold]
    split_ifs with henter hok
    · exact hpos hok j
    · exact h.goal j
    · exact h.hold j

theorem entered_within (c : Ctx) (inp : Input) (h16 : Holds16 lo hi) (h : Within lo hi st) :
    Within lo hi (entered c inp st) := by
  have hload : Within lo hi (loading c inp st) := loading_within h
  have hpos : (loading c inp st).s.followerOk = true →
      ∀ j, Inside lo hi ((loading c inp st).s.followerPos j) := loading_pos_mem c inp h16
  have htrans := mode_transition c inp (loading c inp st)
  unfold entered
  generalize modeTransition c inp (loading c inp st) = r at htrans ⊢
  cases htrans with
  | same _ => exact hload
  | kept _ _ _ => exact enter_mode_within hload hpos
  | enabled _ _ _ hok =>
    exact enter_mode_within ⟨fun j => hpos hok j, hload.hold⟩ hpos
  | refused _ _ _ _ => exact hload
  | released _ _ _ => exact enter_mode_within ⟨hload.goal, hload.hold⟩ hpos
  | limp _ _ _ => exact enter_mode_within hload hpos

theorem target_mem (inp : Input) (hmap : MapsInto F c lo hi) (h16 : Holds16 lo hi)
    (h : Within lo hi st) (j : Joint) : Inside lo hi (target c (entered c inp st) j) := by
  have hin := entered_within c inp h16 h
  obtain ⟨hok, hnorm⟩ := entered_sample c inp st
  unfold target
  split_ifs with hteleop hhold
  · obtain ⟨bl, hbl⟩ := Option.isSome_iff_exists.mp (hok.symm.trans hteleop.2)
    rw [hnorm, leaderNormAfter, hbl]
    exact hmap j _ (abs_leader_position (bl j))
  · exact hin.hold j
  · exact hin.goal j

def stepLimit (c : Ctx) (ramping : Bool) : ℤ := if ramping then c.rampStep else c.maxStep

theorem step_limit_pos (hmax : 0 < c.maxStep) (hramp : 0 < c.rampStep) (ramping : Bool) :
    0 < stepLimit c ramping := by
  cases ramping
  · exact hmax
  · exact hramp

theorem stepped_goal_eq (inp : Input) (hmax : 0 < c.maxStep) (hramp : 0 < c.rampStep)
    (hmap : MapsInto F c lo hi) (h16 : Holds16 lo hi) (h : Within lo hi st) (j : Joint) :
    steppedGoal c (entered c inp st) j =
      toward (stepLimit c (stillRamping c (entered c inp st) j)) (target c (entered c inp st) j)
        ((entered c inp st).goal j) := by
  have hpos := step_limit_pos (c := c) hmax hramp (stillRamping c (entered c inp st) j)
  have hmem := toward_bounds hpos.le ((entered_within c inp h16 h).goal j)
    (target_mem inp hmap h16 h j)
  have hstep : steppedGoal c (entered c inp st) j =
      int16 ((entered c inp st).goal j + clampStep
        (stepLimit c (stillRamping c (entered c inp st) j))
        (target c (entered c inp st) j - (entered c inp st).goal j)) := rfl
  rw [hstep, clamp_step_eq hpos]
  exact h16.int16_eq hmem

theorem cycle_goal (hon : (entered c inp st).torque = true) :
    (controlCycle c inp st).1.goal = steppedGoal c (entered c inp st) := by
  have hcycle : (controlCycle c inp st).1 =
      nextSlot c inp (publish inp (moveGoal c inp (entered c inp st)).1) := rfl
  rw [hcycle]
  simp [next_slot_frame, publish, moveGoal, hon]

theorem cycle_goal_limp (hoff : (entered c inp st).torque = false) :
    (controlCycle c inp st).1.goal =
      if (entered c inp st).s.followerOk then (entered c inp st).s.followerPos
      else (entered c inp st).goal := by
  have hcycle : (controlCycle c inp st).1 =
      nextSlot c inp (publish inp (moveGoal c inp (entered c inp st)).1) := rfl
  rw [hcycle]
  simp only [next_slot_frame, publish, moveGoal, hoff]
  split_ifs <;> simp_all

theorem cycle_hold : (controlCycle c inp st).1.hold = (entered c inp st).hold := by
  have hcycle : (controlCycle c inp st).1 =
      nextSlot c inp (publish inp (moveGoal c inp (entered c inp st)).1) := rfl
  rw [hcycle]
  simp only [next_slot_frame, publish, moveGoal]
  split_ifs <;> rfl

theorem within_next (inp : Input) (hmax : 0 < c.maxStep) (hramp : 0 < c.rampStep)
    (hmap : MapsInto F c lo hi) (h16 : Holds16 lo hi) (h : Within lo hi st) :
    Within lo hi (controlCycle c inp st).1 := by
  have hin := entered_within c inp h16 h
  constructor
  · intro j
    cases hon : (entered c inp st).torque with
    | true =>
      rw [cycle_goal hon, stepped_goal_eq inp hmax hramp hmap h16 h]
      exact toward_bounds (step_limit_pos hmax hramp _).le (hin.goal j)
        (target_mem inp hmap h16 h j)
    | false =>
      rw [cycle_goal_limp hon]
      split_ifs with hok
      · rw [entered, mode_transition_sample] at hok ⊢
        exact loading_pos_mem c inp h16 hok j
      · exact hin.goal j
  · intro j
    rw [cycle_hold]
    exact hin.hold j

theorem start_within (c : Ctx) (now : ℤ) (sentFollower sentLeader : Bool) (h16 : Holds16 lo hi) :
    Within lo hi (startUp c now sentFollower sentLeader : ControlRun F).st := by
  constructor
  · intro j
    exact h16.of_abs (by simp [startUp, startControl])
  · intro j
    exact h16.of_abs (by simp [startUp, startControl])

/-- Goals and hold poses stay in the interval of the calibrations. -/
theorem within_along (hmax : 0 < c.maxStep) (hramp : 0 < c.rampStep) (hmap : MapsInto F c lo hi)
    (h16 : Holds16 lo hi) (now : ℤ) (sentFollower sentLeader : Bool) (inps : List Input) :
    (controlThread c).Along (fun r _ => Within lo hi r.st)
      (startUp c now sentFollower sentLeader : ControlRun F) inps := by
  have hstep : ∀ (r : ControlRun F) inp, Within lo hi r.st → Within lo hi (nextCycle c r inp).st :=
    fun _ inp h => within_next inp hmax hramp hmap h16 h
  exact free_along hstep (start_within c now sentFollower sentLeader h16) inps

structure LimitedGoal (c : Ctx) (inp : Input) (st : Control F) (j : Joint) : Prop where
  between : (controlCycle c inp st).1.goal j ∈
    Set.uIcc (goalBefore inp st j) (target c (entered c inp st) j)
  limit : |(controlCycle c inp st).1.goal j - goalBefore inp st j| ≤
    stepLimit c ((controlCycle c inp st).1.rampMask j)
  packet : ∃ ops w sent, (controlCycle c inp st).2 = ops ++ [.write .follower w sent] ∧
    w.IsGoal ∧ w.SendsTo j ((controlCycle c inp st).1.goal j)

theorem limited_goal (hmax : 0 < c.maxStep) (hramp : 0 < c.rampStep)
    (hmap : MapsInto F c (-32767) 32767) (h : Within (-32767) 32767 st)
    (hend : (controlCycle c inp st).1.torque = true) (j : Joint) : LimitedGoal c inp st j := by
  have h16 : Holds16 (-32767) 32767 := ⟨by norm_num, by norm_num, by norm_num, by norm_num⟩
  have hon := (cycle_torque c inp st).symm.trans hend
  have hmask := (cycle_state hon).1
  have hpos := step_limit_pos (c := c) hmax hramp (stillRamping c (entered c inp st) j)
  have hgoal : (controlCycle c inp st).1.goal j =
      toward (stepLimit c (stillRamping c (entered c inp st) j)) (target c (entered c inp st) j)
        (goalBefore inp st j) := by
    rw [cycle_goal hon, stepped_goal_eq inp hmax hramp hmap h16 h, (entered_on hon).goal]
  constructor
  · rw [hgoal]
    exact toward_mem_uIcc hpos.le
  · rw [hgoal, hmask]
    exact abs_toward_sub_le hpos.le
  · have hin := (within_next inp hmax hramp hmap h16 h).goal j
    rw [cycle_ops, if_pos hon, ← cycle_goal hon]
    exact ⟨_, _, _, rfl, is_goal_write_goal _ _, sends_write_goal _ _ (abs_le.mpr hin)⟩

/-- A range within the documented ticks, in the order that `calib_load` checks. -/
structure InTicks (j : CalibJoint) : Prop where
  min_tick : 0 ≤ j.rangeMin
  lt : j.rangeMin < j.rangeMax
  max_tick : j.rangeMax ≤ 4095

theorem maps_into {F : Type*} [RoundedFloat F] (hleader : ∀ j, RangeOk (c.calLeader j))
    (hends : ∀ j, EndsDiffer F (c.calLeader j)) (h16 : Holds16 lo hi)
    (hfollower : ∀ j, (c.calFollower j).rangeMin < (c.calFollower j).rangeMax)
    (hlo : ∀ j, lo ≤ (c.calFollower j).rangeMin) (hhi : ∀ j, (c.calFollower j).rangeMax ≤ hi) :
    MapsInto F c lo hi := by
  intro j raw hraw
  obtain ⟨hlo16, _, _, hhi16⟩ := h16
  have hmin := hlo j
  have hmax := hhi j
  have hlt := hfollower j
  have hnorm := normalize_between (hleader j) (hends j) (hraw.trans (by norm_num))
  have hmem := unnormalize_mem (j := c.calFollower j) (abs_lt.mpr ⟨by omega, by omega⟩)
    (abs_lt.mpr ⟨by omega, by omega⟩) hlt.le hnorm
  exact ⟨hmin.trans hmem.1, hmem.2.trans hmax⟩

/-- In every cycle that ends with torque on, every joint is moved towards its target by no
more than its step, and told so exactly. -/
theorem goal_limit {F : Type*} [RoundedFloat F] (c : Ctx) (hmax : 0 < c.maxStep)
    (hramp : 0 < c.rampStep) (hleader : ∀ j, InTicks (c.calLeader j))
    (hfollower : ∀ j, InTicks (c.calFollower j)) (now : ℤ) (sentFollower sentLeader : Bool)
    (inps : List Input) :
    (controlThread c).Along
      (fun r inp => (nextCycle c r inp).st.torque = true → ∀ j, LimitedGoal c inp r.st j)
      (startUp c now sentFollower sentLeader : ControlRun F) inps := by
  have h16 : Holds16 (-32767) 32767 := ⟨by norm_num, by norm_num, by norm_num, by norm_num⟩
  have hrange : ∀ j, RangeOk (c.calLeader j) := by
    intro j
    obtain ⟨hlo, hlt, hhi⟩ := hleader j
    exact ⟨by omega, hlt, by omega⟩
  have hends : ∀ j, EndsDiffer F (c.calLeader j) := by
    intro j
    obtain ⟨hlo, hlt, hhi⟩ := hleader j
    exact ends_differ_of_small (abs_lt.mpr ⟨by omega, by omega⟩) (abs_lt.mpr ⟨by omega, by omega⟩)
      hlt
  have hmap : MapsInto F c (-32767) 32767 :=
    maps_into hrange hends h16 (fun j => (hfollower j).lt)
      (fun j => (by norm_num : (-32767 : ℤ) ≤ 0).trans (hfollower j).min_tick)
      (fun j => (hfollower j).max_tick.trans (by norm_num))
  have hcycle : ∀ (r : ControlRun F) inp, Within (-32767) 32767 r.st →
      (nextCycle c r inp).st.torque = true → ∀ j, LimitedGoal c inp r.st j :=
    fun _ _ h hend j => limited_goal hmax hramp hmap h hend j
  exact (within_along hmax hramp hmap h16 now sentFollower sentLeader inps).imp hcycle

/-- TELEOP is entered far from the leader: the first goal is one ramp step away. -/
theorem goal_limit_entering :
    let c := Ctx.default Calibration.fullRange Calibration.fullRange
    (controlThread c).Along
      (fun r inp => (nextCycle c r inp).st.torque = true → ∀ j, LimitedGoal c inp r.st j)
      (startUp c 0 true true : ControlRun ℚ) dropoutInRamp ∧
    ((controlThread c).run (startUp c 0 true true : ControlRun ℚ) dropoutInRamp).st.goal 0 =
      2054 := by
  intro c
  have hticks : ∀ j, InTicks (Calibration.fullRange j) :=
    fun _ => ⟨le_rfl, (by decide : (0 : ℤ) < 4095), le_rfl⟩
  refine ⟨goal_limit c (by decide) (by decide) hticks hticks 0 true true _, ?_⟩
  decide +kernel

end GoalLimit
