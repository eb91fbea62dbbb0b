import So101.CalibrationFile
import So101.GoalLimit

/-!
# The number types on the way to the goal

`range_max - range_min` and `target - goal` are computed in `int`, the goal is stored in
16 bits. `calib_load` checks only the order of the two ends of a range; the computation
carries the calibrations that map every reading of the leader to 16 bits, and no others.
-/
namespace GoalRange

open GuardedMachine ServoBus ControlThread ControlCycle SoftStart
open FloatLaws CalibrationMap RateLimit GoalLimit
open CalibrationFile
open Calibration (Joint CalibArm CalibJoint CFloat calibNormalize calibUnnormalize)
open SharedMemory (Ctx Mode int16 int16_of_mem)
open RoundedFloat (value)

def IsInt (x : ℤ) : Prop := -2 ^ 31 ≤ x ∧ x < 2 ^ 31

def Mapped {F : Type*} (st : Control F) : Prop := st.applied = .teleop ∧ st.s.leaderOk = true

def goalDelta {F : Type*} [CFloat F] (c : Ctx) (st : Control F) (j : Joint) : ℤ :=
  clampStep (stepLimit c (stillRamping c st j)) (target c st j - st.goal j)

/-- No operation on the way to the goal of the joint leaves its type. -/
structure StepExact {F : Type*} [RoundedFloat F] (c : Ctx) (inp : Input) (st : Control F)
    (j : Joint) : Prop where
  span : Mapped (entered c inp st) →
    IsInt ((c.calFollower j).rangeMax - (c.calFollower j).rangeMin)
  converts : Mapped (entered c inp st) →
    Converts (scaled (c.calFollower j) ((entered c inp st).s.leaderNorm j))
  distance : IsInt (target c (entered c inp st) j - (entered c inp st).goal j)
  stored : (controlCycle c inp st).1.goal j =
    (entered c inp st).goal j + goalDelta c (entered c inp st) j
  published : (controlCycle c inp st).1.s.followerGoal j =
    (entered c inp st).goal j + goalDelta c (entered c inp st) j

def ExactRuns (F : Type*) [RoundedFloat F] (c : Ctx) : Prop :=
  ∀ now sentFollower sentLeader inps,
    (controlThread c).Along
      (fun r inp => (nextCycle c r inp).st.torque = true → ∀ j, StepExact c inp r.st j)
      (startUp c now sentFollower sentLeader : ControlRun F) inps

/-- The range and every reading of the leader get through the map within their types. -/
structure Carried (F : Type*) [RoundedFloat F] (l f : CalibJoint) : Prop where
  span : IsInt (f.rangeMax - f.rangeMin)
  converts : ∀ raw, |raw| ≤ 32767 → Converts (scaled f (calibNormalize l raw : F))
  mapped : ∀ raw, |raw| ≤ 32767 → -2 ^ 15 ≤ calibUnnormalize f (calibNormalize l raw : F) ∧
    calibUnnormalize f (calibNormalize l raw : F) < 2 ^ 15

def Int16Range (j : CalibJoint) : Prop := -2 ^ 15 ≤ j.rangeMin ∧ j.rangeMax < 2 ^ 15

def ReadableRange (j : CalibJoint) : Prop := -32767 ≤ j.rangeMin ∧ j.rangeMax ≤ 32767

variable {F : Type*} [RoundedFloat F] {c : Ctx} {inp : Input} {st : Control F}

theorem cycle_published :
    (controlCycle c inp st).1.s.followerGoal = (controlCycle c inp st).1.goal := by
  have hcycle : (controlCycle c inp st).1 =
      nextSlot c inp (publish inp (moveGoal c inp (entered c inp st)).1) := rfl
  rw [hcycle]
  simp only [nextSlot]
  split_ifs <;> rfl

theorem holds16_all : Holds16 (-2 ^ 15) (2 ^ 15 - 1) :=
  ⟨le_rfl, by norm_num, by norm_num, by norm_num⟩

theorem maps_of_carried (h : ∀ j, Carried F (c.calLeader j) (c.calFollower j)) :
    MapsInto F c (-2 ^ 15) (2 ^ 15 - 1) := by
  intro j raw hraw
  obtain ⟨hlo, hhi⟩ := (h j).mapped raw hraw
  exact ⟨hlo, Int.le_sub_one_of_lt hhi⟩

theorem step_exact (hmax : 0 < c.maxStep) (hramp : 0 < c.rampStep)
    (hcarried : ∀ j, Carried F (c.calLeader j) (c.calFollower j))
    (h : Within (-2 ^ 15) (2 ^ 15 - 1) st) (hend : (controlCycle c inp st).1.torque = true)
    (j : Joint) : StepExact c inp st j := by
  have hon := (cycle_torque c inp st).symm.trans hend
  have hmap := maps_of_carried hcarried
  have htarget := target_mem inp hmap holds16_all h j
  have hgoal := (entered_within c inp holds16_all h).goal j
  have hstored : (controlCycle c inp st).1.goal j =
      (entered c inp st).goal j + goalDelta c (entered c inp st) j := by
    rw [cycle_goal hon, stepped_goal_eq inp hmax hramp hmap holds16_all h, goalDelta,
      clamp_step_eq (step_limit_pos hmax hramp _)]
    rfl
  constructor
  · intro _
    exact (hcarried j).span
  · rintro ⟨_, hok⟩
    obtain ⟨hread, hnorm⟩ := entered_sample c inp st
    obtain ⟨bl, hbl⟩ := Option.isSome_iff_exists.mp (hread.symm.trans hok)
    rw [hnorm, leaderNormAfter, hbl]
    exact (hcarried j).converts _ (abs_leader_position (bl j))
  · obtain ⟨ht₁, ht₂⟩ := htarget
    obtain ⟨hg₁, hg₂⟩ := hgoal
    exact ⟨by omega, by omega⟩
  · exact hstored
  · rw [cycle_published]
    exact hstored

theorem exact_of_carried (hmax : 0 < c.maxStep) (hramp : 0 < c.rampStep)
    (hcarried : ∀ j, Carried F (c.calLeader j) (c.calFollower j)) : ExactRuns F c := by
  intro now sentFollower sentLeader inps
  have hcycle : ∀ (r : ControlRun F) inp, Within (-2 ^ 15) (2 ^ 15 - 1) r.st →
      (nextCycle c r inp).st.torque = true → ∀ j, StepExact c inp r.st j :=
    fun _ _ h hend j => step_exact hmax hramp hcarried h hend j
  exact (within_along hmax hramp (maps_of_carried hcarried) holds16_all now sentFollower
    sentLeader inps).imp hcycle

/-- Accepted ranges that do not collapse in `float` are carried to every range of 16 bits. -/
theorem carried_of_fit {l f : CalibJoint} (hl : RangeOk l) (hends : EndsDiffer F l)
    (hf : RangeOk f) (hfit : Int16Range f) : Carried F l f := by
  obtain ⟨hlo, hhi⟩ := hfit
  have hlt := hf.lt
  have hmin : |f.rangeMin| < 2 ^ 20 := abs_lt.mpr ⟨by omega, by omega⟩
  have hmax : |f.rangeMax| < 2 ^ 20 := abs_lt.mpr ⟨by omega, by omega⟩
  have hnorm : ∀ raw : ℤ, |raw| ≤ 32767 → Between (calibNormalize l raw : F) (-100) 100 :=
    fun raw hraw => normalize_between hl hends (hraw.trans (by norm_num))
  constructor
  · exact ⟨by omega, by omega⟩
  · intro raw hraw
    exact (scaled_between hmin hmax hlt.le (hnorm raw hraw)).converts hmin hmax
  · intro raw hraw
    have hmem := unnormalize_mem hmin hmax hlt.le (hnorm raw hraw)
    exact ⟨hlo.trans hmem.1, hmem.2.trans_lt hhi⟩

/-- TELEOP with the leader at `raw` and the follower at `pos`. -/
def sweepInput (raw : Joint → ℤ) (pos : ℤ) : Input :=
  { quietInput with
    modeReq := Mode.teleop.word
    leaderRead := some (fun j =>
      ![lowByte (ftsEncodeSm (raw j) 15), highByte (ftsEncodeSm (raw j) 15)])
    followerRead := some (fun _ => servoBytes pos) }

section Sweep

variable {raw : Joint → ℤ} {pos : ℤ}

theorem encoded_position {v : ℤ} (h : |v| ≤ 32767) :
    int16 (ftsDecodeSm (le16 (lowByte (ftsEncodeSm v 15)) (highByte (ftsEncodeSm v 15))) 15) =
      v := by
  obtain ⟨hlo, hhi⟩ := abs_le.mp h
  rw [le16_bytes, decode_encode h]
  exact int16_of_mem (by omega) (by omega)

theorem sweep_follower (h : |pos| ≤ 32767) (j : Joint) :
    positionsRead (fun _ => servoBytes pos) j = pos := encoded_position h

theorem sweep_entered (h : WriteDiscipline.TorqueInMode st) (hraw : ∀ j, |raw j| ≤ 32767)
    (hkeep : KeepsTorque (sweepInput raw pos) st) :
    (controlCycle c (sweepInput raw pos) st).1.torque = true ∧
      Mapped (entered c (sweepInput raw pos) st) ∧
      (entered c (sweepInput raw pos) st).goal = goalBefore (sweepInput raw pos) st ∧
      ∀ j, (entered c (sweepInput raw pos) st).s.leaderNorm j =
        calibNormalize (c.calLeader j) (raw j) := by
  have hend := (keeps_torque_iff c h rfl).mpr hkeep
  have hon := (cycle_torque c _ st).symm.trans hend
  have hfrom := entered_on hon
  obtain ⟨hok, hnorm⟩ := entered_sample c (sweepInput raw pos) st
  refine ⟨hend, ⟨hfrom.applied.trans (WriteDiscipline.loaded_mode_word .teleop), hok⟩,
    hfrom.goal, ?_⟩
  intro j
  have hlead : leaderPosition
      ![lowByte (ftsEncodeSm (raw j) 15), highByte (ftsEncodeSm (raw j) 15)] = raw j :=
    encoded_position (hraw j)
  rw [hnorm]
  simp only [leaderNormAfter, sweepInput, hlead]

theorem stored_mem (hend : (controlCycle c inp st).1.torque = true) (j : Joint) :
    -2 ^ 15 ≤ (controlCycle c inp st).1.goal j ∧ (controlCycle c inp st).1.goal j < 2 ^ 15 := by
  rw [cycle_goal ((cycle_torque c inp st).symm.trans hend)]
  constructor
  · exact Int.le_bmod (by norm_num)
  · exact Int.bmod_lt (by norm_num)

/-- An exact step towards a target beyond the goal gets beyond it. -/
theorem stored_toward (hmax : 0 < c.maxStep) (hramp : 0 < c.rampStep) {j : Joint}
    (hstep : StepExact c inp st j) : ∃ step, 0 < step ∧ (controlCycle c inp st).1.goal j =
      toward step (target c (entered c inp st) j) ((entered c inp st).goal j) := by
  have hpos := step_limit_pos (c := c) hmax hramp (stillRamping c (entered c inp st) j)
  refine ⟨_, hpos, ?_⟩
  rw [hstep.stored, goalDelta, clamp_step_eq hpos]
  rfl

theorem sweep_target {j : Joint} (h : Mapped (entered c (sweepInput raw pos) st))
    (hnorm : (entered c (sweepInput raw pos) st).s.leaderNorm j =
      calibNormalize (c.calLeader j) (raw j)) :
    target c (entered c (sweepInput raw pos) st) j =
      calibUnnormalize (c.calFollower j) (calibNormalize (c.calLeader j) (raw j) : F) := by
  obtain ⟨hteleop, hok⟩ := h
  unfold target
  rw [if_pos ⟨hteleop, hok⟩, hnorm]

theorem sweep_start (c : Ctx) (raw : Joint → ℤ) (pos : ℤ) (hpos : |pos| ≤ 32767) :
    WriteDiscipline.TorqueInMode (startUp c 0 true true : ControlRun F).st ∧
      KeepsTorque (sweepInput raw pos) (startUp c 0 true true : ControlRun F).st ∧
      ∀ j, goalBefore (sweepInput raw pos) (startUp c 0 true true : ControlRun F).st j = pos := by
  refine ⟨?_, ?_, sweep_follower hpos⟩
  · intro ht
    cases ht
  · exact Or.inr ⟨_, Or.inl rfl, (by decide : Mode.teleop.word ≠ Mode.idle.word), rfl, rfl⟩

omit [RoundedFloat F] in
theorem keeps_on (h : st.torque = true) : KeepsTorque (sweepInput raw pos) st := by
  refine Or.inl ⟨h, ?_⟩
  intro hr
  cases reopens_read_failed hr

theorem sweep_step (hmax : 0 < c.maxStep) (hramp : 0 < c.rampStep)
    (h : WriteDiscipline.TorqueInMode st) (hraw : ∀ j, |raw j| ≤ 32767)
    (hkeep : KeepsTorque (sweepInput raw pos) st)
    (hexact : (controlCycle c (sweepInput raw pos) st).1.torque = true →
      ∀ j, StepExact c (sweepInput raw pos) st j) (j : Joint) :
    (controlCycle c (sweepInput raw pos) st).1.torque = true ∧
      ∃ step, 0 < step ∧ (controlCycle c (sweepInput raw pos) st).1.goal j =
        toward step
          (calibUnnormalize (c.calFollower j) (calibNormalize (c.calLeader j) (raw j) : F))
          (goalBefore (sweepInput raw pos) st j) := by
  obtain ⟨hend, hmapped, hgoal, hnorm⟩ := sweep_entered (c := c) h hraw hkeep
  obtain ⟨step, hpos, hstored⟩ := stored_toward hmax hramp (hexact hend j)
  rw [sweep_target hmapped (hnorm j), hgoal] at hstored
  exact ⟨hend, step, hpos, hstored⟩

end Sweep

section Readings

variable {raw : ℤ}

theorem reading_converts (hraw : |raw| ≤ 32767) (h : ExactRuns F c) (j : Joint) :
    IsInt ((c.calFollower j).rangeMax - (c.calFollower j).rangeMin) ∧
      Converts (scaled (c.calFollower j) (calibNormalize (c.calLeader j) raw : F)) := by
  obtain ⟨hstart, hkeep, _⟩ := sweep_start (F := F) c (fun _ => raw) 0 (by norm_num)
  have hruns := h 0 true true [sweepInput (fun _ => raw) 0]
  obtain ⟨hend, hmapped, _, hnorm⟩ := sweep_entered (c := c) hstart (fun _ => hraw) hkeep
  have hj := hruns.1 hend j
  have hconv := hj.converts hmapped
  rw [hnorm j] at hconv
  exact ⟨hj.span hmapped, hconv⟩

/-- From -32767 the second step towards a target below 16 bits leaves them. -/
theorem reading_ge (hmax : 0 < c.maxStep) (hramp : 0 < c.rampStep) (hraw : |raw| ≤ 32767)
    (h : ExactRuns F c) (j : Joint) :
    -2 ^ 15 ≤ calibUnnormalize (c.calFollower j) (calibNormalize (c.calLeader j) raw : F) := by
  obtain ⟨hstart, hkeep, hpos⟩ := sweep_start (F := F) c (fun _ => raw) (-32767) (by norm_num)
  have hruns := h 0 true true
    [sweepInput (fun _ => raw) (-32767), sweepInput (fun _ => raw) (-32767)]
  generalize (startUp c 0 true true : ControlRun F) = r at hruns hkeep hstart hpos
  obtain ⟨hend, s₁, hs₁, hgoal₁⟩ :=
    sweep_step hmax hramp hstart (fun _ => hraw) hkeep hruns.1 j
  obtain ⟨hend₂, s₂, hs₂, hgoal₂⟩ :=
    sweep_step hmax hramp (WriteDiscipline.torque_in_mode_next hstart) (fun _ => hraw)
      (keeps_on hend) hruns.2.1 j
  have hkept : goalBefore (sweepInput (fun _ => raw) (-32767))
      (controlCycle c (sweepInput (fun _ => raw) (-32767)) r.st).1 =
        (controlCycle c (sweepInput (fun _ => raw) (-32767)) r.st).1.goal := by
    unfold goalBefore
    rw [hend]
  have hmem₁ := stored_mem hend j
  have hmem₂ := stored_mem hend₂ j
  obtain ⟨t, ht⟩ :
      ∃ t, calibUnnormalize (c.calFollower j) (calibNormalize (c.calLeader j) raw : F) = t :=
    ⟨_, rfl⟩
  rw [hkept, ht] at hgoal₂
  rw [hpos j, ht] at hgoal₁
  rw [ht]
  by_contra! hbad
  have hfirst : (controlCycle c (sweepInput (fun _ => raw) (-32767)) r.st).1.goal j < -32767 := by
    rw [hgoal₁]
    exact toward_lt hs₁ (by omega)
  have hsecond := toward_lt hs₂
    (by omega : t < (controlCycle c (sweepInput (fun _ => raw) (-32767)) r.st).1.goal j)
  rw [hgoal₂] at hmem₂
  omega

theorem reading_lt (hmax : 0 < c.maxStep) (hramp : 0 < c.rampStep) (hraw : |raw| ≤ 32767)
    (h : ExactRuns F c) (j : Joint) :
    calibUnnormalize (c.calFollower j) (calibNormalize (c.calLeader j) raw : F) < 2 ^ 15 := by
  obtain ⟨hstart, hkeep, hpos⟩ := sweep_start (F := F) c (fun _ => raw) 32767 (by norm_num)
  have hruns := h 0 true true [sweepInput (fun _ => raw) 32767]
  generalize (startUp c 0 true true : ControlRun F) = r at hruns hkeep hstart hpos
  obtain ⟨hend, step, hstep, hgoal⟩ :=
    sweep_step hmax hramp hstart (fun _ => hraw) hkeep hruns.1 j
  have hmem := stored_mem hend j
  rw [hgoal, hpos j] at hmem
  by_contra! hbad
  have hfirst := lt_toward hstep (lt_of_lt_of_le (by norm_num : (32767 : ℤ) < 2 ^ 15) hbad)
  omega

end Readings

/-- The computation of the goal stays within its types in every run exactly where the
calibrations carry every reading of the leader. -/
theorem goal_path_exact (c : Ctx) (hmax : 0 < c.maxStep) (hramp : 0 < c.rampStep) :
    ExactRuns F c ↔ ∀ j, Carried F (c.calLeader j) (c.calFollower j) := by
  constructor
  · intro h j
    constructor
    · have hzero : |(0 : ℤ)| ≤ 32767 := by norm_num
      exact (reading_converts hzero h j).1
    · exact fun raw hraw => (reading_converts hraw h j).2
    · exact fun raw hraw => ⟨reading_ge hmax hramp hraw h j, reading_lt hmax hramp hraw h j⟩
  · exact exact_of_carried hmax hramp

/-- Where the leader can be read at both ends of its range, no other range of the follower
is carried than one of 16 bits. -/
theorem carried_iff_fit {l f : CalibJoint} (hl : RangeOk l) (hread : ReadableRange l)
    (hf : RangeOk f) (hgrip : l.isGripper = f.isGripper) : Carried F l f ↔ Int16Range f := by
  obtain ⟨hlo, hhi⟩ := hread
  have hlt := hl.lt
  have hends : EndsDiffer F l :=
    ends_differ_of_small (abs_lt.mpr ⟨by omega, by omega⟩) (abs_lt.mpr ⟨by omega, by omega⟩) hlt
  constructor
  · intro h
    -- the reading that sends the joint to the end `top` of its range
    have hend : ∀ top, ∃ raw, |raw| ≤ 32767 ∧
        value (fraction f (calibNormalize l raw : F)) = some (endShare top : ℚ) := by
      intro top
      refine ⟨endRaw l (top ^^ inverted l ^^ inverted f), ?_, fraction_at_end hl hends hgrip top⟩
      unfold endRaw
      split_ifs <;> exact abs_le.mpr ⟨by omega, by omega⟩
    have hmin : -2 ^ 15 ≤ f.rangeMin := by
      obtain ⟨raw, hraw, hfrac⟩ := hend false
      by_contra hbad
      have hle := unnormalize_le (n := -32769) hf h.span.2 hfrac (h.converts raw hraw)
        (by norm_num) (by omega)
      have hge := (h.mapped raw hraw).1
      omega
    refine ⟨hmin, ?_⟩
    obtain ⟨raw, hraw, hfrac⟩ := hend true
    by_contra hbad
    have hge := le_unnormalize (n := 32768) hf h.span.2 hfrac (h.converts raw hraw)
      (by norm_num) (by omega) (by omega)
    have hle := (h.mapped raw hraw).2
    omega
  · exact carried_of_fit hl hends hf

/-- A file in which every joint may turn from 0 to `top`. -/
def rangeFile (top : ℕ) : Text :=
  ['{'] ++ (List.finRange 6).flatMap (fun k =>
    quoted (calibJointNames k) ++ [':', '{'] ++ quoted "id" ++ [':'] ++ Nat.toDigits 10 (k + 1) ++
    [','] ++ quoted "drive_mode" ++ [':', '0', ','] ++ quoted "homing_offset" ++
    [':', '0', ','] ++ quoted "range_min" ++ [':', '0', ','] ++ quoted "range_max" ++ [':'] ++
    Nat.toDigits 10 top ++ ['}', ',']) ++ ['}']

def rangeArm (top : ℕ) : CalibArm := fun k => { Calibration.fullRange k with rangeMax := top }

theorem range_file_loads : calibLoad (some (rangeFile 4095)) = .ok (rangeArm 4095) :=
  calib_load_eq (by decide +kernel)

theorem goal_path_exact_full : ExactRuns ℚ (Ctx.default (rangeArm 4095) (rangeArm 4095)) := by
  apply (goal_path_exact (Ctx.default (rangeArm 4095) (rangeArm 4095)) (by decide)
    (by decide)).mpr
  intro j
  have haccepted := calib_load_accepted range_file_loads j
  have hfit : Int16Range (rangeArm 4095 j) := ⟨by simp [rangeArm, Calibration.fullRange],
    by simp [rangeArm]⟩
  have hread : ReadableRange (rangeArm 4095 j) := ⟨by simp [rangeArm, Calibration.fullRange],
    by simp [rangeArm]⟩
  exact (carried_iff_fit haccepted.range hread haccepted.range rfl).mpr hfit

/-- The follower's range ends at 100000, the follower is read at 32765 and the leader stands at
its end: the first goal of 32771 is stored as -32765. -/
theorem goal_path_wraps :
    let c := Ctx.default (rangeArm 4095) (rangeArm 100000)
    calibLoad (some (rangeFile 4095)) = .ok c.calLeader ∧
      calibLoad (some (rangeFile 100000)) = .ok c.calFollower ∧
      ¬ (controlThread c).Along
        (fun r inp => (nextCycle c r inp).st.torque = true → ∀ j, StepExact c inp r.st j)
        (startUp c 0 true true : ControlRun ℚ) [sweepInput (fun _ => 4095) 32765] := by
  intro c
  refine ⟨range_file_loads, calib_load_eq (by decide +kernel), ?_⟩
  intro hall
  have hon : (controlCycle c (sweepInput (fun _ => 4095) 32765)
      (startControl c 0 : Control ℚ)).1.torque = true := by decide +kernel
  have hstored := (hall.1 hon 0).stored
  revert hstored
  decide +kernel

end GoalRange
