import Mathlib.Algebra.Order.Archimedean.Basic
import Mathlib.Algebra.Order.Floor.Semiring
import So101.GoalLimit

/-!
# Arriving at a target that stands still

Under torque, with no change of mode, HOLD and a leader that does not move have one target
for every cycle. The goal takes steps of `ramp_step`, and of `max_step` from the cycle on that
finds it within `ramp_done`, until it is there.
-/
namespace GoalConvergence

open GuardedMachine ServoBus ControlThread ControlCycle SoftStart GoalLimit RateLimit
open Calibration (Joint CFloat calibNormalize calibUnnormalize)
open SharedMemory (Ctx Mode int16 int16_of_mem)

def IsInt16 (x : ℤ) : Prop := -2 ^ 15 ≤ x ∧ x < 2 ^ 15

variable {F : Type*} [CFloat F] {c : Ctx} {inp : Input} {st : Control F} {j : Joint} {raw : ℤ}

/-- The target of the joint in HOLD, and in TELEOP where the leader is at `raw`. -/
def steadyTarget (c : Ctx) (st : Control F) (j : Joint) (raw : ℤ) : ℤ :=
  if st.applied = .hold then st.hold j
  else calibUnnormalize (c.calFollower j) (calibNormalize (c.calLeader j) raw : F)

/-- A cycle with torque on and no mode change, in HOLD or with the leader at `raw`. -/
structure Steady (c : Ctx) (j : Joint) (raw : ℤ) (st : Control F) (inp : Input) : Prop where
  mode : loadedMode inp.modeReq = st.applied
  before : st.torque = true
  after : (controlCycle c inp st).1.torque = true
  source : st.applied = .hold ∨
    st.applied = .teleop ∧ ∃ bl, inp.leaderRead = some bl ∧ leaderPosition (bl j) = raw

theorem Steady.entered_eq (h : Steady c j raw st inp) : entered c inp st = loading c inp st := by
  have happlied := (after_reads c inp st).applied
  rw [entered, modeTransition, loading]
  simp only [h.mode, happlied, if_true]

theorem Steady.target_eq (h : Steady c j raw st inp) :
    target c (entered c inp st) j = steadyTarget c st j raw := by
  have hreads := after_reads c inp st
  obtain ⟨hok, hnorm⟩ := entered_sample c inp st
  rw [h.entered_eq] at hok hnorm ⊢
  rw [target, steadyTarget, loading, hreads.applied, hreads.hold]
  rcases h.source with hhold | ⟨hteleop, bl, hread, hpos⟩
  · simp [hhold]
  · rw [loading] at hok hnorm
    rw [hok, hnorm, leaderNormAfter, hread]
    simp [hteleop, hpos]

/-- The joint after such a cycle: its goal is one bounded step nearer to `t`. -/
structure Stepped (c : Ctx) (j : Joint) (t : ℤ) (st st' : Control F) : Prop where
  mask : st'.rampMask j = (st.rampMask j && !decide (|t - st.goal j| ≤ c.rampDone))
  goal : st'.goal j = toward (stepLimit c (st'.rampMask j)) t (st.goal j)
  applied : st'.applied = st.applied
  hold : st'.hold = st.hold

theorem int16_toward {step t x : ℤ} (hstep : 0 < step) (hx : IsInt16 x) (ht : IsInt16 t) :
    IsInt16 (toward step t x) := by
  obtain ⟨hxlo, hxhi⟩ := hx
  obtain ⟨htlo, hthi⟩ := ht
  have hxmem : -2 ^ 15 ≤ x ∧ x ≤ 2 ^ 15 - 1 := ⟨hxlo, by omega⟩
  have htmem : -2 ^ 15 ≤ t ∧ t ≤ 2 ^ 15 - 1 := ⟨htlo, by omega⟩
  obtain ⟨hlo, hhi⟩ := toward_bounds hstep.le hxmem htmem
  exact ⟨hlo, by omega⟩

theorem Steady.stepped (hmax : 0 < c.maxStep) (hramp : 0 < c.rampStep)
    (h : Steady c j raw st inp) (hgoal : IsInt16 (st.goal j))
    (ht : IsInt16 (steadyTarget c st j raw)) :
    Stepped c j (steadyTarget c st j raw) st (controlCycle c inp st).1 := by
  have hreads := after_reads c inp st
  have hon := (cycle_torque c inp st).symm.trans h.after
  have hkeep : (entered c inp st).goal = st.goal ∧ (entered c inp st).rampMask = st.rampMask ∧
      (entered c inp st).hold = st.hold := by
    rw [h.entered_eq, loading]
    exact ⟨hreads.goal, hreads.rampMask, hreads.hold⟩
  obtain ⟨hgoal', hmask', hhold'⟩ := hkeep
  have hmask : (controlCycle c inp st).1.rampMask j = stillRamping c (entered c inp st) j := by
    rw [(cycle_state hon).1]
  have hpos := step_limit_pos (c := c) hmax hramp (stillRamping c (entered c inp st) j)
  constructor
  · rw [hmask, stillRamping, h.target_eq, hgoal', hmask']
  · have hstep : steppedGoal c (entered c inp st) j =
        int16 ((entered c inp st).goal j + clampStep
          (stepLimit c (stillRamping c (entered c inp st) j))
          (target c (entered c inp st) j - (entered c inp st).goal j)) := rfl
    obtain ⟨hlo, hhi⟩ := int16_toward hpos hgoal ht
    rw [cycle_goal hon, hmask, hstep, clamp_step_eq hpos, h.target_eq, hgoal']
    exact int16_of_mem hlo hhi
  · rw [cycle_applied, h.entered_eq, loading, hreads.applied]
  · rw [cycle_hold, hhold']

/-- What is asked of a cycle: the distance shrinks by the step or to nothing, and the goal
stays on its side of the target. -/
structure Approaches (c : Ctx) (j : Joint) (t : ℤ) (st st' : Control F) : Prop where
  distance : |t - st'.goal j| =
    |t - st.goal j| - min (stepLimit c (st'.rampMask j)) |t - st.goal j|
  below : st.goal j ≤ t → st'.goal j ≤ t
  above : t ≤ st.goal j → t ≤ st'.goal j

omit [CFloat F] in
theorem Stepped.approaches {t : ℤ} {st' : Control F} (hmax : 0 < c.maxStep)
    (hramp : 0 < c.rampStep) (h : Stepped c j t st st') : Approaches c j t st st' := by
  have hpos := (step_limit_pos (c := c) hmax hramp (st'.rampMask j)).le
  constructor
  · rw [h.goal]
    exact abs_sub_toward hpos t (st.goal j)
  · rw [h.goal]
    exact toward_le hpos
  · rw [h.goal]
    exact le_toward hpos

section Run

variable {t : ℤ} {r : ControlRun F} {inps : List Input}

/-- The state after the first `n` cycles. -/
def after (c : Ctx) (r : ControlRun F) (inps : List Input) (n : ℕ) : Control F :=
  ((controlThread c).run r (inps.take n)).st

theorem after_succ {n : ℕ} (hn : n < inps.length) :
    after c r inps (n + 1) = (controlCycle c inps[n] (after c r inps n)).1 := by
  rw [after, run_take_succ r hn]
  rfl

theorem Stepped.target_eq {st' : Control F} (h : Stepped c j t st st') :
    steadyTarget c st' j raw = steadyTarget c st j raw := by
  rw [steadyTarget, steadyTarget, h.applied, h.hold]

section Cycles

variable (hmax : 0 < c.maxStep) (hramp : 0 < c.rampStep) (hgoal : IsInt16 (r.st.goal j))
  (ht : IsInt16 t) (htarget : steadyTarget c r.st j raw = t)
  (hsteady : (controlThread c).Along (fun r inp => Steady c j raw r.st inp) r inps)

include hmax hramp hgoal ht htarget hsteady

theorem steady_run {n : ℕ} (hn : n ≤ inps.length) :
    IsInt16 ((after c r inps n).goal j) ∧ steadyTarget c (after c r inps n) j raw = t := by
  induction n with
  | zero => exact ⟨hgoal, htarget⟩
  | succ n ih =>
    obtain ⟨hgoal', htarget'⟩ := ih (Nat.le_of_succ_le hn)
    have hat : Steady c j raw (after c r inps n) inps[n] := hsteady.at hn
    have hcycle := hat.stepped hmax hramp hgoal' (htarget'.symm ▸ ht)
    have hpos := step_limit_pos (c := c) hmax hramp
      ((controlCycle c inps[n] (after c r inps n)).1.rampMask j)
    rw [after_succ hn]
    constructor
    · rw [hcycle.goal, htarget']
      exact int16_toward hpos hgoal' ht
    · exact hcycle.target_eq.trans htarget'

theorem stepped_run {n : ℕ} (hn : n < inps.length) :
    Stepped c j t (after c r inps n) (after c r inps (n + 1)) := by
  obtain ⟨hgoal', htarget'⟩ := steady_run hmax hramp hgoal ht htarget hsteady hn.le
  have hat : Steady c j raw (after c r inps n) inps[n] := hsteady.at hn
  have hcycle := hat.stepped hmax hramp hgoal' (htarget'.symm ▸ ht)
  rw [after_succ hn]
  rwa [htarget'] at hcycle

theorem mask_run {n : ℕ} (hn : n ≤ inps.length) :
    (after c r inps n).rampMask j = true ↔
      r.st.rampMask j = true ∧ ∀ k < n, c.rampDone < |t - (after c r inps k).goal j| := by
  induction n with
  | zero => simp [after]
  | succ n ih =>
    rw [(stepped_run hmax hramp hgoal ht htarget hsteady hn).mask, Bool.and_eq_true,
      ih (Nat.le_of_succ_le hn), Bool.not_eq_true', decide_eq_false_iff_not, not_le, and_assoc,
      Nat.forall_lt_succ_right]

theorem goal_run {n : ℕ} (hn : n ≤ inps.length)
    (hfar : |t - r.st.goal j| ≤ n • min c.rampStep c.maxStep) : (after c r inps n).goal j = t := by
  have hsteps : ∀ k < n, ∃ s, min c.rampStep c.maxStep ≤ s ∧
      (after c r inps (k + 1)).goal j = toward s t ((after c r inps k).goal j) := by
    intro k hk
    have hcycle := stepped_run hmax hramp hgoal ht htarget hsteady (hk.trans_le hn)
    refine ⟨_, ?_, hcycle.goal⟩
    unfold stepLimit
    split
    · exact min_le_left _ _
    · exact min_le_right _ _
  exact reached_of_steps (x := fun n => (after c r inps n).goal j) (le_min hramp.le hmax.le)
    hsteps hfar

end Cycles

/-- Every cycle brings the goal one step nearer, the ramp ends in the first cycle that finds
it near enough, and the slower of the two steps bounds the number of cycles. -/
theorem goal_convergence (hmax : 0 < c.maxStep) (hramp : 0 < c.rampStep)
    (hgoal : IsInt16 (r.st.goal j)) (ht : IsInt16 t) (htarget : steadyTarget c r.st j raw = t)
    (hsteady : (controlThread c).Along (fun r inp => Steady c j raw r.st inp) r inps) :
    (∀ n < inps.length, Approaches c j t (after c r inps n) (after c r inps (n + 1))) ∧
    (∀ n ≤ inps.length, (after c r inps n).rampMask j = true ↔
      r.st.rampMask j = true ∧ ∀ k < n, c.rampDone < |t - (after c r inps k).goal j|) ∧
    (∀ n ≤ inps.length,
      ⌈((|t - r.st.goal j| : ℤ) : ℚ) / (min c.rampStep c.maxStep : ℤ)⌉₊ ≤ n →
        (after c r inps n).goal j = t) := by
  refine ⟨?_, ?_, ?_⟩
  · intro n hn
    exact (stepped_run hmax hramp hgoal ht htarget hsteady hn).approaches hmax hramp
  · intro n hn
    exact mask_run hmax hramp hgoal ht htarget hsteady hn
  · intro n hn hceil
    apply goal_run hmax hramp hgoal ht htarget hsteady hn
    have hpos : (0 : ℚ) < (min c.rampStep c.maxStep : ℤ) := by
      exact_mod_cast lt_min hramp hmax
    have hle := (div_le_iff₀ hpos).mp (Nat.ceil_le.mp hceil)
    rw [nsmul_eq_mul]
    exact_mod_cast hle

end Run

/-- TELEOP with the leader at 2048 and every goal 58 ticks below, and steps of 30 and 50. -/
def nearby : Ctx :=
  { Ctx.default Calibration.fullRange Calibration.fullRange with
    rampStep := 30 }

def below : ControlRun ℚ where
  st :=
    { startControl nearby 0 with
      goal := fun _ => 1990
      applied := .teleop
      torque := true
      rampMask := fun _ => true }
  log := []
  leaderSeen := true

def teleopInput : Input :=
  { quietInput with
    modeReq := Mode.teleop.word }

theorem goal_convergence_teleop :
    (after nearby below [teleopInput, teleopInput] 2).goal 0 = 2048 := by
  have hsource : ∃ bl, teleopInput.leaderRead = some bl ∧ leaderPosition (bl 0) = 2048 :=
    ⟨_, rfl, by decide⟩
  have hsteady : (controlThread nearby).Along
      (fun r inp => Steady nearby 0 2048 r.st inp) below [teleopInput, teleopInput] := by
    refine ⟨⟨by decide, by decide, by decide +kernel, Or.inr ⟨by decide, hsource⟩⟩,
      ⟨by decide +kernel, by decide +kernel, by decide +kernel, ?_⟩, trivial⟩
    exact Or.inr ⟨by decide +kernel, hsource⟩
  have hfar : |2048 - below.st.goal 0| = 58 := by decide
  have hslow : min nearby.rampStep nearby.maxStep = 30 := by decide
  obtain ⟨_, _, hgoal⟩ := goal_convergence (c := nearby) (j := 0) (t := 2048) (by decide)
    (by decide) ⟨by decide, by decide⟩ ⟨by decide, by decide⟩ (by decide +kernel) hsteady
  apply hgoal 2 le_rfl
  rw [hfar, hslow, Nat.ceil_le]
  norm_num

end GoalConvergence
