import So101.LoopRuns

/-!
# How the follower moves in the loop

Where the simulated servos are is what their position registers say. Between two cycles
they are at the thread's goal or limp where they were left, and HOLD keeps the goal at the
hold pose, so that only TELEOP moves the arm.
-/
namespace LoopMotion

open GuardedMachine ServoBus ControlThread ControlCycle SoftStart WriteDiscipline
open ServoTable ClosedLoop GoalLimit LoopRuns
open Calibration (Joint CFloat)
open FloatLaws (RoundedFloat)
open SharedMemory (Ctx Mode U32 int16_of_mem)

variable {F : Type*}

def place (v : Servos) : Joint → ℤ := positionsRead (answers 8 v)

theorem place_at_goal {v : Servos} {j : Joint} {g : ℤ} (hpresent : (v j).present = goalBytes g)
    (hg : |g| ≤ 32767) : place v j = g := by
  obtain ⟨hlo, hhi⟩ := abs_le.mp hg
  have hbytes : place v j =
      SharedMemory.int16 (ftsDecodeSm (le16 (lowByte (ftsEncodeSm g 15))
        (highByte (ftsEncodeSm g 15))) 15) := by
    simp [place, positionsRead, register, answers, Servo.answer, hpresent, goalBytes]
  rw [hbytes, le16_bytes, decode_encode hg]
  exact int16_of_mem (by omega) (by omega)

theorem place_drive_limp {st : Control F} (hoff : st.torque = false) (v : Servos) :
    place (drive st v) = place v := by
  funext j
  simp [place, positionsRead, register, answers, Servo.answer, drive, hoff]

def Holding (st : Control F) : Prop := st.torque = true → st.applied = .hold → st.goal = st.hold

section Cycle

variable [CFloat F] {c : Ctx} {i : Input} {st : Control F} {bf : Joint → Fin 8 → Byte}

omit [CFloat F] in
theorem goal_before_read (hread : i.followerRead = some bf)
    (hplaced : st.torque = true → st.goal = positionsRead bf) :
    goalBefore i st = positionsRead bf := by
  unfold goalBefore
  cases ht : st.torque with
  | true => exact hplaced ht
  | false => rw [hread]

theorem entered_hold (hread : i.followerRead = some bf) (hhold : Holding st)
    (hplaced : st.torque = true → st.goal = positionsRead bf)
    (hon : (entered c i st).torque = true) (happlied : (entered c i st).applied = .hold) :
    (entered c i st).hold = positionsRead bf := by
  have hreads := after_reads c i st
  have hpos : (loading c i st).s.followerPos = positionsRead bf := hreads.follower_pos bf hread
  have hok : (loading c i st).s.followerOk = true :=
    hreads.follower_ok.trans (Option.isSome_iff_exists.mpr ⟨bf, hread⟩)
  have htrans := mode_transition c i (loading c i st)
  unfold entered at hon happlied ⊢
  generalize modeTransition c i (loading c i st) = r at htrans hon happlied ⊢
  cases htrans with
  | same hsame =>
    have ht : st.torque = true := by
      have htorque := hreads.torque.symm.trans hon
      simp only [Bool.and_eq_true] at htorque
      exact htorque.1
    have hbefore : st.applied = .hold := hreads.applied.symm.trans happlied
    rw [show (loading c i st).hold = st.hold from hreads.hold, ← hhold ht hbefore]
    exact hplaced ht
  | kept _ _ ht =>
    have hreq : loadedMode i.modeReq = .hold := happlied
    rw [enter_mode_hold, if_pos ⟨hreq, ht⟩, if_pos hok, hpos]
  | enabled _ _ _ _ =>
    have hreq : loadedMode i.modeReq = .hold := happlied
    rw [enter_mode_hold, if_pos ⟨hreq, rfl⟩]
    simp [enableTorque, hok, hpos]
  | refused _ _ hoff _ => simp [hoff] at hon
  | released _ _ _ => simp at hon
  | limp _ _ hoff => simp [hoff] at hon

structure GoalStep (c : Ctx) (i : Input) (st : Control F) (bf : Joint → Fin 8 → Byte)
    (j : Joint) : Prop where
  between : (controlCycle c i st).1.goal j ∈
    Set.uIcc (positionsRead bf j) (target c (entered c i st) j)
  limit : |(controlCycle c i st).1.goal j - positionsRead bf j| ≤
    stepLimit c ((controlCycle c i st).1.rampMask j)
  hold : (controlCycle c i st).1.applied = .hold →
    (controlCycle c i st).1.goal j = positionsRead bf j ∧
      (controlCycle c i st).1.hold j = positionsRead bf j

theorem goal_step (hmax : 0 < c.maxStep) (hramp : 0 < c.rampStep)
    (hmap : MapsInto F c (-32767) 32767) (hin : Within (-32767) 32767 st)
    (hread : i.followerRead = some bf) (hhold : Holding st)
    (hplaced : st.torque = true → st.goal = positionsRead bf)
    (hend : (controlCycle c i st).1.torque = true) (j : Joint) : GoalStep c i st bf j := by
  have hstep := limited_goal hmax hramp hmap hin hend j
  have hbetween := hstep.between
  have hlimit := hstep.limit
  rw [goal_before_read hread hplaced] at hbetween hlimit
  refine ⟨hbetween, hlimit, fun happlied => ?_⟩
  have happlied' : (entered c i st).applied = .hold := (cycle_applied c i st).symm.trans happlied
  have hpose := entered_hold hread hhold hplaced ((cycle_torque c i st).symm.trans hend) happlied'
  have htarget : target c (entered c i st) j = positionsRead bf j := by
    simp [target, happlied', hpose]
  rw [htarget, Set.uIcc_self] at hbetween
  exact ⟨hbetween, by rw [cycle_hold, hpose]⟩

structure Motion (modeReq : U32) (limit was aims now : ℤ) : Prop where
  still : modeReq ≠ Mode.teleop.word → now = was
  between : now ∈ Set.uIcc was aims
  limited : |now - was| ≤ limit

theorem cycle_motion (hmax : 0 < c.maxStep) (hramp : 0 < c.rampStep)
    (hmap : MapsInto F c (-32767) 32767) (hin : Within (-32767) 32767 st)
    {bl : Joint → Fin 2 → Byte} (hleader : i.leaderRead = some bl)
    (hread : i.followerRead = some bf) (hgripped : Gripped st) (hhold : Holding st)
    (hplaced : st.torque = true → st.goal = positionsRead bf) (j : Joint) :
    Motion i.modeReq (stepLimit c ((controlCycle c i st).1.rampMask j)) (positionsRead bf j)
      (aim F c j (leaderPosition (bl j)))
      (if (controlCycle c i st).1.torque then (controlCycle c i st).1.goal j
        else positionsRead bf j) := by
  obtain ⟨hgripped', happlied⟩ := gripped_next (c := c) (i := i) hgripped (by simp [hread])
  cases hon : (controlCycle c i st).1.torque with
  | false =>
    refine ⟨fun _ => rfl, Set.left_mem_uIcc, ?_⟩
    rw [if_neg Bool.false_ne_true, sub_self, abs_zero]
    exact (step_limit_pos hmax hramp _).le
  | true =>
    rw [if_pos rfl]
    obtain ⟨hbetween, hlimit, hheld⟩ := goal_step hmax hramp hmap hin hread hhold hplaced hon j
    rcases hgripped'.mp hon with hteleop | hstays
    · have hentered : (entered c i st).applied = .teleop :=
        (cycle_applied c i st).symm.trans hteleop
      obtain ⟨hok, hnorm⟩ := entered_sample c i st
      have htarget : target c (entered c i st) j = aim F c j (leaderPosition (bl j)) := by
        simp [target, hentered, hok, hnorm, hleader, leaderNormAfter, aim]
      rw [htarget] at hbetween
      exact ⟨fun hmode => absurd (loaded_teleop_iff.mp (happlied.symm.trans hteleop)) hmode,
        hbetween, hlimit⟩
    · have hsame := (hheld hstays).1
      refine ⟨fun _ => hsame, ?_, hlimit⟩
      rw [hsame]
      exact Set.left_mem_uIcc

end Cycle

section Runs

variable [CFloat F] {c : Ctx}

def Steady (c : Ctx) (s : Loop F) : Prop :=
  ∃ t, Coupled c s t ∧ Within (-32767) 32767 s.arms.st ∧ Holding s.arms.st

omit [CFloat F] in
theorem coupled_placed {s : Loop F} {t : Ideal F} (h : Coupled c s t)
    (hin : Within (-32767) 32767 s.arms.st) (hon : s.arms.st.torque = true) :
    s.arms.st.goal = place t.servos := by
  funext j
  exact (place_at_goal (h.aimed hon j).2 (abs_le.mpr (hin.goal j))).symm

def Moves (c : Ctx) (s : Loop F) (e : LoopInput) : Prop :=
  ∃ l v w, Serves (moved s e .leader) (armIds c.calLeader) l ∧
    Serves (s.sims .follower) (armIds c.calFollower) v ∧
    Serves (((loop c).next s e).sims .follower) (armIds c.calFollower) w ∧
    ∀ j, Motion e.inp.modeReq (stepLimit c (((loop c).next s e).arms.st.rampMask j)) (place v j)
      (aim F c j (leaderPosition (answers 2 l j))) (place w j)

theorem steady_step (hinj : ∀ bus, Function.Injective (armOf c bus)) (hmax : 0 < c.maxStep)
    (hramp : 0 < c.rampStep) (hmap : MapsInto F c (-32767) 32767) {s : Loop F} {e : LoopInput}
    (h : Steady c s) (he : (loop c).enabled s e) :
    Steady c ((loop c).next s e) ∧ Moves c s e := by
  obtain ⟨t, hcoupled, hin, hhold⟩ := h
  obtain ⟨i, ⟨_, hread, _⟩, ⟨hmeets, _, l, hl, _, hleader⟩, hnext⟩ :=
    loop_step hinj hcoupled he
  have hst : (controlCycle c i s.arms.st).1 = ((loop c).next s e).arms.st :=
    (congrArg (fun st => (controlCycle c i st).1) hcoupled.shows.st.symm).trans hnext.shows.st
  have hreq : i.modeReq = e.inp.modeReq := by
    obtain ⟨_, rfl⟩ := hmeets
    rfl
  have hplaced := coupled_placed hcoupled hin
  have hin' : Within (-32767) 32767 ((loop c).next s e).arms.st := by
    rw [← hst]
    exact within_next i hmax hramp hmap holds16_positions hin
  refine ⟨⟨_, hnext, hin', fun hon happlied => ?_⟩, l, t.servos, _, hl, hcoupled.follower,
    hnext.follower, fun j => ?_⟩
  · rw [← hst] at hon happlied ⊢
    funext j
    obtain ⟨hgoal, hpose⟩ :=
      (goal_step hmax hramp hmap hin hread hhold hplaced hon j).hold happlied
    exact hgoal.trans hpose.symm
  · have hmotion := cycle_motion hmax hramp hmap hin hleader hread hcoupled.gripped hhold
      hplaced j
    have hnow : place ((ideal c).next t i).servos j =
        if ((loop c).next s e).arms.st.torque then ((loop c).next s e).arms.st.goal j
        else place t.servos j := by
      split_ifs with hon
      · exact (congrFun (coupled_placed hnext hin' hon) j).symm
      · have hdrive : ((ideal c).next t i).servos = drive ((loop c).next s e).arms.st t.servos :=
          congrArg (fun st => drive st t.servos) hnext.shows.st
        rw [hdrive, place_drive_limp (Bool.eq_false_of_not_eq_true hon)]
    rw [hnow, ← hst, ← hreq]
    exact hmotion

end Runs

/-- In every cycle of every run from start-up, the cycles that switch torque on included,
each joint of the follower moves by one step at most, not past the place that the leader
gives it, and only where TELEOP is asked for. -/
theorem loop_moves [RoundedFloat F] {c : Ctx} (hinj : ∀ bus, Function.Injective (armOf c bus))
    (hmax : 0 < c.maxStep) (hramp : 0 < c.rampStep) (hleader : ∀ j, InTicks (c.calLeader j))
    (hfollower : ∀ j, InTicks (c.calFollower j)) {b : Boot} (h : Starts c b)
    {es : List LoopInput} (hv : (loop c).Valid (startLoop c b : Loop F) es) :
    (loop c).Along (Moves c) (startLoop c b : Loop F) es := by
  have hmap := ticks_map_into F hleader hfollower
  obtain ⟨t, ht, _⟩ := start_coupled (F := F) hinj h
  have hstart : Steady c (startLoop c b : Loop F) :=
    ⟨t, ht, start_within (F := F) c b.now true true holds16_positions, fun hon => by cases hon⟩
  have hstep : ∀ (s : Loop F) e, Steady c s → (loop c).enabled s e → True →
      Steady c ((loop c).next s e) := fun _ _ hs he _ => (steady_step hinj hmax hramp hmap hs he).1
  refine (along_of_invariant hstep hstart hv (along_of_forall (fun _ _ _ => trivial))).imp ?_
  rintro s e ⟨hs, he, _⟩
  exact (steady_step hinj hmax hramp hmap hs he).2

/-- Four cycles in TELEOP on the bench. -/
theorem loop_moves_bench : ∃ es, es.length = 4 ∧
    (loop bench).Along (Moves bench) (startLoop bench benchBoot : Loop ℚ) es := by
  obtain ⟨es, hlen, hv, _⟩ := bench_run Mode.teleop.word 4
  exact ⟨es, hlen, loop_moves bench_injective (by decide) (by decide) bench_ticks bench_ticks
    bench_starts hv⟩

end LoopMotion
