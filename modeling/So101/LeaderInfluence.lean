import So101.ControlCycle

/-!
# What the leader can influence

Two runs that meet the same follower and the same requests, and in TELEOP the same leader,
do the same to the follower. Everything else they meet may differ.
-/
namespace LeaderInfluence

open GuardedMachine ServoBus ControlThread ControlCycle
open Calibration (Joint CFloat)
open SharedMemory (Sample Ctx Mode)

variable {F : Type*}

/-- The two threads agree on all that decides what they do to the follower. -/
structure Agree (st st' : Control F) : Prop where
  applied : st.applied = st'.applied
  goal : st.goal = st'.goal
  hold : st.hold = st'.hold
  rampMask : st.rampMask = st'.rampMask
  torque : st.torque = st'.torque
  retryF : st.retryF = st'.retryF
  cycle : st.s.cycle = st'.s.cycle
  followerOk : st.s.followerOk = st'.s.followerOk
  followerPos : st.s.followerPos = st'.s.followerPos
  followerStreak : st.s.followerStreak = st'.s.followerStreak

/-- Two cycles meet the same follower and the same request, and every write to the follower
fares the same. -/
structure SameFollower (inp inp' : Input) : Prop where
  modeReq : inp.modeReq = inp'.modeReq
  followerRead : inp.followerRead = inp'.followerRead
  sent : ∀ site, site ≠ .leaderOff → inp.sent site = inp'.sent site

def followerOps (ops : List BusOp) : List BusOp := ops.filter fun op => op.bus = .follower

@[simp] theorem follower_ops_append (ops more : List BusOp) :
    followerOps (ops ++ more) = followerOps ops ++ followerOps more :=
  List.filter_append ..

theorem write_same {inp inp' : Input} (h : SameFollower inp inp') {site : WriteSite}
    (hsite : site ≠ .leaderOff) (bus : Bus) (w : SyncWrite) :
    inp.write site bus w = inp'.write site bus w := by
  rw [Input.write, Input.write, h.sent site hsite]

theorem Agree.symm {st st' : Control F} (h : Agree st st') : Agree st' st where
  applied := h.applied.symm
  goal := h.goal.symm
  hold := h.hold.symm
  rampMask := h.rampMask.symm
  torque := h.torque.symm
  retryF := h.retryF.symm
  cycle := h.cycle.symm
  followerOk := h.followerOk.symm
  followerPos := h.followerPos.symm
  followerStreak := h.followerStreak.symm

theorem Agree.trans {st₁ st₂ st₃ : Control F} (h : Agree st₁ st₂) (k : Agree st₂ st₃) :
    Agree st₁ st₃ where
  applied := h.applied.trans k.applied
  goal := h.goal.trans k.goal
  hold := h.hold.trans k.hold
  rampMask := h.rampMask.trans k.rampMask
  torque := h.torque.trans k.torque
  retryF := h.retryF.trans k.retryF
  cycle := h.cycle.trans k.cycle
  followerOk := h.followerOk.trans k.followerOk
  followerPos := h.followerPos.trans k.followerPos
  followerStreak := h.followerStreak.trans k.followerStreak

def counted (st : Control F) : Control F :=
  { st with s := { st.s with cycle := st.s.cycle + 1 } }

theorem Agree.counted {st st' : Control F} (h : Agree st st') : Agree (counted st) (counted st') :=
  { h with cycle := congrArg (· + 1) h.cycle }

section Sections

variable [CFloat F] {c : Ctx} {inp inp' : Input} {st st' : Control F}

theorem leader_sample_follower (s : Sample F) :
    (leaderSample c inp s).followerOk = s.followerOk ∧
      (leaderSample c inp s).followerPos = s.followerPos := by
  cases h : inp.leaderRead <;> simp [leaderSample, h]

theorem read_leader_agrees : Agree (counted st) (readLeader c inp (wakeUp inp st)).1 := by
  have hframe := read_leader_frame c inp (wakeUp inp st)
  have hs := read_leader_sample c inp (wakeUp inp st)
  obtain ⟨_, hstreak, hcycle⟩ := leader_sample_fields c inp (wakeUp inp st).s
  obtain ⟨hok, hpos⟩ := @leader_sample_follower F _ c inp (wakeUp inp st).s
  rw [← hs] at hstreak hcycle hok hpos
  exact ⟨hframe.applied.symm, hframe.goal.symm, hframe.hold.symm, hframe.rampMask.symm,
    hframe.torque.symm, hframe.retryF.symm, hcycle.symm, hok.symm, hpos.symm, hstreak.symm⟩

theorem follower_sample_position (s : Sample F) :
    (followerSample c inp s).followerPos =
      (inp.followerRead.map positionsRead).getD s.followerPos := by
  cases h : inp.followerRead with
  | none => simp [followerSample, h]
  | some bf => exact follower_sample_pos c inp s h

theorem Agree.readFollower (h : Agree st st') (hin : SameFollower inp inp') :
    Agree (readFollower c inp st).1 (readFollower c inp' st').1 ∧
      (readFollower c inp st).2 = (readFollower c inp' st').2 := by
  obtain ⟨hok, hstreak, hcycle, _⟩ := follower_sample_fields c inp st.s
  obtain ⟨hok', hstreak', hcycle', _⟩ := follower_sample_fields c inp' st'.s
  have hpos := @follower_sample_position F _ c inp st.s
  have hpos' := @follower_sample_position F _ c inp' st'.s
  rw [← hin.followerRead, ← h.followerStreak] at hstreak'
  rw [← hin.followerRead, ← h.followerPos] at hpos'
  rw [← hin.followerRead] at hok'
  have hstreaks := hstreak.trans hstreak'.symm
  have hcycles := hcycle.trans (h.cycle.trans hcycle'.symm)
  have hoff := @write_same inp inp' hin .reopenOff (by decide) .follower
    (setTorque (armIds c.calFollower) false)
  simp only [ControlThread.readFollower, ← hstreaks, ← hcycles, ← h.retryF, hoff]
  by_cases hreopen : (followerSample c inp st.s).followerStreak ≥ reopenAfter ∧
      (followerSample c inp st.s).cycle ≥ st.retryF
  · rw [if_pos hreopen, if_pos hreopen]
    exact ⟨⟨h.applied, h.goal, h.hold, h.rampMask, rfl, rfl, hcycles, hok.trans hok'.symm,
      hpos.trans hpos'.symm, hstreaks⟩, rfl⟩
  · rw [if_neg hreopen, if_neg hreopen]
    exact ⟨⟨h.applied, h.goal, h.hold, h.rampMask, h.torque, rfl, hcycles,
      hok.trans hok'.symm, hpos.trans hpos'.symm, hstreaks⟩, rfl⟩

theorem follower_ops_leader {ops : List BusOp} (h : ∀ op ∈ ops, op.bus = .leader) :
    followerOps ops = [] := by
  apply List.filter_eq_nil_iff.mpr
  intro op hop
  rw [h op hop]
  decide

theorem Agree.readBuses (h : Agree st st') (hin : SameFollower inp inp') :
    Agree (readBuses c inp st).1 (readBuses c inp' st').1 ∧
      followerOps (readBuses c inp st).2 = followerOps (readBuses c inp' st').2 := by
  have hleader : Agree (readLeader c inp (wakeUp inp st)).1
      (readLeader c inp' (wakeUp inp' st')).1 :=
    read_leader_agrees.symm.trans (h.counted.trans read_leader_agrees)
  obtain ⟨hst, hops⟩ := hleader.readFollower (c := c) hin
  refine ⟨hst, ?_⟩
  simp only [ControlThread.readBuses, follower_ops_append,
    follower_ops_leader (read_leader_bus c _ _), hops]

omit [CFloat F] in
theorem enter_mode_retry (req : Mode) : (enterMode req st).retryF = st.retryF := by
  simp only [enterMode]
  split_ifs <;> rfl

omit [CFloat F] in
theorem Agree.enterMode (h : Agree st st') (req : Mode) :
    Agree (enterMode req st) (enterMode req st') where
  applied := rfl
  goal := by rw [enter_mode_goal, enter_mode_goal, h.goal]
  hold := by
    rw [enter_mode_hold, enter_mode_hold, h.torque, h.followerOk, h.followerPos, h.goal, h.hold]
  rampMask := by rw [enter_mode_mask, enter_mode_mask, h.applied, h.torque, h.rampMask]
  torque := by rw [enter_mode_torque, enter_mode_torque, h.torque]
  retryF := by rw [enter_mode_retry, enter_mode_retry, h.retryF]
  cycle := by rw [enter_mode_sample, enter_mode_sample, h.cycle]
  followerOk := by rw [enter_mode_sample, enter_mode_sample, h.followerOk]
  followerPos := by rw [enter_mode_sample, enter_mode_sample, h.followerPos]
  followerStreak := by rw [enter_mode_sample, enter_mode_sample, h.followerStreak]

omit [CFloat F] in
theorem Agree.enableTorque (h : Agree st st') (hin : SameFollower inp inp') :
    Agree (enableTorque c inp st).1 (enableTorque c inp' st').1 ∧
      (enableTorque c inp st).2 = (enableTorque c inp' st').2 := by
  have hgoal := @write_same inp inp' hin .enableGoal (by decide) .follower
  have hon := @write_same inp inp' hin .enable (by decide) .follower
  constructor
  · exact { h with goal := h.followerPos, torque := rfl }
  · simp only [ControlThread.enableTorque, h.followerPos, hgoal, hon]

omit [CFloat F] in
theorem Agree.modeTransition (h : Agree st st') (hin : SameFollower inp inp') :
    Agree (modeTransition c inp st).1 (modeTransition c inp' st').1 ∧
      (modeTransition c inp st).2 = (modeTransition c inp' st').2 := by
  obtain ⟨henable, hops⟩ := h.enableTorque (c := c) hin
  have hoff := @write_same inp inp' hin .torqueOff (by decide) .follower
    (setTorque (armIds c.calFollower) false)
  have hlimp : Agree { st with torque := false } { st' with torque := false } :=
    { h with torque := rfl }
  have hreqs : loadedMode inp'.modeReq = loadedMode inp.modeReq := by rw [hin.modeReq]
  rw [ControlThread.modeTransition, ControlThread.modeTransition, hreqs]
  generalize loadedMode inp.modeReq = req
  dsimp only
  rw [← h.torque, ← h.followerOk, ← hoff]
  have hrefused := h.enterMode st.applied
  have happlied : req = st'.applied ↔ req = st.applied := by rw [h.applied]
  by_cases hsame : req = st.applied
  · rw [if_pos hsame, if_pos (happlied.mpr hsame)]
    exact ⟨h, rfl⟩
  rw [if_neg hsame, if_neg (mt happlied.mp hsame)]
  by_cases hreq : req = .teleop ∨ req = .hold
  · rw [if_pos hreq, if_pos hreq]
    cases st.torque with
    | true => exact ⟨h.enterMode req, rfl⟩
    | false =>
      cases st.s.followerOk with
      | true => exact ⟨henable.enterMode req, hops⟩
      | false =>
        rw [← h.applied]
        exact ⟨hrefused, rfl⟩
  · rw [if_neg hreq, if_neg hreq]
    cases st.torque with
    | true => exact ⟨hlimp.enterMode req, rfl⟩
    | false => exact ⟨h.enterMode req, rfl⟩

/-- The leader counts for the goal in TELEOP only, and only when it has just been read. -/
structure SameLeader (st st' : Control F) : Prop where
  leaderOk : st.s.leaderOk = st'.s.leaderOk
  leaderNorm : st.s.leaderOk = true → st.s.leaderNorm = st'.s.leaderNorm

theorem target_agrees (h : Agree st st') (hl : st.applied = .teleop → SameLeader st st') :
    target c st = target c st' := by
  funext j
  by_cases hteleop : st.applied = .teleop
  · have hsame := hl hteleop
    cases hok : st.s.leaderOk with
    | true =>
      have hok' := hsame.leaderOk.symm.trans hok
      simp [target, ← h.applied, hteleop, hok, hok', hsame.leaderNorm hok]
    | false =>
      have hok' := hsame.leaderOk.symm.trans hok
      simp [target, ← h.applied, hteleop, hok, hok', h.goal]
  · simp [target, ← h.applied, hteleop, h.hold, h.goal]

theorem Agree.moveGoal (h : Agree st st') (hin : SameFollower inp inp')
    (hl : st.applied = .teleop → SameLeader st st') :
    Agree (moveGoal c inp st).1 (moveGoal c inp' st').1 ∧
      (moveGoal c inp st).2 = (moveGoal c inp' st').2 := by
  have htarget := target_agrees (c := c) h hl
  have hramp : stillRamping c st = stillRamping c st' := by
    funext j
    rw [stillRamping, stillRamping, h.rampMask, htarget, h.goal]
  have hstep : steppedGoal c st = steppedGoal c st' := by
    funext j
    simp only [steppedGoal, hramp, htarget, h.goal]
  have hwrite := @write_same inp inp' hin .goal (by decide) .follower
    (writeGoal (armIds c.calFollower) (steppedGoal c st'))
  simp only [ControlThread.moveGoal, hstep, hramp, hwrite]
  have htorque : st'.torque = true ↔ st.torque = true := by rw [h.torque]
  have hok : st'.s.followerOk = true ↔ st.s.followerOk = true := by rw [h.followerOk]
  by_cases ht : st.torque = true
  · rw [if_pos ht, if_pos (htorque.mpr ht)]
    exact ⟨{ h with goal := rfl, rampMask := rfl }, rfl⟩
  rw [if_neg ht, if_neg (mt htorque.mp ht)]
  by_cases ho : st.s.followerOk = true
  · rw [if_pos ho, if_pos (hok.mpr ho)]
    exact ⟨{ h with goal := h.followerPos }, rfl⟩
  · rw [if_neg ho, if_neg (mt hok.mp ho)]
    exact ⟨h, rfl⟩

omit [CFloat F] in
theorem next_slot_agrees (st : Control F) : Agree st (nextSlot c inp st) := by
  simp only [nextSlot]
  split_ifs <;> exact ⟨rfl, rfl, rfl, rfl, rfl, rfl, rfl, rfl, rfl, rfl⟩

omit [CFloat F] in
theorem Agree.publish (h : Agree st st') : Agree (publish inp st) (publish inp' st') := by
  refine { h with rampMask := ?_ }
  change (if st.torque then st.rampMask else _) = if st'.torque then st'.rampMask else _
  rw [h.torque, h.rampMask]

omit [CFloat F] in
theorem Agree.endCycle (h : Agree st st') :
    Agree (nextSlot c inp (ControlThread.publish inp st))
      (nextSlot c inp' (ControlThread.publish inp' st')) :=
  (next_slot_agrees _).symm.trans (h.publish.trans (next_slot_agrees _))

end Sections

section Cycle

variable [CFloat F] {c : Ctx}

theorem entered_leader (inp : Input) (st : Control F) :
    (entered c inp st).s.leaderOk = inp.leaderRead.isSome ∧
      (entered c inp st).s.leaderNorm = leaderNormAfter c inp st := by
  have hreads := after_reads c inp st
  rw [entered, mode_transition_sample]
  exact ⟨hreads.leader_ok, hreads.leader_norm⟩

/-- A leader that has just been read hides all that was read of it before. -/
theorem same_leader {inp inp' : Input} (h : inp.leaderRead = inp'.leaderRead)
    (st st' : Control F) : SameLeader (entered c inp st) (entered c inp' st') := by
  obtain ⟨hok, hnorm⟩ := entered_leader (c := c) inp st
  obtain ⟨hok', hnorm'⟩ := entered_leader (c := c) inp' st'
  constructor
  · rw [hok, hok', h]
  · intro hread
    obtain ⟨bl, hbl⟩ := Option.isSome_iff_exists.mp (hok.symm.trans hread)
    rw [hnorm, hnorm', leaderNormAfter, leaderNormAfter, ← h, hbl]

def twoThreads (c : Ctx) : Machine (ControlRun F × ControlRun F) (Input × Input) :=
  (controlThread c).beside (controlThread c)

/-- The two runs take a cycle side by side: the leader may only differ where the cycle is
not executed in TELEOP. -/
structure Coupled (c : Ctx) (r : ControlRun F × ControlRun F) (inp : Input × Input) : Prop where
  follower : SameFollower inp.1 inp.2
  leader : (entered c inp.1 r.1.st).applied = .teleop → inp.1.leaderRead = inp.2.leaderRead

theorem Agree.controlCycle {st st' : Control F} {inp inp' : Input} (h : Agree st st')
    (hin : SameFollower inp inp')
    (hl : (entered c inp st).applied = .teleop → inp.leaderRead = inp'.leaderRead) :
    Agree (controlCycle c inp st).1 (controlCycle c inp' st').1 ∧
      followerOps (controlCycle c inp st).2 = followerOps (controlCycle c inp' st').2 := by
  obtain ⟨hreads, hopsRead⟩ := h.readBuses (c := c) hin
  obtain ⟨hmode, hopsMode⟩ := hreads.modeTransition (c := c) hin
  obtain ⟨hgoal, hopsGoal⟩ := hmode.moveGoal (c := c) hin
    (fun happ => same_leader (hl happ) st st')
  refine ⟨hgoal.endCycle, ?_⟩
  simp only [ControlThread.controlCycle, follower_ops_append, hopsRead, hopsMode, hopsGoal]

/-- What two runs that meet the same follower have in common. -/
def Twins (r : ControlRun F × ControlRun F) : Prop :=
  Agree r.1.st r.2.st ∧ followerOps r.1.log = followerOps r.2.log

theorem twins_step (r : ControlRun F × ControlRun F) (inp : Input × Input) (h : Twins r)
    (hc : Coupled c r inp) : Twins ((twoThreads c).next r inp) := by
  obtain ⟨hst, hlog⟩ := h
  obtain ⟨hst', hops⟩ := hst.controlCycle (c := c) hc.follower hc.leader
  refine ⟨hst', ?_⟩
  change followerOps (r.1.log ++ _) = followerOps (r.2.log ++ _)
  rw [follower_ops_append, follower_ops_append, hlog, hops]

theorem start_twins (c : Ctx) (now now' : ℤ) (sentF sentL sentL' : Bool) :
    Twins (startUp (F := F) c now sentF sentL, startUp c now' sentF sentL') :=
  ⟨⟨rfl, rfl, rfl, rfl, rfl, rfl, rfl, rfl, rfl, rfl⟩, rfl⟩

/-- The leader reaches the follower only through what is read of it in TELEOP. A run may
stop after any cycle, so the two agree at the end of every cycle. -/
theorem leader_influence (c : Ctx) (now now' : ℤ) (sentF sentL sentL' : Bool)
    (inps : List (Input × Input))
    (h : (twoThreads c).Along (Coupled c)
      (startUp (F := F) c now sentF sentL, startUp c now' sentF sentL') inps) :
    let r := (controlThread c).run (startUp (F := F) c now sentF sentL) (inps.map Prod.fst)
    let r' := (controlThread c).run (startUp (F := F) c now' sentF sentL') (inps.map Prod.snd)
    followerOps r.log = followerOps r'.log ∧ r.st.applied = r'.st.applied ∧
      r.st.torque = r'.st.torque ∧ r.st.goal = r'.st.goal ∧ r.st.hold = r'.st.hold ∧
      r.st.rampMask = r'.st.rampMask := by
  have hvalid : (twoThreads c).Valid
      (startUp (F := F) c now sentF sentL, startUp c now' sentF sentL') inps :=
    beside_valid (free_valid _ _ _) (free_valid _ _ _)
  obtain ⟨hst, hlog⟩ := invariant_along (fun r inp hr _ hc => twins_step r inp hr hc)
    (start_twins c now now' sentF sentL sentL') hvalid h
  rw [twoThreads, beside_run] at hst hlog
  exact ⟨hlog, hst.applied, hst.torque, hst.goal, hst.hold, hst.rampMask⟩

/-- The leaders stand at opposite ends while the follower idles; in TELEOP both are read at
the middle, then neither answers. -/
def leadersPart : List (Input × Input) :=
  [({ quietInput with leaderRead := some (fun _ => ![lowByte 100, highByte 100]) },
      { quietInput with leaderRead := some (fun _ => ![lowByte 4000, highByte 4000]) }),
    ({ quietInput with modeReq := Mode.teleop.word, leaderRead := none },
      { quietInput with modeReq := Mode.teleop.word, leaderRead := none }),
    ({ quietInput with modeReq := Mode.teleop.word },
      { quietInput with modeReq := Mode.teleop.word }),
    ({ quietInput with modeReq := Mode.hold.word, leaderRead := none },
      { quietInput with modeReq := Mode.hold.word })]

end Cycle

theorem leader_influence_parted :
    let c := Ctx.default Calibration.fullRange Calibration.fullRange
    let r := (controlThread c).run (startUp (F := ℚ) c 0 true true) (leadersPart.map Prod.fst)
    let r' := (controlThread c).run (startUp (F := ℚ) c 0 true true) (leadersPart.map Prod.snd)
    followerOps r.log = followerOps r'.log ∧ r.st.applied = r'.st.applied ∧
      r.st.torque = r'.st.torque ∧ r.st.goal = r'.st.goal ∧ r.st.hold = r'.st.hold ∧
      r.st.rampMask = r'.st.rampMask := by
  intro c
  have hsame : ∀ e ∈ leadersPart, SameFollower e.1 e.2 := by
    intro e he
    simp only [leadersPart, List.mem_cons, List.not_mem_nil, or_false] at he
    rcases he with rfl | rfl | rfl | rfl <;> exact ⟨rfl, rfl, fun _ _ => rfl⟩
  have hidle : (entered c leadersPart[0].1 (startControl c 0 : Control ℚ)).applied ≠ .teleop := by
    decide +kernel
  have hhold : (entered c leadersPart[3].1 ((controlThread c).run (startUp (F := ℚ) c 0 true true)
      (leadersPart.take 3 |>.map Prod.fst)).st).applied ≠ .teleop := by
    decide +kernel
  exact leader_influence c 0 0 true true true leadersPart
    ⟨⟨hsame _ (by simp [leadersPart]), fun h => absurd h hidle⟩,
      ⟨hsame _ (by simp [leadersPart]), fun _ => rfl⟩,
      ⟨hsame _ (by simp [leadersPart]), fun _ => rfl⟩,
      ⟨hsame _ (by simp [leadersPart]), fun h => absurd h hhold⟩, trivial⟩

end LeaderInfluence
