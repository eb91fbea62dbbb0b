import So101.WriteDiscipline

/-!
# Writes that do not arrive

The error codes of the writes decide what the servos hold; the thread does not look at
them. For the torque flag and for the goal at enabling, the runs in which the servos are
as the thread believes are exactly those in which certain writes arrive.
-/
namespace Transmissions

open GuardedMachine ServoBus ControlThread ControlCycle WriteDiscipline
open Calibration (Joint CFloat)
open SharedMemory (Ctx Mode)

variable {F : Type*} [CFloat F] {c : Ctx} {inp : Input} {st : Control F}

/-- The last torque-enable write to reach the follower left some servo enabled. -/
def Engaged (log : List BusOp) : Prop :=
  ∃ w, lastDelivered SyncWrite.IsTorque log = some w ∧ w.Enables

/-- The published sample reports torque off only over released servos. -/
def ReportedOffIsReal (r : ControlRun F) : Prop :=
  r.st.s.torqueOn = false →
    ∀ w, lastDelivered SyncWrite.IsTorque r.log = some w → ∀ b ∈ w.data, b = 0#8

/-- Where servos are enabled, the cycle that drops the torque reaches them. -/
def ReleaseArrives (r : ControlRun F) (inp : Input) : Prop :=
  Engaged r.log →
    (FollowerReopens inp r.st → inp.sent .reopenOff = true) ∧
      (¬ FollowerReopens inp r.st → Blocked inp → inp.sent .torqueOff = true)

theorem not_engaged_iff {log : List BusOp} : ¬ Engaged log ↔
    ∀ w, lastDelivered SyncWrite.IsTorque log = some w → ∀ b ∈ w.data, b = 0#8 := by
  have htorque : ∀ w, lastDelivered SyncWrite.IsTorque log = some w → w.IsTorque := by
    intro w hw
    simpa using List.find?_some hw
  constructor
  · intro h w hw b hb
    by_contra hne
    exact h ⟨w, hw, htorque w hw, b, hb, hne⟩
  · rintro h ⟨w, hw, _, b, hb, hne⟩
    exact hne (h w hw b hb)

theorem last_torque_release (site : WriteSite) :
    lastDelivered SyncWrite.IsTorque [releaseOp c inp site] =
      if inp.sent site then some (setTorque (armIds c.calFollower) false) else none := by
  rw [last_delivered_singleton]
  cases h : inp.sent site <;> simp [releaseOp, Input.write, BusOp.delivered?, h, Option.filter]

theorem last_torque_cycle (log : List BusOp) {ops : List BusOp}
    (hops : (controlCycle c inp st).2 =
      (readLeader c inp (wakeUp inp st)).2 ++ ops ++ goalOps c inp st) :
    lastDelivered SyncWrite.IsTorque (log ++ (controlCycle c inp st).2) =
      (lastDelivered SyncWrite.IsTorque ops).or (lastDelivered SyncWrite.IsTorque log) := by
  have hgoal : lastDelivered SyncWrite.IsTorque (goalOps c inp st) = none := by
    unfold goalOps
    split
    · rw [last_delivered_singleton]
      cases h : inp.sent .goal <;> simp [Input.write, BusOp.delivered?, h, Option.filter]
    · rfl
  rw [hops, last_delivered_append, last_delivered_append, last_delivered_append, hgoal,
    last_delivered_leader _ (read_leader_bus c inp _)]
  simp

theorem last_torque_reopen (op : BusOp) :
    lastDelivered SyncWrite.IsTorque [.reopen .follower, op] =
      lastDelivered SyncWrite.IsTorque [op] := rfl

theorem engaged_release {log : List BusOp} (site : WriteSite) :
    (∃ w, (lastDelivered SyncWrite.IsTorque [releaseOp c inp site]).or
        (lastDelivered SyncWrite.IsTorque log) = some w ∧ w.Enables) ↔
      Engaged log ∧ inp.sent site = false := by
  rw [last_torque_release]
  cases h : inp.sent site <;> simp [Engaged]

/-- The flag of the thread and the last delivered torque write, between two cycles. -/
structure FlagReal (r : ControlRun F) : Prop where
  mode : TorqueInMode r.st
  released : r.st.torque = false → ¬ Engaged r.log

/-- A cycle that ends with torque off leaves enabled servos exactly if they were enabled
and its release is lost. -/
theorem engaged_next {r : ControlRun F} (h : FlagReal r)
    (hoff : (controlCycle c inp r.st).1.torque = false) :
    Engaged (nextCycle c r inp).log ↔ ¬ ReleaseArrives r inp := by
  obtain ⟨ops, hout, hops⟩ := cycle_outcome c inp h.mode
  have hlast := last_torque_cycle r.log hops
  simp only [Engaged, nextCycle, hlast]
  unfold ReleaseArrives
  rw [hoff] at hout
  cases hout with
  | reopened hr =>
    rw [last_torque_reopen, engaged_release]
    simp [hr]
  | released hr ht hb =>
    rw [engaged_release]
    simp [hr, hb]
  | limp hr ht hno =>
    have hfree := h.released ht
    simp only [last_delivered_nil, Option.none_or]
    exact iff_of_false hfree (fun hlost => hlost (fun he => absurd he hfree))

theorem torque_on_next (r : ControlRun F) :
    (nextCycle c r inp).st.s.torqueOn = (controlCycle c inp r.st).1.torque := by
  simp only [nextCycle, cycle_torque_on, cycle_torque]

theorem release_arrives_of_on {r : ControlRun F} (h : FlagReal r)
    (hon : (controlCycle c inp r.st).1.torque = true) : ReleaseArrives r inp := by
  obtain ⟨ops, hout, _⟩ := cycle_outcome c inp h.mode
  intro hengaged
  rw [hon] at hout
  cases hout with
  | kept hr _ hb => exact ⟨fun hr' => absurd hr' hr, fun _ hb' => absurd hb' hb⟩
  | enabled bf hen => exact absurd hengaged (h.released hen.off)

theorem reported_off_iff {r : ControlRun F} (h : FlagReal r) :
    ReportedOffIsReal (nextCycle c r inp) ↔ ReleaseArrives r inp := by
  unfold ReportedOffIsReal
  rw [← not_engaged_iff, torque_on_next]
  cases ht : (controlCycle c inp r.st).1.torque with
  | true => simpa using release_arrives_of_on h ht
  | false => simp [engaged_next h ht]

theorem flag_real_next {r : ControlRun F} (h : FlagReal r) (harrives : ReleaseArrives r inp) :
    FlagReal (nextCycle c r inp) := by
  constructor
  · exact torque_in_mode_next h.mode
  · intro hoff hengaged
    exact (engaged_next h hoff).mp hengaged harrives

/-- The flag never reports enabled servos as off in exactly the runs in which the release
of every cycle that needs one arrives. -/
theorem reported_torque_off (c : Ctx) (now : ℤ) (sentFollower sentLeader : Bool)
    (inps : List Input) :
    (controlThread c).Along (fun r inp => ReportedOffIsReal (nextCycle c r inp))
        (startUp c now sentFollower sentLeader : ControlRun F) inps ↔
      (controlThread c).Along ReleaseArrives
        (startUp c now sentFollower sentLeader : ControlRun F) inps := by
  have hstart : FlagReal (startUp c now sentFollower sentLeader : ControlRun F) := by
    refine ⟨fun ht => (by cases ht), fun _ => ?_⟩
    rintro ⟨w, hw, hen⟩
    have hmem : w ∈ delivered (startUp c now sentFollower sentLeader : ControlRun F).log :=
      List.mem_reverse.mp (List.mem_of_find?_eq_some hw)
    obtain ⟨op, hop, hsent⟩ := List.mem_filterMap.mp hmem
    rcases List.mem_pair.mp hop with rfl | rfl
    · cases sentFollower with
      | false => cases hsent
      | true =>
        obtain rfl := Option.some.inj hsent
        simp at hen
    · cases hsent
  have hiff : ∀ (r : ControlRun F) inp, FlagReal r → (controlThread c).enabled r inp →
      (ReportedOffIsReal (nextCycle c r inp) ↔ ReleaseArrives r inp) :=
    fun _ _ h _ => reported_off_iff h
  have hnext : ∀ (r : ControlRun F) inp, FlagReal r → (controlThread c).enabled r inp →
      ReleaseArrives r inp → FlagReal ((controlThread c).next r inp) :=
    fun _ _ h _ harrives => flag_real_next h harrives
  exact along_iff hiff hnext hstart (free_valid _ _ _)

/-- HOLD is entered, and the torque-off of the IDLE that follows is lost. -/
def lostRelease : List Input :=
  [{ quietInput with modeReq := Mode.hold.word },
    { quietInput with modeReq := Mode.idle.word, sent := fun site => decide (site ≠ .torqueOff) }]

theorem reported_torque_off_lost :
    let c := Ctx.default Calibration.fullRange Calibration.fullRange
    ¬ (controlThread c).Along (fun r inp => ReportedOffIsReal (nextCycle c r inp))
      (startUp c 0 true true : ControlRun ℚ) lostRelease := by
  intro c hall
  have hreal := hall.2.1 rfl
  have hlast : lastDelivered SyncWrite.IsTorque ((controlThread c).run
      (startUp c 0 true true : ControlRun ℚ) lostRelease).log =
        some (setTorque (armIds c.calFollower) true) := rfl
  exact absurd (hreal _ hlast 1 (by decide)) (by decide)

/-- A torque-enable that arrives finds, as the last goal to arrive, one of its own cycle,
and it is the position read in that cycle. -/
def EnablesWhereItStands (c : Ctx) (r : ControlRun F) (inp : Input) : Prop :=
  ∀ pre w post, (controlCycle c inp r.st).2 = pre ++ .write .follower w true :: post →
    w.Enables → ∃ g, lastDelivered SyncWrite.IsGoal pre = some g ∧
      ∀ j, g.SendsTo j ((controlCycle c inp r.st).1.s.followerPos j)

/-- Where torque goes on and the enable arrives, the goal before it has arrived. -/
def EnableGoalArrives (r : ControlRun F) (inp : Input) : Prop :=
  (∃ bf, Enabling inp r.st bf) → inp.sent .enable = true → inp.sent .enableGoal = true

theorem last_goal_enable (pos : Joint → ℤ) :
    lastDelivered SyncWrite.IsGoal
        ((readLeader c inp (wakeUp inp st)).2 ++ [enableGoalOp c inp pos]) =
      if inp.sent .enableGoal then some (writeGoal (armIds c.calFollower) pos) else none := by
  rw [last_delivered_append, last_delivered_leader _ (read_leader_bus c inp _),
    last_delivered_singleton]
  cases h : inp.sent .enableGoal <;>
    simp [enableGoalOp, Input.write, BusOp.delivered?, h, Option.filter]

theorem enabling_ops (h : TorqueInMode st) {bf : Joint → Fin 8 → Byte}
    (hen : Enabling inp st bf) : (controlCycle c inp st).2 =
      ((readLeader c inp (wakeUp inp st)).2 ++ [enableGoalOp c inp (positionsRead bf)]) ++
        enableOp c inp :: goalOps c inp st := by
  obtain ⟨ops, hout, hops⟩ := cycle_outcome c inp h
  generalize (controlCycle c inp st).1.torque = torque at hout
  cases hout with
  | reopened hr =>
    have hread := hen.read
    simp [reopens_read_failed hr] at hread
  | released _ ht _ => simp [hen.off] at ht
  | kept _ ht _ => simp [hen.off] at ht
  | limp _ _ hno => exact absurd hen (hno bf)
  | enabled bf' hen' =>
    obtain rfl := Option.some.inj (hen.read.symm.trans hen'.read)
    rw [hops]
    simp

theorem enables_where_it_stands_iff {r : ControlRun F} (h : TorqueInMode r.st) :
    EnablesWhereItStands c r inp ↔ EnableGoalArrives r inp := by
  constructor
  · rintro hall ⟨bf, hen⟩ hsent
    have hops := enabling_ops (c := c) h hen
    simp only [enableOp, Input.write, hsent] at hops
    obtain ⟨g, hg, _⟩ := hall _ _ _ hops (by simp)
    rw [last_goal_enable] at hg
    by_contra hlost
    simp [hlost] at hg
  · intro harrives pre w post hops hw
    obtain ⟨bf, hen, hpre, hop⟩ := enable_split h hops hw
    simp only [enableOp, Input.write, BusOp.write.injEq, true_and] at hop
    have hgoal := harrives ⟨bf, hen⟩ hop.2.symm
    refine ⟨writeGoal (armIds c.calFollower) (positionsRead bf), ?_, fun j => ?_⟩
    · rw [hpre, last_goal_enable, hgoal]
      rfl
    · rw [cycle_follower_pos c inp r.st hen.read]
      exact sends_write_goal _ _ (abs_positions_read bf j)

/-- Torque is enabled over the positions read in exactly the runs in which no enabling
cycle loses its goal write and not the enable. -/
theorem torque_enabled_in_place (c : Ctx) (now : ℤ) (sentFollower sentLeader : Bool)
    (inps : List Input) :
    (controlThread c).Along (EnablesWhereItStands c)
        (startUp c now sentFollower sentLeader : ControlRun F) inps ↔
      (controlThread c).Along EnableGoalArrives
        (startUp c now sentFollower sentLeader : ControlRun F) inps := by
  have hstart : TorqueInMode (startUp c now sentFollower sentLeader : ControlRun F).st :=
    fun ht => by cases ht
  have hiff : ∀ (r : ControlRun F) inp, TorqueInMode r.st → (controlThread c).enabled r inp →
      (EnablesWhereItStands c r inp ↔ EnableGoalArrives r inp) :=
    fun _ _ h _ => enables_where_it_stands_iff h
  have hnext : ∀ (r : ControlRun F) inp, TorqueInMode r.st → (controlThread c).enabled r inp →
      EnableGoalArrives r inp → TorqueInMode ((controlThread c).next r inp).st :=
    fun _ _ h _ _ => torque_in_mode_next h
  exact along_iff (I := fun r => TorqueInMode r.st) hiff hnext hstart (free_valid _ _ _)

/-- The goal write of the first enabling cycle is lost and the enable arrives. -/
def lostGoal : Input :=
  { quietInput with
    modeReq := Mode.hold.word
    sent := fun site => decide (site ≠ .enableGoal) }

theorem torque_enabled_elsewhere :
    let c := Ctx.default Calibration.fullRange Calibration.fullRange
    ¬ (controlThread c).Along (EnablesWhereItStands c) (startUp c 0 true true : ControlRun ℚ)
      [lostGoal] := by
  intro c hall
  have hops : (controlCycle c lostGoal (startControl c 0 : Control ℚ)).2 =
      [.write .follower (writeGoal (armIds c.calFollower) (fun _ => 2048)) false] ++
        .write .follower (setTorque (armIds c.calFollower) true) true ::
        [.write .follower (writeGoal (armIds c.calFollower) (fun _ => 2048)) true] := by
    decide
  obtain ⟨g, hg, _⟩ := hall.1 _ _ _ hops (by decide)
  cases hg

end Transmissions
