import So101.ControlCycle

/-!
# When the control thread writes to the follower

Torque goes on in one place, over goals that are the positions just read; goals go out
only under torque. The invariant is that torque is only ever on in TELEOP and HOLD.
-/
namespace WriteDiscipline

open GuardedMachine ServoBus ControlThread ControlCycle
open Calibration (Joint CFloat)
open SharedMemory (Ctx Mode U32)

variable {F : Type*} [CFloat F] {c : Ctx} {inp : Input} {st : Control F}

@[simp] theorem loaded_mode_word (m : Mode) : loadedMode m.word = m := by
  cases m <;> decide

theorem loaded_teleop_iff {w : U32} : loadedMode w = .teleop ↔ w = Mode.teleop.word := by
  constructor
  · intro h
    unfold loadedMode at h
    split_ifs at h with hw
    exact hw
  · rintro rfl
    exact loaded_mode_word .teleop

theorem loaded_hold_iff {w : U32} : loadedMode w = .hold ↔ w = Mode.hold.word := by
  constructor
  · intro h
    unfold loadedMode at h
    split_ifs at h with _ hw
    exact hw
  · rintro rfl
    exact loaded_mode_word .hold

/-- Torque is on only in the modes that hold it. -/
def TorqueInMode (st : Control F) : Prop :=
  st.torque = true → st.applied = .teleop ∨ st.applied = .hold

theorem entered_torque (h : TorqueInMode st) (ht : (entered c inp st).torque = true) :
    ((entered c inp st).applied = .teleop ∨ (entered c inp st).applied = .hold) ∧
      loadedMode inp.modeReq = (entered c inp st).applied := by
  have hreads := after_reads c inp st
  have hkept : (loading c inp st).torque = true → st.torque = true := by
    intro hl
    have htorque := hreads.torque.symm.trans hl
    simp only [Bool.and_eq_true] at htorque
    exact htorque.1
  have happlied : (loading c inp st).applied = st.applied := hreads.applied
  unfold entered at ht ⊢
  have htrans := mode_transition c inp (loading c inp st)
  generalize modeTransition c inp (loading c inp st) = r at htrans ht ⊢
  cases htrans with
  | same hsame =>
    rw [happlied] at hsame ⊢
    exact ⟨h (hkept ht), hsame⟩
  | kept _ hreq _ => exact ⟨hreq, rfl⟩
  | enabled _ hreq _ _ => exact ⟨hreq, rfl⟩
  | refused _ _ hoff _ => simp [hoff] at ht
  | released _ _ _ => simp at ht
  | limp _ _ hoff => simp [hoff] at ht

theorem torque_in_mode_next (h : TorqueInMode st) : TorqueInMode (controlCycle c inp st).1 := by
  intro ht
  rw [cycle_torque] at ht
  rw [cycle_applied]
  exact (entered_torque h ht).1

structure Enabling (inp : Input) (st : Control F) (bf : Joint → Fin 8 → Byte) : Prop where
  requested : inp.modeReq = Mode.teleop.word ∨ inp.modeReq = Mode.hold.word
  changed : inp.modeReq ≠ st.applied.word
  off : st.torque = false
  read : inp.followerRead = some bf

/-- The mode word asks for no torque: IDLE, ESTOP or out of range. -/
def Blocked (inp : Input) : Prop :=
  inp.modeReq ≠ Mode.teleop.word ∧ inp.modeReq ≠ Mode.hold.word

instance : Decidable (Blocked inp) := inferInstanceAs (Decidable (_ ∧ _))

def releaseOp (c : Ctx) (inp : Input) (site : WriteSite) : BusOp :=
  inp.write site .follower (setTorque (armIds c.calFollower) false)

def enableGoalOp (c : Ctx) (inp : Input) (pos : Joint → ℤ) : BusOp :=
  inp.write .enableGoal .follower (writeGoal (armIds c.calFollower) pos)

def enableOp (c : Ctx) (inp : Input) : BusOp :=
  inp.write .enable .follower (setTorque (armIds c.calFollower) true)

/-- What the cycle does to the torque and writes before its goal, from the state in which
it starts. -/
inductive Outcome (c : Ctx) (inp : Input) (st : Control F) : Bool → List BusOp → Prop where
  | reopened (hr : FollowerReopens inp st) :
      Outcome c inp st false [.reopen .follower, releaseOp c inp .reopenOff]
  | released (hr : ¬ FollowerReopens inp st) (ht : st.torque = true) (hb : Blocked inp) :
      Outcome c inp st false [releaseOp c inp .torqueOff]
  | kept (hr : ¬ FollowerReopens inp st) (ht : st.torque = true) (hb : ¬ Blocked inp) :
      Outcome c inp st true []
  | enabled (bf : Joint → Fin 8 → Byte) (hen : Enabling inp st bf) :
      Outcome c inp st true [enableGoalOp c inp (positionsRead bf), enableOp c inp]
  | limp (hr : ¬ FollowerReopens inp st) (ht : st.torque = false)
      (hno : ∀ bf, ¬ Enabling inp st bf) : Outcome c inp st false []

theorem blocked_iff : Blocked inp ↔
    ¬ (loadedMode inp.modeReq = .teleop ∨ loadedMode inp.modeReq = .hold) := by
  rw [loaded_teleop_iff, loaded_hold_iff, not_or]
  rfl

theorem word_ne_iff {w : U32} {m : Mode} (hreq : loadedMode w = .teleop ∨ loadedMode w = .hold) :
    w ≠ m.word ↔ loadedMode w ≠ m := by
  have hw : w = (loadedMode w).word := by
    rcases hreq with h | h
    · rw [h]
      exact loaded_teleop_iff.mp h
    · rw [h]
      exact loaded_hold_iff.mp h
  constructor
  · rintro hne rfl
    exact hne hw
  · rintro hne rfl
    exact hne (loaded_mode_word m)

theorem outcome_off (hr : ¬ FollowerReopens inp st) (ht : st.torque = false) :
    Outcome c inp st (entered c inp st).torque (modeTransition c inp (loading c inp st)).2 := by
  have hreads := after_reads c inp st
  have happlied : (loading c inp st).applied = st.applied := hreads.applied
  have hoff : (loading c inp st).torque = false := by
    rw [loading, hreads.torque, ht]
    rfl
  have htrans := mode_transition c inp (loading c inp st)
  unfold entered
  generalize modeTransition c inp (loading c inp st) = r at htrans ⊢
  cases htrans with
  | same hsame =>
    rw [hoff]
    refine .limp hr ht (fun bf hen => ?_)
    have hreq := hen.requested
    rw [← loaded_teleop_iff, ← loaded_hold_iff] at hreq
    exact (word_ne_iff hreq).mp hen.changed (hsame.trans happlied)
  | kept _ _ hon => simp [hoff] at hon
  | enabled hne hreq _ hok =>
    have hread : inp.followerRead.isSome = true := hreads.follower_ok.symm.trans hok
    obtain ⟨bf, hbf⟩ := Option.isSome_iff_exists.mp hread
    have hpos : (loading c inp st).s.followerPos = positionsRead bf := hreads.follower_pos bf hbf
    have hchanged := (word_ne_iff hreq).mpr (happlied ▸ hne)
    rw [loaded_teleop_iff, loaded_hold_iff] at hreq
    simp only [enter_mode_torque, enableTorque, hpos]
    exact .enabled bf ⟨hreq, hchanged, ht, hbf⟩
  | refused _ _ _ hfail =>
    rw [hoff]
    refine .limp hr ht (fun bf hen => ?_)
    have hread := hreads.follower_ok.symm.trans hfail
    simp [hen.read] at hread
  | released _ _ hon => simp [hoff] at hon
  | limp _ hreq _ =>
    simp only [enter_mode_torque, hoff]
    refine .limp hr ht (fun bf hen => ?_)
    have hasked := hen.requested
    rw [← loaded_teleop_iff, ← loaded_hold_iff] at hasked
    rcases hreq with h | h <;> simp [h] at hasked

theorem outcome_on (h : TorqueInMode st) (hr : ¬ FollowerReopens inp st) (ht : st.torque = true) :
    Outcome c inp st (entered c inp st).torque (modeTransition c inp (loading c inp st)).2 := by
  have hreads := after_reads c inp st
  have happlied : (loading c inp st).applied = st.applied := hreads.applied
  have hon : (loading c inp st).torque = true := by
    rw [loading, hreads.torque, ht]
    simp [hr]
  have htrans := mode_transition c inp (loading c inp st)
  unfold entered
  generalize modeTransition c inp (loading c inp st) = r at htrans ⊢
  cases htrans with
  | same hsame =>
    rw [hon]
    refine .kept hr ht (fun hb => blocked_iff.mp hb ?_)
    rw [hsame, happlied]
    exact h ht
  | kept _ hreq _ =>
    simp only [enter_mode_torque, hon]
    exact .kept hr ht (fun hb => blocked_iff.mp hb hreq)
  | enabled _ _ hoff _ => simp [hon] at hoff
  | refused _ _ hoff _ => simp [hon] at hoff
  | released _ hreq _ =>
    simp only [enter_mode_torque]
    refine .released hr ht (blocked_iff.mpr ?_)
    rcases hreq with h | h <;> simp [h]
  | limp _ _ hoff => simp [hon] at hoff

/-- A reconnection leaves nothing for the mode block to do: torque is off, and it is not
turned on without a read. -/
theorem transition_reopened (hr : FollowerReopens inp st) :
    (entered c inp st).torque = false ∧ (modeTransition c inp (loading c inp st)).2 = [] := by
  have hreads := after_reads c inp st
  have hoff : (loading c inp st).torque = false := by
    rw [loading, hreads.torque]
    simp [hr]
  have hfail : (loading c inp st).s.followerOk = false := by
    rw [loading, hreads.follower_ok, reopens_read_failed hr]
    rfl
  have htrans := mode_transition c inp (loading c inp st)
  unfold entered
  generalize modeTransition c inp (loading c inp st) = r at htrans ⊢
  cases htrans with
  | same _ => exact ⟨hoff, rfl⟩
  | kept _ _ hon => simp [hoff] at hon
  | enabled _ _ _ hok => simp [hfail] at hok
  | refused _ _ _ _ => exact ⟨hoff, rfl⟩
  | released _ _ hon => simp [hoff] at hon
  | limp _ _ _ => exact ⟨by simpa using hoff, rfl⟩

def goalOps (c : Ctx) (inp : Input) (st : Control F) : List BusOp :=
  if (controlCycle c inp st).1.torque then
    [inp.write .goal .follower
      (writeGoal (armIds c.calFollower) (steppedGoal c (entered c inp st)))]
  else []

/-- The leader's part, what the outcome says, and a goal where torque is on. -/
theorem cycle_outcome (c : Ctx) (inp : Input) (h : TorqueInMode st) :
    ∃ ops, Outcome c inp st (controlCycle c inp st).1.torque ops ∧
      (controlCycle c inp st).2 = (readLeader c inp (wakeUp inp st)).2 ++ ops ++
        goalOps c inp st := by
  unfold goalOps
  rw [cycle_torque, cycle_ops, read_ops]
  by_cases hr : FollowerReopens inp st
  · obtain ⟨hoff, hops⟩ := transition_reopened (c := c) hr
    rw [hoff, hops, if_pos hr]
    exact ⟨_, .reopened hr, by simp [releaseOp]⟩
  · rw [if_neg hr, List.append_nil]
    refine ⟨_, ?_, rfl⟩
    cases ht : st.torque with
    | false => exact outcome_off hr ht
    | true => exact outcome_on h hr ht

structure Disciplined (c : Ctx) (inp : Input) (st : Control F) : Prop where
  torque_mode : TorqueInMode (controlCycle c inp st).1
  enable : ∀ pre w sent post,
    (controlCycle c inp st).2 = pre ++ .write .follower w sent :: post → w.Enables →
    (inp.modeReq = Mode.teleop.word ∨ inp.modeReq = Mode.hold.word) ∧
      inp.modeReq ≠ st.applied.word ∧ st.torque = false ∧
      ∃ bf before sent', inp.followerRead = some bf ∧ pre = before ++
        [.write .follower (writeGoal (armIds c.calFollower) (positionsRead bf)) sent']
  goal : ∀ w sent, .write .follower w sent ∈ (controlCycle c inp st).2 → w.IsGoal →
    (controlCycle c inp st).1.torque = true
  blocked : Blocked inp → (controlCycle c inp st).1.torque = false ∧
    ∀ w sent, .write .follower w sent ∈ (controlCycle c inp st).2 → ¬ w.Enables ∧ ¬ w.IsGoal
  reopened : .reopen .follower ∈ (controlCycle c inp st).2 →
    (controlCycle c inp st).1.torque = false
  regained : st.torque = false → (controlCycle c inp st).1.torque = true →
    ∃ w sent, .write .follower w sent ∈ (controlCycle c inp st).2 ∧ w.Enables

theorem mem_cycle_ops (h : TorqueInMode st) {op : BusOp} (hop : op ∈ (controlCycle c inp st).2)
    (hbus : op.bus = .follower) :
    ∃ ops, Outcome c inp st (controlCycle c inp st).1.torque ops ∧
      (op ∈ ops ∨ (controlCycle c inp st).1.torque = true ∧ ∃ goal,
        op = inp.write .goal .follower (writeGoal (armIds c.calFollower) goal)) := by
  obtain ⟨ops, hout, hops⟩ := cycle_outcome c inp h
  refine ⟨ops, hout, ?_⟩
  rw [hops, List.mem_append, List.mem_append] at hop
  rcases hop with (hl | ho) | hg
  · rw [read_leader_bus c inp _ op hl] at hbus
    cases hbus
  · exact Or.inl ho
  · right
    unfold goalOps at hg
    by_cases ht : (controlCycle c inp st).1.torque = true
    · rw [if_pos ht] at hg
      exact ⟨ht, _, List.mem_singleton.mp hg⟩
    · simp [ht] at hg

theorem not_enables_release {site : WriteSite} {w : SyncWrite} {sent : Bool}
    (h : .write .follower w sent = releaseOp c inp site) : ¬ w.Enables ∧ ¬ w.IsGoal := by
  simp only [releaseOp, Input.write, BusOp.write.injEq] at h
  simp [h.2.1]

theorem not_enables_goal {site : WriteSite} {w : SyncWrite} {sent : Bool} {goal : Joint → ℤ}
    (h : .write .follower w sent =
      inp.write site .follower (writeGoal (armIds c.calFollower) goal)) : ¬ w.Enables := by
  simp only [Input.write, BusOp.write.injEq] at h
  simp [h.2.1]

theorem enable_split (h : TorqueInMode st) {pre post : List BusOp} {w : SyncWrite} {sent : Bool}
    (hops : (controlCycle c inp st).2 = pre ++ .write .follower w sent :: post)
    (hw : w.Enables) : ∃ bf, Enabling inp st bf ∧
      pre = (readLeader c inp (wakeUp inp st)).2 ++ [enableGoalOp c inp (positionsRead bf)] ∧
      BusOp.write .follower w sent = enableOp c inp := by
  have hleader : .write .follower w sent ∉ (readLeader c inp (wakeUp inp st)).2 := by
    intro hl
    cases read_leader_bus c inp _ _ hl
  have hgoal : .write .follower w sent ∉ goalOps c inp st := by
    intro hg
    unfold goalOps at hg
    split at hg
    · exact not_enables_goal (List.mem_singleton.mp hg) hw
    · simp at hg
  obtain ⟨ops, hout, hcycle⟩ := cycle_outcome c inp h
  have hmem : .write .follower w sent ∈ ops := by
    have hall : .write .follower w sent ∈ (controlCycle c inp st).2 := by simp [hops]
    rw [hcycle, List.mem_append, List.mem_append] at hall
    simpa [hleader, hgoal] using hall
  generalize (controlCycle c inp st).1.torque = torque at hout
  cases hout with
  | reopened _ =>
    rcases List.mem_pair.mp hmem with hm | hm
    · cases hm
    · exact absurd hw (not_enables_release hm).1
  | released _ _ _ => exact absurd hw (not_enables_release (List.mem_singleton.mp hmem)).1
  | kept _ _ _ => simp at hmem
  | limp _ _ _ => simp at hmem
  | enabled bf hen =>
    have hfirst : .write .follower w sent ≠ enableGoalOp c inp (positionsRead bf) :=
      fun hm => not_enables_goal hm hw
    have hsplit : ((readLeader c inp (wakeUp inp st)).2 ++
        [enableGoalOp c inp (positionsRead bf)]) ++ enableOp c inp :: goalOps c inp st =
          pre ++ .write .follower w sent :: post := by
      rw [← hops, hcycle]
      simp
    have hread : .write .follower w sent ∉ (readLeader c inp (wakeUp inp st)).2 ++
        [enableGoalOp c inp (positionsRead bf)] := by simp [hleader, hfirst]
    obtain ⟨hpre, hop, _⟩ := (List.append_cons_inj_of_notMem hread hgoal).mp hsplit
    exact ⟨bf, hen, hpre.symm, hop.symm⟩

theorem disciplined (h : TorqueInMode st) : Disciplined c inp st := by
  constructor
  · exact torque_in_mode_next h
  · intro pre w sent post hops hw
    obtain ⟨bf, hen, hpre, _⟩ := enable_split h hops hw
    exact ⟨hen.requested, hen.changed, hen.off, bf, _, _, hen.read, hpre⟩
  · intro w sent hmem hw
    obtain ⟨ops, hout, hop | ⟨ht, _⟩⟩ := mem_cycle_ops h hmem rfl
    · generalize (controlCycle c inp st).1.torque = torque at hout ⊢
      cases hout <;> simp_all [releaseOp, Input.write]
    · exact ht
  · intro hb
    have hoff : (controlCycle c inp st).1.torque = false := by
      obtain ⟨ops, hout, _⟩ := cycle_outcome c inp h
      generalize (controlCycle c inp st).1.torque = torque at hout ⊢
      cases hout with
      | reopened _ => rfl
      | released _ _ _ => rfl
      | limp _ _ _ => rfl
      | kept _ _ hnb => exact absurd hb hnb
      | enabled bf hen =>
        rcases hen.requested with hm | hm
        · exact absurd hm hb.1
        · exact absurd hm hb.2
    refine ⟨hoff, fun w sent hmem => ?_⟩
    obtain ⟨ops, hout, hop | ⟨ht, _⟩⟩ := mem_cycle_ops h hmem rfl
    · rw [hoff] at hout
      cases hout with
      | reopened _ =>
        rcases List.mem_pair.mp hop with hm | hm
        · cases hm
        · exact not_enables_release hm
      | released _ _ _ => exact not_enables_release (List.mem_singleton.mp hop)
      | limp _ _ _ => simp at hop
    · simp [hoff] at ht
  · intro hmem
    obtain ⟨ops, hout, hop | ⟨_, _, hgoal⟩⟩ := mem_cycle_ops h hmem rfl
    · generalize (controlCycle c inp st).1.torque = torque at hout ⊢
      cases hout <;> simp_all [releaseOp, enableGoalOp, enableOp, Input.write]
    · cases hgoal
  · intro hoff hon
    obtain ⟨ops, hout, hcycle⟩ := cycle_outcome c inp h
    rw [hon] at hout
    cases hout with
    | kept _ ht _ => simp [hoff] at ht
    | enabled bf hen =>
      refine ⟨setTorque (armIds c.calFollower) true, inp.sent .enable, ?_, by simp⟩
      rw [hcycle]
      simp [enableOp, Input.write]

/-- Every cycle of every run keeps to the discipline. -/
theorem write_discipline (c : Ctx) (now : ℤ) (sentFollower sentLeader : Bool)
    (inps : List Input) :
    (controlThread c).Along (fun r inp => Disciplined c inp r.st)
      (startUp c now sentFollower sentLeader : ControlRun F) inps := by
  have hstart : TorqueInMode (startUp c now sentFollower sentLeader : ControlRun F).st :=
    fun ht => by cases ht
  have hstep : ∀ (r : ControlRun F) inp, TorqueInMode r.st → TorqueInMode (nextCycle c r inp).st :=
    fun _ _ h => torque_in_mode_next h
  exact (free_along hstep hstart inps).imp (fun _ _ h => disciplined h)

end WriteDiscipline
