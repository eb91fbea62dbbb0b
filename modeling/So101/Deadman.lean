import So101.ReopenSchedule
import So101.WriteDiscipline

/-!
# The dead man's switch of the control thread

What the control thread does about a silent follower on its own, without the supervisor:
the reconnection that an outage brings takes the torque away, and it does not come back
before another mode is asked for.
-/
namespace Deadman

open ControlThread ControlCycle ReopenSchedule RetrySchedule WriteDiscipline
open Calibration (CFloat)
open SharedMemory (Ctx)

variable {F : Type*} [CFloat F] {c : Ctx} {inp : Input} {st : Control F}

/-- A cycle that ends with torque on has read the follower, or had torque on before and
did not reconnect. -/
theorem torque_needs_read (h : TorqueInMode st) (ht : (controlCycle c inp st).1.torque = true) :
    readOk .follower inp = true ∨ (st.torque = true ∧ ¬ Reopens .follower inp st) := by
  obtain ⟨ops, hout, _⟩ := cycle_outcome c inp h
  rw [ht] at hout
  cases hout with
  | kept hr hon _ => exact Or.inr ⟨hon, hr⟩
  | enabled bf hen =>
    left
    simp [readOk, hen.read]

theorem limp_next (h : TorqueInMode st) (ht : st.torque = false)
    (hsame : inp.modeReq = st.applied.word) :
    (controlCycle c inp st).1.torque = false ∧
      (controlCycle c inp st).1.applied = st.applied := by
  constructor
  · cases hon : (controlCycle c inp st).1.torque with
    | false => rfl
    | true =>
      obtain ⟨ops, hout, _⟩ := cycle_outcome c inp h
      rw [hon] at hout
      cases hout with
      | kept _ ht' _ => simp [ht] at ht'
      | enabled bf hen => exact absurd hsame hen.changed
  · rw [cycle_applied, entered]
    have hloaded : loadedMode inp.modeReq = (loading c inp st).applied := by
      rw [hsame, loaded_mode_word]
      exact (after_reads c inp st).applied.symm
    have htrans := mode_transition c inp (loading c inp st)
    generalize modeTransition c inp (loading c inp st) = r at htrans ⊢
    cases htrans with
    | same _ => exact (after_reads c inp st).applied
    | kept hne | enabled hne | refused hne | released hne | limp hne => exact absurd hloaded hne

section Runs

variable (c) (now : ℤ) (sentFollower sentLeader : Bool)

theorem run_torque_in_mode (inputs : List Input) :
    TorqueInMode (runFrom c now sentFollower sentLeader inputs : ControlRun F).st := by
  induction inputs using List.reverseRecOn with
  | nil =>
    intro ht
    cases ht
  | append_singleton inputs inp ih =>
    rw [run_from_snoc]
    exact torque_in_mode_next ih

theorem torque_alive (inputs : List Input)
    (ht : (runFrom c now sentFollower sentLeader inputs : ControlRun F).st.torque = true) :
    failedReads .follower inputs < reopenAfter := by
  induction inputs using List.reverseRecOn with
  | nil => decide
  | append_singleton inputs inp ih =>
    rw [run_from_snoc] at ht
    rw [failed_reads_snoc]
    rcases torque_needs_read (run_torque_in_mode c now sentFollower sentLeader inputs) ht with
      hread | ⟨hon, hkeeps⟩
    · rw [hread, count_true]
      decide
    · cases hread : readOk .follower inp with
      | true =>
        rw [count_true]
        decide
      | false =>
        have hfails := ih hon
        have hdue := (run_on_schedule (F := F) c .follower now sentFollower sentLeader
          inputs).due_iff (by decide) (by decide) (readOk .follower inp)
        rw [hread, count_false] at hdue
        rcases Nat.lt_or_eq_of_le hfails with hlt | heq
        · exact hlt
        · refine absurd ?_ hkeeps
          simp only [Reopens, hread]
          exact hdue.mpr ⟨Nat.succ_pos _, heq ▸ dvd_refl _⟩

/-- A follower that has not answered `REOPEN_AFTER` times in a row is limp, whatever mode is
asked for: in every later cycle of the outage torque is off and neither an enable nor a
goal is written. When it answers again, torque stays off as long as the mode asked for is
the one that was applied. -/
theorem silent_follower_limp (inputs : List Input) (inp : Input) :
    let r : List Input → ControlRun F := fun inps => runFrom c now sentFollower sentLeader inps
    (reopenAfter ≤ failedReads .follower (inputs ++ [inp]) →
      (r (inputs ++ [inp])).st.torque = false ∧
        ∀ w sent, .write .follower w sent ∈ (controlCycle c inp (r inputs).st).2 →
          ¬ w.Enables ∧ ¬ w.IsGoal) ∧
      ∀ later, (r inputs).st.torque = false →
        (∀ x ∈ later, x.modeReq = (r inputs).st.applied.word) →
        (r (inputs ++ later)).st.torque = false := by
  dsimp only
  have hmode := run_torque_in_mode (F := F) c now sentFollower sentLeader inputs
  constructor
  · intro hsilent
    have hoff : (controlCycle c inp
        (runFrom c now sentFollower sentLeader inputs : ControlRun F).st).1.torque = false := by
      cases ht : (controlCycle c inp
        (runFrom c now sentFollower sentLeader inputs : ControlRun F).st).1.torque with
      | false => rfl
      | true =>
        have hon : (runFrom c now sentFollower sentLeader (inputs ++ [inp]) :
            ControlRun F).st.torque = true := by
          rw [run_from_snoc]
          exact ht
        exact absurd (torque_alive c now sentFollower sentLeader _ hon) (Nat.not_lt.mpr hsilent)
    refine ⟨by rw [run_from_snoc]; exact hoff, fun w sent hmem => ⟨fun hen => ?_, fun hgoal => ?_⟩⟩
    · obtain ⟨pre, post, hsplit⟩ := List.append_of_mem hmem
      obtain ⟨_, _, _, bf, _, _, hread, _⟩ := (disciplined hmode).enable pre w sent post hsplit hen
      rw [failed_reads_snoc] at hsilent
      simp [readOk, hread, reopenAfter] at hsilent
    · have hon := (disciplined hmode).goal w sent hmem hgoal
      rw [hoff] at hon
      cases hon
  · intro later hoff hsame
    have hkept : ∀ later, (∀ x ∈ later, x.modeReq =
        (runFrom c now sentFollower sentLeader inputs : ControlRun F).st.applied.word) →
        (runFrom c now sentFollower sentLeader (inputs ++ later) :
          ControlRun F).st.torque = false ∧
        (runFrom c now sentFollower sentLeader (inputs ++ later) : ControlRun F).st.applied =
          (runFrom c now sentFollower sentLeader inputs : ControlRun F).st.applied := by
      intro later
      induction later using List.reverseRecOn with
      | nil =>
        intro _
        rw [List.append_nil]
        exact ⟨hoff, rfl⟩
      | append_singleton later x ih =>
        intro hall
        obtain ⟨htorque, happlied⟩ := ih (fun y hy => hall y (by simp [hy]))
        have hasked : x.modeReq = (runFrom c now sentFollower sentLeader
            (inputs ++ later) : ControlRun F).st.applied.word :=
          (hall x (by simp)).trans (by rw [happlied])
        have hnext := limp_next (c := c)
          (run_torque_in_mode (F := F) c now sentFollower sentLeader (inputs ++ later)) htorque
          hasked
        rw [← List.append_assoc, run_from_snoc]
        exact ⟨hnext.1, hnext.2.trans happlied⟩
    exact (hkept later hsame).1

end Runs

end Deadman
