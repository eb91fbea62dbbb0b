import So101.MailboxAnswers
import So101.TorqueLockout

/-!
# A round that serves a command

The rest of a round of `supervisor_thread` between two of its accesses, with the control
thread free to change TORQUE_REFUSED meanwhile: what it will answer is settled when the
faults are loaded, and an OK comes after the store of its mode.
-/
namespace CommandRounds

open AtomicProgram SharedMemory SupervisorThread
open SupervisorInterlock (Undisturbed)
open MailboxAnswers (LeavesAck)

abbrev Stores := List (Site × Mode)

def storesOf : Access → Stores
  | .storeMode site m => [(site, m)]
  | _ => []

structure Done (q : Cmd) (r : ℤ) (log : Stores) : Prop where
  setMode : r = resOk → q.cmd = cmdSetMode → ∃ m : Mode, q.arg = m.word ∧ (.command q, m) ∈ log
  estop : r = resOk → q.cmd = cmdEstop → (.command q, .estop) ∈ log
  reset : r = resOk → q.cmd = cmdReset → (.command q, .idle) ∈ log

theorem Done.append {q : Cmd} {r : ℤ} {log : Stores} (h : Done q r log) (more : Stores) :
    Done q r (log ++ more) where
  setMode hr hq := by
    obtain ⟨m, harg, hm⟩ := h.setMode hr hq
    exact ⟨m, harg, List.mem_append_left _ hm⟩
  estop hr hq := List.mem_append_left _ (h.estop hr hq)
  reset hr hq := List.mem_append_left _ (h.reset hr hq)

/-- Whatever the control thread does meanwhile, the program returns `r` and is done. -/
inductive Settles (q : Cmd) (r : ℤ) : Stores → Code ℤ → Words → Prop where
  | ret {log w} (hdone : Done q r log) : Settles q r log (.ret r) w
  | step {log o k w} (ho : LeavesAck o)
      (h : ∀ w', Undisturbed w w' →
        Settles q r (log ++ storesOf o) (k (wordMemory.value w' o)) (wordMemory.update w' o)) :
      Settles q r log (.access o k) w

inductive Serving (q : Cmd) (r : ℤ) {α : Type} : Stores → Code α → Words → Prop where
  | result {log k k' w} (hdone : Done q r log) (hk : k () = .access (.ackId q.id) k')
      (hrest : ∀ u, (k' u).Only LeavesAck) : Serving q r log (.access (.ackResult r) k) w
  | step {log o k w} (ho : LeavesAck o)
      (h : ∀ w', Undisturbed w w' →
        Serving q r (log ++ storesOf o) (k (wordMemory.value w' o)) (wordMemory.update w' o)) :
      Serving q r log (.access o k) w

theorem undisturbed_refl (w : Words) : Undisturbed w w := ⟨rfl, rfl⟩

theorem undisturbed_trans {w w' w'' : Words} (h : Undisturbed w w') (k : Undisturbed w' w'') :
    Undisturbed w w'' := ⟨k.1.trans h.1, k.2.trans h.2⟩

theorem Serving.undisturbed {α : Type} {q : Cmd} {r : ℤ} {log : Stores} {p : Code α}
    {w w' : Words} (h : Serving q r log p w) (hr : Undisturbed w w') : Serving q r log p w' := by
  cases h with
  | result hdone hk hrest => exact .result hdone hk hrest
  | step ho hstep => exact .step ho (fun w'' hr' => hstep w'' (undisturbed_trans hr hr'))

theorem Settles.serving {α : Type} {q : Cmd} {r : ℤ} {log : Stores} {p : Code ℤ} {w : Words}
    (h : Settles q r log p w) (rest : Code α) (hrest : rest.Only LeavesAck) :
    Serving q r log (p.bind fun res => .access (.ackResult res) fun _ =>
      .access (.ackId q.id) fun _ => rest) w := by
  induction h with
  | ret hdone => exact .result hdone rfl (fun _ => hrest)
  | step ho _ ih => exact .step ho ih

section Serve

variable {q : Cmd} {r : ℤ} {w : Words} {log : Stores}

theorem done_of_ne_ok (hr : r ≠ resOk) : Done q r log :=
  ⟨fun h => absurd h hr, fun h => absurd h hr, fun h => absurd h hr⟩

theorem settles_refused : Settles q resRefused log (pure resRefused) w :=
  .ret (done_of_ne_ok (by decide))

theorem settles_bad_cmd : Settles q resBadCmd log (pure resBadCmd) w :=
  .ret (done_of_ne_ok (by decide))

theorem Settles.access {o : Access} {k : o.Res → Code ℤ} (ho : LeavesAck o)
    (hlog : storesOf o = [])
    (h : ∀ w', Undisturbed w w' →
      Settles q r log (k (wordMemory.value w' o)) (wordMemory.update w' o)) :
    Settles q r log (.access o k) w := by
  refine .step ho (fun w' hr => ?_)
  rw [hlog, List.append_nil]
  exact h w' hr

theorem Settles.storeMode {m : Mode} {k : Unit → Code ℤ}
    (h : ∀ w, Settles q r (log ++ [(.command q, m)]) (k ()) w) :
    Settles q r log (storeMode (.command q) m >>= k) w :=
  .step (o := .storeMode (.command q) m) trivial (fun _ _ => h _)

theorem accept_mode_settles {m : Mode} (hset : q.cmd = cmdSetMode) (harg : q.arg = m.word) :
    Settles q resOk log (acceptMode q m) w := by
  refine .storeMode (fun _ => .ret ⟨fun _ _ => ⟨m, harg, by simp⟩, ?_, ?_⟩)
  · intro _ hestop
    exact absurd (hset.symm.trans hestop) (by decide)
  · intro _ hreset
    exact absurd (hset.symm.trans hreset) (by decide)

theorem estop_settles (hestop : q.cmd = cmdEstop) : Settles q resOk log
    (do let _ ← orFaults .estop; storeMode (.command q) .estop; pure resOk) w := by
  refine .access (o := .orFaults .estop) trivial rfl (fun _ _ => ?_)
  refine .storeMode (fun _ => .ret ⟨?_, fun _ _ => by simp, ?_⟩)
  · intro _ hset
    exact absurd (hestop.symm.trans hset) (by decide)
  · intro _ hreset
    exact absurd (hestop.symm.trans hreset) (by decide)

theorem reset_settles (hreset : q.cmd = cmdReset) : Settles q resOk log
    (do storeFaults q 0; storeMode (.command q) .idle; pure resOk) w := by
  refine .access (o := .storeFaults q 0) trivial rfl (fun _ _ => ?_)
  refine .storeMode (fun _ => .ret ⟨?_, ?_, fun _ _ => by simp⟩)
  · intro _ hset
    exact absurd (hreset.symm.trans hset) (by decide)
  · intro _ hestop
    exact absurd (hreset.symm.trans hestop) (by decide)

def serveLoaded (cmd : Cmd) (f : U32) : Code ℤ :=
  if cmd.cmd = cmdSetMode then
    if cmd.arg = Mode.idle.word then
      loadMode >>= fun m => if m = .estop then pure resRefused else acceptMode cmd .idle
    else if cmd.arg = Mode.teleop.word then
      if f &&& fBlockTeleop ≠ 0 then pure resRefused else acceptMode cmd .teleop
    else if cmd.arg = Mode.hold.word then
      if f &&& fBlockAll ≠ 0 then pure resRefused else acceptMode cmd .hold
    else
      pure resBadCmd
  else if cmd.cmd = cmdEstop then do
    let _ ← orFaults .estop
    storeMode (.command cmd) .estop
    pure resOk
  else if cmd.cmd = cmdReset then do
    storeFaults cmd 0
    storeMode (.command cmd) .idle
    pure resOk
  else if cmd.cmd = cmdPing then
    pure resOk
  else
    pure resBadCmd

theorem settles_unless {p : Prop} [Decidable p] {m : Mode} (hset : q.cmd = cmdSetMode)
    (harg : q.arg = m.word) (hr : r = if p then resRefused else resOk) :
    Settles q r log (if p then pure resRefused else acceptMode q m) w := by
  subst hr
  by_cases hp : p
  · simp only [if_pos hp]
    exact settles_refused
  · simp only [if_neg hp]
    exact accept_mode_settles hset harg

/-- What `serve_command` returns is what it would return if nobody else touched the words
from its load of the faults on. -/
theorem serve_command_settles (q : Cmd) (w : Words) (log : Stores) :
    Settles q ((serveCommand q).eval wordMemory w).1 log (serveLoaded q w.faults) w := by
  change Settles q ((serveLoaded q w.faults).eval wordMemory w).1 log _ w
  unfold serveLoaded
  by_cases hset : q.cmd = cmdSetMode
  · simp only [if_pos hset]
    by_cases hidle : q.arg = Mode.idle.word
    · simp only [if_pos hidle]
      refine .access (o := .loadMode) trivial rfl (fun w' hr => ?_)
      change Settles q _ log (if w'.modeReq = .estop then _ else _) w'
      refine settles_unless hset hidle ?_
      rw [hr.1]
      change ((if w.modeReq = .estop then _ else _ : Code ℤ).eval wordMemory w).1 = _
      split_ifs <;> rfl
    · simp only [if_neg hidle]
      by_cases hteleop : q.arg = Mode.teleop.word
      · simp only [if_pos hteleop]
        refine settles_unless hset hteleop ?_
        split_ifs <;> rfl
      · simp only [if_neg hteleop]
        by_cases hhold : q.arg = Mode.hold.word
        · simp only [if_pos hhold]
          refine settles_unless hset hhold ?_
          split_ifs <;> rfl
        · simp only [if_neg hhold]
          exact settles_bad_cmd
  · simp only [if_neg hset]
    by_cases hestop : q.cmd = cmdEstop
    · simp only [if_pos hestop]
      exact estop_settles hestop
    · simp only [if_neg hestop]
      by_cases hreset : q.cmd = cmdReset
      · simp only [if_pos hreset]
        exact reset_settles hreset
      · simp only [if_neg hreset]
        by_cases hping : q.cmd = cmdPing
        · simp only [if_pos hping]
          exact .ret ⟨fun _ h => absurd h hset, fun _ h => absurd h hestop,
            fun _ h => absurd h hreset⟩
        · simp only [if_neg hping]
          exact settles_bad_cmd

end Serve

theorem Serving.bind {α β : Type} {q : Cmd} {r : ℤ} {log : Stores} {p : Code α} {w : Words}
    (h : Serving q r log p w) {f : α → Code β} (hf : ∀ a, (f a).Only LeavesAck) :
    Serving q r log (p.bind f) w := by
  induction h with
  | @result log k k' w hdone hk hrest =>
    have hbind : (k ()).bind f = .access (.ackId q.id) fun u => (k' u).bind f := by
      rw [hk]
      rfl
    exact .result hdone hbind (fun u => (hrest u).bind hf)
  | step ho _ ih => exact .step ho ih

theorem raise_fault_leaves_ack (f : Fault) (force : Bool) (safe : Mode) :
    (raiseFault f force safe).Only LeavesAck :=
  raise_fault_only trivial trivial trivial force

theorem raise_when_leaves_ack (p : Prop) [Decidable p] (f : Fault) (force : Bool) (safe : Mode) :
    (raiseWhen p f force safe).Only LeavesAck :=
  raise_when_only (fun _ => raise_fault_leaves_ack f force safe)

section Checks

variable {G : Type*} (c : Ctx) (l : Locals) (now : ℤ) (s : Sample G)

theorem check_stall_leaves_ack : (checkStall l now s).Only LeavesAck := by
  refine Prog.Only.ite (fun _ => trivial) (fun _ => Prog.Only.ite (fun _ => ?_) fun _ => trivial)
  exact (raise_fault_leaves_ack _ _ _).bind (fun _ => trivial)

theorem check_servos_leaves_ack : (checkServos c l s).Only LeavesAck := by
  refine Prog.Only.ite (fun _ => ?_) (fun _ => trivial)
  refine (raise_when_leaves_ack _ _ _ _).bind (fun _ => ?_)
  exact (raise_when_leaves_ack _ _ _ _).bind (fun _ => trivial)

theorem check_overruns_leaves_ack : (checkOverruns l now s).Only LeavesAck := by
  refine Prog.Only.ite (fun _ => ?_) (fun _ => trivial)
  exact (raise_when_leaves_ack _ _ _ _).bind (fun _ => trivial)

theorem safety_checks_leaves_ack : (safetyChecks c l now s).Only LeavesAck := by
  refine (check_stall_leaves_ack l now s).bind (fun l => ?_)
  refine ((raise_when_leaves_ack _ _ _ _).bind fun _ => raise_when_leaves_ack _ _ _ _).bind
    (fun _ => ?_)
  refine (check_servos_leaves_ack c l s).bind (fun l => ?_)
  refine (check_overruns_leaves_ack l now s).bind (fun l => ?_)
  exact ⟨trivial, fun _ => trivial⟩

end Checks

theorem round_leaves_ack {F : Type} (c : Ctx) (l : Locals) (now : ℤ)
    (snapshot : Option (Sample F)) :
    (supervisorThread c l ⟨none, now, snapshot⟩).Only LeavesAck := by
  cases snapshot with
  | none => trivial
  | some s => exact safety_checks_leaves_ack c l now s

theorem round_serving {F : Type} (c : Ctx) (l : Locals) (q : Cmd) (now : ℤ)
    (snapshot : Option (Sample F)) (log : Stores) :
    ∃ k : U32 → Code Locals,
      supervisorThread c l ⟨some q, now, snapshot⟩ = .access .loadFaults k ∧
      ∀ w, Serving q ((serveCommand q).eval wordMemory w).1 log (k w.faults) w := by
  refine ⟨_, rfl, fun w => ?_⟩
  refine Serving.bind (p := (serveLoaded q w.faults).bind _) ?_ (fun _ => ?_)
  · exact (serve_command_settles q w log).serving (.ret ()) trivial
  · cases snapshot with
    | none => trivial
    | some s => exact safety_checks_leaves_ack c l now s

end CommandRounds
