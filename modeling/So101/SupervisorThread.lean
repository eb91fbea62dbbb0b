import So101.SharedMemory

/-!
# The supervisor thread

`serve_command`, `raise_fault` and the safety checks as programs over the atomic words.
One round of the loop is one program; what it copied from the mailbox, the clock and the
snapshot are its input. The semaphores and the lock recovery are in the mailbox model,
the log lines nowhere.
-/
namespace SupervisorThread

open AtomicProgram SharedMemory
open Calibration (Joint)

def stallMs : ℤ := 200
def persistTicks : ℕ := 5
def overrunPerS : ℕ := 5

/-- `lower` in `raise_fault`: only ever go down, TELEOP → HOLD → IDLE → ESTOP. -/
def lower (safe m : Mode) : Prop :=
  safe = .estop ∨ (safe = .idle ∧ m ≠ .estop) ∨ (safe = .hold ∧ m = .teleop)

instance (safe m : Mode) : Decidable (lower safe m) := inferInstanceAs (Decidable (_ ∨ _))

def forceMode (f : Fault) (safe m : Mode) : Code Unit :=
  if lower safe m ∧ m ≠ safe then storeMode (.fault f) safe else pure ()

def raiseFault (f : Fault) (force : Bool) (safe : Mode) : Code Unit := do
  let _ ← orFaults f
  if force then
    let m ← loadMode
    forceMode f safe m
  else
    pure ()

def raiseWhen (p : Prop) [Decidable p] (f : Fault) (force : Bool) (safe : Mode) : Code Unit :=
  if p then raiseFault f force safe else pure ()

/-- `atomic_store(&shm->mode_req, cmd->arg)`, where `m` is what `cmd->arg` was compared with. -/
def acceptMode (cmd : Cmd) (m : Mode) : Code ℤ := do
  storeMode (.command cmd) m
  pure resOk

def serveCommand (cmd : Cmd) : Code ℤ := do
  let f ← loadFaults
  if cmd.cmd = cmdSetMode then
    if cmd.arg = Mode.idle.word then
      let m ← loadMode
      if m = .estop then pure resRefused else acceptMode cmd .idle
    else if cmd.arg = Mode.teleop.word then
      if f &&& fBlockTeleop ≠ 0 then pure resRefused else acceptMode cmd .teleop
    else if cmd.arg = Mode.hold.word then
      if f &&& fBlockAll ≠ 0 then pure resRefused else acceptMode cmd .hold
    else
      pure resBadCmd
  else if cmd.cmd = cmdEstop then
    let _ ← orFaults .estop
    storeMode (.command cmd) .estop
    pure resOk
  else if cmd.cmd = cmdReset then
    storeFaults cmd 0
    storeMode (.command cmd) .idle
    pure resOk
  else if cmd.cmd = cmdPing then
    pure resOk
  else
    pure resBadCmd

/-- The locals of `supervisor_thread` that the checks read; the ticks are of type `int`. -/
structure Locals where
  lastCycle : ℕ
  lastAdvance : ℤ
  tempTicks : ℤ
  voltTicks : ℤ
  ovrBase : U32
  ovrT0 : ℤ

/-- `got` is the copied command when a `sem_timedwait` succeeded; no snapshot means that
`so101_shm_read` gave up. -/
structure Wakeup (F : Type*) where
  got : Option Cmd
  now : ℤ
  snapshot : Option (Sample F)

variable {F : Type*}

def checkStall (l : Locals) (now : ℤ) (s : Sample F) : Code Locals :=
  if s.cycle ≠ l.lastCycle then
    pure { l with lastCycle := s.cycle, lastAdvance := now }
  else if now - l.lastAdvance > stallMs then do
    raiseFault .stall true .estop
    pure l
  else
    pure l

def checkComm (c : Ctx) (s : Sample F) : Code Unit := do
  raiseWhen ((s.leaderStreak : ℤ) ≥ c.commStreak) .leaderComm true .hold
  raiseWhen ((s.followerStreak : ℤ) ≥ c.commStreak) .followerComm true .idle

def hot (c : Ctx) (s : Sample F) : Prop := ∃ j, ((s.followerTemp j).toNat : ℤ) ≥ c.tempLimit

def badVolt (c : Ctx) (s : Sample F) : Prop :=
  ∃ j, ((s.followerVolt j).toNat : ℤ) < c.vminDv ∨ ((s.followerVolt j).toNat : ℤ) > c.vmaxDv

instance (c : Ctx) (s : Sample F) : Decidable (hot c s) :=
  inferInstanceAs (Decidable (∃ _ : Joint, _))

instance (c : Ctx) (s : Sample F) : Decidable (badVolt c s) :=
  inferInstanceAs (Decidable (∃ _ : Joint, _ ∨ _))

def checkServos (c : Ctx) (l : Locals) (s : Sample F) : Code Locals :=
  if s.followerOk then do
    let tempTicks := if hot c s then int32 (l.tempTicks + 1) else 0
    let voltTicks := if badVolt c s then int32 (l.voltTicks + 1) else 0
    raiseWhen (tempTicks ≥ persistTicks) .overtemp true .idle
    raiseWhen (voltTicks ≥ persistTicks) .voltage true .idle
    pure { l with tempTicks := tempTicks, voltTicks := voltTicks }
  else
    pure l

def checkOverruns (l : Locals) (now : ℤ) (s : Sample F) : Code Locals :=
  if now - l.ovrT0 ≥ 1000 then do
    raiseWhen ((s.overruns - l.ovrBase).toNat > overrunPerS) .overrun false .idle
    pure { l with ovrBase := s.overruns, ovrT0 := now }
  else
    pure l

def safetyChecks (c : Ctx) (l : Locals) (now : ℤ) (s : Sample F) : Code Locals := do
  let l ← checkStall l now s
  checkComm c s
  let l ← checkServos c l s
  let l ← checkOverruns l now s
  addBeat
  pure l

def answerCommand (got : Option Cmd) : Code Unit :=
  match got with
  | some cmd => do
    let res ← serveCommand cmd
    ackResult res
    ackId cmd.id
  | none => pure ()

/-- One round of the loop of `supervisor_thread`. -/
def supervisorThread (c : Ctx) (l : Locals) (w : Wakeup F) : Code Locals := do
  answerCommand w.got
  match w.snapshot with
  | some s => safetyChecks c l w.now s
  | none => pure l

section Accesses

variable {P : Access → Prop}

theorem raise_fault_only {f : Fault} {safe : Mode} (hor : P (.orFaults f)) (hload : P .loadMode)
    (hstore : P (.storeMode (.fault f) safe)) (force : Bool) :
    (raiseFault f force safe).Only P := by
  refine ⟨hor, fun _ => ?_⟩
  cases force with
  | false => trivial
  | true =>
    refine ⟨hload, fun (m : Mode) => ?_⟩
    exact Prog.Only.ite (fun _ => ⟨hstore, fun _ => trivial⟩) fun _ => trivial

theorem raise_when_only {p : Prop} [Decidable p] {f : Fault} {force : Bool} {safe : Mode}
    (h : p → (raiseFault f force safe).Only P) : (raiseWhen p f force safe).Only P :=
  Prog.Only.ite h fun _ => trivial

theorem serve_command_only {cmd : Cmd} (hload : P .loadMode) (hfaults : P .loadFaults)
    (hmode : ∀ m, P (.storeMode (.command cmd) m)) (hestop : P (.orFaults .estop))
    (hclear : P (.storeFaults cmd 0)) : (serveCommand cmd).Only P := by
  have haccept : ∀ m, (acceptMode cmd m).Only P := fun m => ⟨hmode m, fun _ => trivial⟩
  refine ⟨hfaults, fun f => ?_⟩
  apply Prog.Only.ite <;> intro _
  · apply Prog.Only.ite <;> intro _
    · refine ⟨hload, fun (m : Mode) => ?_⟩
      exact Prog.Only.ite (fun _ => trivial) (fun _ => haccept .idle)
    · apply Prog.Only.ite <;> intro _
      · exact Prog.Only.ite (fun _ => trivial) (fun _ => haccept .teleop)
      · apply Prog.Only.ite <;> intro _
        · exact Prog.Only.ite (fun _ => trivial) (fun _ => haccept .hold)
        · trivial
  · apply Prog.Only.ite <;> intro _
    · exact ⟨hestop, fun _ => haccept .estop⟩
    · apply Prog.Only.ite <;> intro _
      · exact ⟨hclear, fun _ => haccept .idle⟩
      · exact Prog.Only.ite (fun _ => trivial) (fun _ => trivial)

end Accesses

end SupervisorThread
