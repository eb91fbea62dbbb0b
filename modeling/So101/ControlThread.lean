import Mathlib.Data.Fin.VecNotation
import So101.ServoBus
import So101.SharedMemory

/-!
# The control thread

One cycle of `control_thread`, section by section: the reads, the mode transition, the
rate-limited goal, the snapshot and the next slot. The clock, the bytes read, the error
codes of the writes and the two words loaded are the input of the cycle.
-/
namespace ControlThread

open ServoBus
open Calibration (Joint CalibArm CFloat calibNormalize calibUnnormalize)
open SharedMemory (Sample Ctx Mode U32 int16 int32 int64 Code loadMode loadFaults orFaults
  andNotFaults)

def reopenAfter : ℕ := 50

inductive WriteSite where
  | leaderOff | reopenOff | enableGoal | enable | torqueOff | goal
  deriving DecidableEq, Repr

/-- What one cycle takes from outside. The times are the readings of `mono_ns` in the
order in which they are made; a read that fails has no bytes. -/
structure Input where
  wake : ℤ
  t0 : ℤ
  t1 : ℤ
  t2 : ℤ
  execEnd : ℤ
  now : ℤ
  leaderRead : Option (Joint → Fin 2 → Byte)
  followerRead : Option (Joint → Fin 8 → Byte)
  modeReq : U32
  faults : U32
  sent : WriteSite → Bool

/-- The locals of `control_thread` that live from cycle to cycle. -/
structure Control (F : Type*) where
  s : Sample F
  goal : Joint → ℤ
  hold : Joint → ℤ
  applied : Mode
  torque : Bool
  rampMask : Joint → Bool
  next : ℤ
  retryL : ℕ
  retryF : ℕ

variable {F : Type*} [CFloat F]

def armIds (arm : CalibArm) : Joint → Byte := fun j => (arm j).id

def Input.write (inp : Input) (site : WriteSite) (bus : Bus) (w : SyncWrite) : BusOp :=
  .write bus w (inp.sent site)

def wakeUp (inp : Input) (st : Control F) : Control F :=
  { st with s :=
    { st.s with
      cycle := st.s.cycle + 1
      tMonoNs := inp.wake
      wakeLatNs := int32 (inp.wake - st.next) } }

def nextStreak (ok : Bool) (streak : ℕ) : ℕ :=
  if ok then 0 else streak + if streak < 0xFFFF then 1 else 0

def register (b : Fin 8 → Byte) (i : Fin 8) (signBit : ℕ) : ℤ :=
  int16 (ftsDecodeSm (le16 (b i) (b (i + 1))) signBit)

def positionsRead (bf : Joint → Fin 8 → Byte) : Joint → ℤ := fun j => register (bf j) 0 15

def leaderPosition (b : Fin 2 → Byte) : ℤ := int16 (ftsDecodeSm (le16 (b 0) (b 1)) 15)

def leaderSample (c : Ctx) (inp : Input) (s : Sample F) : Sample F :=
  let s :=
    match inp.leaderRead with
    | some bl =>
      { s with
        leaderOk := true
        leaderPos := fun j => leaderPosition (bl j)
        leaderNorm := fun j => calibNormalize (c.calLeader j) (leaderPosition (bl j)) }
    | none => { s with leaderOk := false, leaderErrs := s.leaderErrs + 1 }
  { s with leaderStreak := nextStreak s.leaderOk s.leaderStreak }

def readLeader (c : Ctx) (inp : Input) (st : Control F) : Control F × List BusOp :=
  let s := leaderSample c inp st.s
  if s.leaderStreak ≥ reopenAfter ∧ s.cycle ≥ st.retryL then
    ({ st with s := s, retryL := s.cycle + reopenAfter },
      [.reopen .leader,
        inp.write .leaderOff .leader (setTorque (armIds c.calLeader) false)])
  else
    ({ st with s := s }, [])

def followerSample (c : Ctx) (inp : Input) (s : Sample F) : Sample F :=
  let s :=
    match inp.followerRead with
    | some bf =>
      { s with
        followerOk := true
        followerPos := fun j => register (bf j) 0 15
        followerVel := fun j => register (bf j) 2 15
        followerLoad := fun j => register (bf j) 4 10
        followerVolt := fun j => bf j 6
        followerTemp := fun j => bf j 7
        followerNorm := fun j => calibNormalize (c.calFollower j) (register (bf j) 0 15) }
    | none => { s with followerOk := false, followerErrs := s.followerErrs + 1 }
  { s with followerStreak := nextStreak s.followerOk s.followerStreak }

def readFollower (c : Ctx) (inp : Input) (st : Control F) : Control F × List BusOp :=
  let s := followerSample c inp st.s
  if s.followerStreak ≥ reopenAfter ∧ s.cycle ≥ st.retryF then
    ({ st with s := s, retryF := s.cycle + reopenAfter, torque := false },
      [.reopen .follower,
        inp.write .reopenOff .follower (setTorque (armIds c.calFollower) false)])
  else
    ({ st with s := s }, [])

/-- `if (req > SO101_MODE_ESTOP) req = SO101_MODE_IDLE`. -/
def loadedMode (w : U32) : Mode :=
  if w = Mode.teleop.word then .teleop
  else if w = Mode.hold.word then .hold
  else if w = Mode.estop.word then .estop
  else .idle

def enableTorque (c : Ctx) (inp : Input) (st : Control F) : Control F × List BusOp :=
  ({ st with goal := st.s.followerPos, torque := true },
    [inp.write .enableGoal .follower (writeGoal (armIds c.calFollower) st.s.followerPos),
      inp.write .enable .follower (setTorque (armIds c.calFollower) true)])

/-- The rest of the transition, for a `req` that has become `applied` where it is refused. -/
def enterMode (req : Mode) (st : Control F) : Control F :=
  let st :=
    if req = .hold ∧ st.torque then
      { st with hold := if st.s.followerOk then st.s.followerPos else st.goal }
    else st
  let st := if req ≠ st.applied ∧ st.torque then { st with rampMask := fun _ => true } else st
  { st with applied := req }

def modeTransition (c : Ctx) (inp : Input) (st : Control F) : Control F × List BusOp :=
  let req := loadedMode inp.modeReq
  if req = st.applied then
    (st, [])
  else if req = .teleop ∨ req = .hold then
    if st.torque then
      (enterMode req st, [])
    else if st.s.followerOk then
      let (st, ops) := enableTorque c inp st
      (enterMode req st, ops)
    else
      (enterMode st.applied st, [])
  else if st.torque then
    (enterMode req { st with torque := false },
      [inp.write .torqueOff .follower (setTorque (armIds c.calFollower) false)])
  else
    (enterMode req st, [])

/-- What the transition does to TORQUE_REFUSED: set where torque is refused, cleared
where it is enabled. -/
def noteRefusal (inp : Input) (st : Control F) : Code Unit :=
  let req := loadedMode inp.modeReq
  if req ≠ st.applied ∧ (req = .teleop ∨ req = .hold) ∧ ¬ st.torque then
    if st.s.followerOk then
      andNotFaults .torqueRefused
    else do
      let _ ← orFaults .torqueRefused
      pure ()
  else
    pure ()

def target (c : Ctx) (st : Control F) (j : Joint) : ℤ :=
  if st.applied = .teleop ∧ st.s.leaderOk then
    calibUnnormalize (c.calFollower j) (st.s.leaderNorm j)
  else if st.applied = .hold then st.hold j
  else st.goal j

/-- The ramp bit of the joint after the test for `ramp_done`. -/
def stillRamping (c : Ctx) (st : Control F) (j : Joint) : Bool :=
  st.rampMask j && !decide (|target c st j - st.goal j| ≤ c.rampDone)

def clampStep (step d : ℤ) : ℤ :=
  let d := if d > step then step else d
  if d < -step then -step else d

def steppedGoal (c : Ctx) (st : Control F) (j : Joint) : ℤ :=
  let step := if stillRamping c st j then c.rampStep else c.maxStep
  int16 (st.goal j + clampStep step (target c st j - st.goal j))

def moveGoal (c : Ctx) (inp : Input) (st : Control F) : Control F × List BusOp :=
  if st.torque then
    ({ st with goal := steppedGoal c st, rampMask := stillRamping c st },
      [inp.write .goal .follower (writeGoal (armIds c.calFollower) (steppedGoal c st))])
  else if st.s.followerOk then
    ({ st with goal := st.s.followerPos }, [])
  else
    (st, [])

/-- Bit `j` of the byte is bit `j` of the mask. -/
def maskByte (mask : Joint → Bool) : Byte :=
  (BitVec.ofBoolListLE (List.ofFn mask)).setWidth 8

def publish (inp : Input) (st : Control F) : Control F :=
  let rampMask := if st.torque then st.rampMask else fun _ => false
  let execNs := int32 (inp.execEnd - inp.wake)
  { st with
    rampMask := rampMask
    s :=
      { st.s with
        followerGoal := st.goal
        mode := st.applied
        torqueOn := st.torque
        ramping := maskByte rampMask
        faults := inp.faults
        busLeaderNs := int32 (inp.t1 - inp.t0)
        busFollowerNs := int32 (inp.t2 - inp.t1)
        execNs := execNs
        maxWakeLatNs := if st.s.wakeLatNs > st.s.maxWakeLatNs then st.s.wakeLatNs
          else st.s.maxWakeLatNs
        maxExecNs := if execNs > st.s.maxExecNs then execNs else st.s.maxExecNs } }

def addPeriod (period next : ℤ) : ℤ := int64 (next + period)

/-- `while (next < now)`, with the slots missed; `n` bounds its rounds. -/
def catchUp (period now : ℤ) : ℕ → ℤ × U32 → ℤ × U32
  | 0, r => r
  | n + 1, (next, missed) =>
    if next < now then catchUp period now n (addPeriod period next, missed + 1) else (next, missed)

/-- `next` has so many values: a loop that has not ended after as many rounds never ends. -/
def slotValues : ℕ := 2 ^ 64

def nextSlot (c : Ctx) (inp : Input) (st : Control F) : Control F :=
  let next := addPeriod c.period st.next
  if inp.now > next then
    let (next, missed) := catchUp c.period inp.now slotValues (next, st.s.missedSlots)
    { st with
      next := next
      s := { st.s with overruns := st.s.overruns + 1, missedSlots := missed } }
  else
    { st with next := next }

def readBuses (c : Ctx) (inp : Input) (st : Control F) : Control F × List BusOp :=
  let (st, opsL) := readLeader c inp (wakeUp inp st)
  let (st, opsF) := readFollower c inp st
  (st, opsL ++ opsF)

def controlCycle (c : Ctx) (inp : Input) (st : Control F) : Control F × List BusOp :=
  let (st, opsRead) := readBuses c inp st
  let (st, opsMode) := modeTransition c inp st
  let (st, opsGoal) := moveGoal c inp st
  (nextSlot c inp (publish inp st), opsRead ++ opsMode ++ opsGoal)

/-- One cycle with its accesses to the words. What the control thread does between them
touches the buses and its own locals only. -/
def controlRound {F : Type} [CFloat F] (c : Ctx) (st : Control F × List BusOp) (inp : Input) :
    Code (Control F × List BusOp) := do
  let m ← loadMode
  let inp := { inp with modeReq := m.word }
  noteRefusal inp (readBuses c inp st.1).1
  let f ← loadFaults
  pure (controlCycle c { inp with faults := f } st.1)

/-- `so101_sample_t s = {0}`. -/
def zeroSample : Sample F where
  cycle := 0
  tMonoNs := 0
  wakeLatNs := 0
  execNs := 0
  busLeaderNs := 0
  busFollowerNs := 0
  faults := 0
  mode := .idle
  leaderOk := false
  followerOk := false
  torqueOn := false
  leaderPos _ := 0
  followerGoal _ := 0
  followerPos _ := 0
  followerVel _ := 0
  followerLoad _ := 0
  followerVolt _ := 0
  followerTemp _ := 0
  leaderNorm _ := CFloat.ofInt 0
  followerNorm _ := CFloat.ofInt 0
  overruns := 0
  missedSlots := 0
  leaderErrs := 0
  followerErrs := 0
  maxWakeLatNs := 0
  maxExecNs := 0
  leaderStreak := 0
  followerStreak := 0
  ramping := 0

def startControl (c : Ctx) (now : ℤ) : Control F where
  s := zeroSample
  goal _ := 0
  hold _ := 0
  applied := .idle
  torque := false
  rampMask _ := false
  next := int64 (now + c.period)
  retryL := 0
  retryF := 0

structure ControlRun (F : Type*) where
  st : Control F
  log : List BusOp
  leaderSeen : Bool

/-- The follower and the leader are released before the first cycle. -/
def startUp (c : Ctx) (now : ℤ) (sentFollower sentLeader : Bool) : ControlRun F where
  st := startControl c now
  log := [.write .follower (setTorque (armIds c.calFollower) false) sentFollower,
    .write .leader (setTorque (armIds c.calLeader) false) sentLeader]
  leaderSeen := false

def nextCycle (c : Ctx) (r : ControlRun F) (inp : Input) : ControlRun F where
  st := (controlCycle c inp r.st).1
  log := r.log ++ (controlCycle c inp r.st).2
  leaderSeen := r.leaderSeen || inp.leaderRead.isSome

/-- `control_thread`, one cycle a step; what the cycle meets is arbitrary. -/
def controlThread (c : Ctx) : GuardedMachine.Machine (ControlRun F) Input :=
  .free (nextCycle c)

structure LeaderFields (F : Type*) where
  pos : Joint → ℤ
  norm : Joint → F

structure FollowerFields (F : Type*) where
  pos : Joint → ℤ
  vel : Joint → ℤ
  load : Joint → ℤ
  volt : Joint → Byte
  temp : Joint → Byte
  norm : Joint → F

def leaderFields (s : Sample F) : LeaderFields F := ⟨s.leaderPos, s.leaderNorm⟩

def followerFields (s : Sample F) : FollowerFields F :=
  ⟨s.followerPos, s.followerVel, s.followerLoad, s.followerVolt, s.followerTemp, s.followerNorm⟩

def decodeLeader (c : Ctx) (bl : Joint → Fin 2 → Byte) : LeaderFields F where
  pos j := leaderPosition (bl j)
  norm j := calibNormalize (c.calLeader j) (leaderPosition (bl j))

def decodeFollower (c : Ctx) (bf : Joint → Fin 8 → Byte) : FollowerFields F where
  pos j := register (bf j) 0 15
  vel j := register (bf j) 2 15
  load j := register (bf j) 4 10
  volt j := bf j 6
  temp j := bf j 7
  norm j := calibNormalize (c.calFollower j) (register (bf j) 0 15)

/-- The bytes of a servo that stands still at a position, at 6 V and 30 degrees. -/
def servoBytes (pos : ℤ) : Fin 8 → Byte :=
  let e := ftsEncodeSm pos 15
  ![lowByte e, highByte e, 0, 0, 0, 0, 60, 30]

/-- A cycle of 10 ms in IDLE in which both arms answer from the middle of their range and
every write arrives. -/
def quietInput : Input where
  wake := 0
  t0 := 0
  t1 := 1000000
  t2 := 3000000
  execEnd := 3000000
  now := 3000000
  leaderRead := some (fun _ => ![lowByte 2048, highByte 2048])
  followerRead := some (fun _ => servoBytes 2048)
  modeReq := Mode.idle.word
  faults := 0
  sent _ := true

end ControlThread
