import So101.Lib.StructFormat
import So101.SharedMemory

/-!
# The two descriptions of the shared memory

`so101_shm.h` declares the segment as a C struct; the Python client describes it a second
time, with offsets, packed formats and the order in which it names what it unpacks.
Every C object is kept as bits, `float` included, so that both sides mean the same word.
-/
namespace SharedLayout

open ByteRange StructLayout StructFormat
open Calibration (Joint)
open SharedMemory (U32 Cmd)

structure SampleT where
  cycle : BitVec 64
  tMonoNs : BitVec 64
  wakeLatNs : U32
  execNs : U32
  busLeaderNs : U32
  busFollowerNs : U32
  faults : U32
  mode : Byte
  leaderOk : Byte
  followerOk : Byte
  torqueOn : Byte
  leaderPos : Joint → BitVec 16
  followerGoal : Joint → BitVec 16
  followerPos : Joint → BitVec 16
  followerVel : Joint → BitVec 16
  followerLoad : Joint → BitVec 16
  followerVolt : Joint → Byte
  followerTemp : Joint → Byte
  leaderNorm : Joint → U32
  followerNorm : Joint → U32
  overruns : U32
  missedSlots : U32
  leaderErrs : U32
  followerErrs : U32
  maxWakeLatNs : U32
  maxExecNs : U32
  leaderStreak : BitVec 16
  followerStreak : BitVec 16
  ramping : Byte
  pad1 : Fin 3 → Byte

structure AckT where
  id : U32
  result : U32

structure ShmT where
  magic : U32
  version : U32
  size : U32
  daemonPid : U32
  periodNs : U32
  nJoints : U32
  jointNames : Joint → Fin 16 → Byte
  seq : U32
  pad0 : U32
  s : SampleT
  modeReq : U32
  faults : U32
  supBeat : BitVec 64
  cmd : Cmd
  ack : AckT

/-- The integer types of each width, signed or not, and with 32 bits also `float`. -/
def word8 : CType (BitVec 8) := scalar 1 fun x => x
def word16 : CType (BitVec 16) := scalar 2 fun x => x
def word32 : CType (BitVec 32) := scalar 4 fun x => x
def word64 : CType (BitVec 64) := scalar 8 fun x => x

def sampleType : CType SampleT :=
  struct
    [word64.of (·.cycle), word64.of (·.tMonoNs),
      word32.of (·.wakeLatNs), word32.of (·.execNs), word32.of (·.busLeaderNs),
      word32.of (·.busFollowerNs), word32.of (·.faults),
      word8.of (·.mode), word8.of (·.leaderOk), word8.of (·.followerOk), word8.of (·.torqueOn),
      (array 6 word16).of (·.leaderPos), (array 6 word16).of (·.followerGoal),
      (array 6 word16).of (·.followerPos), (array 6 word16).of (·.followerVel),
      (array 6 word16).of (·.followerLoad),
      (array 6 word8).of (·.followerVolt), (array 6 word8).of (·.followerTemp),
      (array 6 word32).of (·.leaderNorm), (array 6 word32).of (·.followerNorm),
      word32.of (·.overruns), word32.of (·.missedSlots), word32.of (·.leaderErrs),
      word32.of (·.followerErrs), word32.of (·.maxWakeLatNs), word32.of (·.maxExecNs),
      word16.of (·.leaderStreak), word16.of (·.followerStreak), word8.of (·.ramping),
      (array 3 word8).of (·.pad1)]

def cmdMembers : List (CType Cmd) :=
  [word32.of (·.id), word32.of (·.cmd), word32.of (·.arg), word32.of (·.clientPid)]

def cmdType : CType Cmd := struct cmdMembers

def ackType : CType AckT := struct [word32.of (·.id), word32.of (·.result)]

def shmMembers : List (CType ShmT) :=
  [word32.of (·.magic), word32.of (·.version), word32.of (·.size), word32.of (·.daemonPid),
    word32.of (·.periodNs), word32.of (·.nJoints),
    (array 6 (array 16 word8)).of (·.jointNames),
    word32.of (·.seq), word32.of (·.pad0), sampleType.of (·.s),
    word32.of (·.modeReq), word32.of (·.faults), word64.of (·.supBeat),
    cmdType.of (·.cmd), ackType.of (·.ack)]

def shmType : CType ShmT := struct shmMembers

example : shmType.size = 360 := by decide

def so101ShmMagic : U32 := 0x31303153
def so101ShmVersion : U32 := 2

/-- The segment that holds `v`; the padding of the C layout holds whatever was there. -/
def segment (v : ShmT) (old : ℕ → Byte) : List Byte :=
  shmType.store v (List.ofFn fun i : Fin shmType.size => old i) 0

/-- `offsetof` of the `k`-th member. -/
def offsetOf {α : Type} (members : List (CType α)) (k : ℕ) : ℕ :=
  ((placed 0 members)[k]?.map Prod.fst).getD 0

def word32At (mm : List Byte) (o : ℕ) : U32 := BitVec.ofNat 32 (leNat (slice mm o 4))

/-- `so101_cmd_t cmd = shm->cmd`. -/
def copyCmd (mm : List Byte) : Cmd where
  id := word32At mm (offsetOf shmMembers 13 + offsetOf cmdMembers 0)
  cmd := word32At mm (offsetOf shmMembers 13 + offsetOf cmdMembers 1)
  arg := word32At mm (offsetOf shmMembers 13 + offsetOf cmdMembers 2)
  clientPid := word32At mm (offsetOf shmMembers 13 + offsetOf cmdMembers 3)

def magic : ℤ := 0x31303153
def version : ℤ := 2
def nj : ℕ := 6

def headerFormat : Format := [(1, .I), (1, .I), (1, .I), (1, .i), (1, .I), (1, .I)]
def offNames : ℕ := 24
def offSeq : ℕ := 120
def offSample : ℕ := 128
def offModeReq : ℕ := 320
def offFaults : ℕ := 324
def offSupBeat : ℕ := 328
def offCmd : ℕ := 336
def offAck : ℕ := 352
def shmSize : ℕ := 360

def sampleFormat : Format :=
  [(1, .Q), (1, .q),
    (1, .i), (1, .i), (1, .i), (1, .i),
    (1, .I),
    (1, .B), (1, .B), (1, .B), (1, .B),
    (6, .h), (6, .h), (6, .h), (6, .h), (6, .h),
    (6, .B), (6, .B),
    (6, .f), (6, .f),
    (1, .I), (1, .I), (1, .I), (1, .I),
    (1, .i), (1, .i),
    (1, .H), (1, .H), (1, .B), (3, .x)]

def u32Format : Format := [(1, .I)]
def cmdFormat : Format := [(1, .I), (1, .I), (1, .i), (1, .i)]
def ackFormat : Format := [(1, .I), (1, .i)]

def u32At (mm : List Byte) (o : ℕ) : Option ℤ :=
  match u32Format.unpackFrom mm o with
  | some [.int n] => some n
  | _ => none

structure Client where
  pid : Value
  periodNs : Value
  jointNames : List (List Byte)
  deriving DecidableEq

def jointName (mm : List Byte) (j : ℕ) : List Byte :=
  (slice mm (offNames + 16 * j) 16).takeWhile (· ≠ 0#8)

def attach (mm : List Byte) : Option Client :=
  match headerFormat.unpackFrom mm 0 with
  | some [.int m, .int v, .int size, pid, periodNs, .int nJoints] =>
    if m ≠ magic ∨ v ≠ version ∨ size ≠ shmSize then
      none
    else
      some
        { pid := pid
          periodNs := periodNs
          jointNames := (List.range nJoints.toNat).map (jointName mm) }
  | _ => none

structure LeaderReading where
  ok : Bool
  pos : List Value
  norm : List Value
  deriving DecidableEq

structure FollowerReading where
  ok : Bool
  pos : List Value
  goal : List Value
  norm : List Value
  vel : List Value
  load : List Value
  volt : List Value
  temp : List Value
  deriving DecidableEq

structure Timing where
  wakeLat : Value
  exec : Value
  busLeader : Value
  busFollower : Value
  maxWakeLat : Value
  maxExec : Value
  deriving DecidableEq

structure Counters where
  overruns : Value
  missed : Value
  leaderErrs : Value
  followerErrs : Value
  deriving DecidableEq

/-- The dictionary of `So101.read`, in the units of the segment. -/
structure Snapshot where
  cycle : Value
  t : Value
  mode : Value
  torque : Bool
  ramping : Bool
  faultBits : Value
  leader : LeaderReading
  follower : FollowerReading
  timingUs : Timing
  counters : Counters
  deriving DecidableEq

def take (v : List Value) (i : ℕ) : List Value × ℕ := (slice v i nj, i + nj)

/-- The tuple unpacking of `So101.read`; a wrong number of values is an error. -/
def nameValues (v : List Value) : Option Snapshot :=
  match v.take 11 with
  | [cycle, tNs, wake, exe, busL, busF, faults, mode, lOk, fOk, torque] =>
    let i := 11
    let (lPos, i) := take v i
    let (fGoal, i) := take v i
    let (fPos, i) := take v i
    let (fVel, i) := take v i
    let (fLoad, i) := take v i
    let (fVolt, i) := take v i
    let (fTemp, i) := take v i
    let (lNorm, i) := take v i
    let (fNorm, i) := take v i
    match v.drop i with
    | [overruns, missed, lErrs, fErrs, maxWake, maxExec, _lSt, _fSt, ramping] =>
      some
        { cycle := cycle
          t := tNs
          mode := mode
          torque := torque.truth
          ramping := ramping.truth
          faultBits := faults
          leader := { ok := lOk.truth, pos := lPos, norm := lNorm }
          follower :=
            { ok := fOk.truth, pos := fPos, goal := fGoal, norm := fNorm, vel := fVel,
              load := fLoad, volt := fVolt, temp := fTemp }
          timingUs :=
            { wakeLat := wake, exec := exe, busLeader := busL, busFollower := busF,
              maxWakeLat := maxWake, maxExec := maxExec }
          counters :=
            { overruns := overruns, missed := missed, leaderErrs := lErrs,
              followerErrs := fErrs } }
    | _ => none
  | _ => none

/-- `read_raw` while nobody writes: all its tries go alike, and an odd sequence ends in
`TimeoutError`. -/
def readRaw (mm : List Byte) : Option (List Value) :=
  match u32At mm offSeq with
  | some q1 =>
    if q1 % 2 = 1 then none
    else sampleFormat.unpack (slice mm offSample (calcsize sampleFormat))
  | none => none

def read (mm : List Byte) : Option Snapshot := (readRaw mm).bind nameValues

inductive Command where
  | idle | teleop | hold | estop | reset | ping
  deriving DecidableEq, Repr

def commands : Command → ℤ × ℤ
  | .idle => (1, 0)
  | .teleop => (1, 1)
  | .hold => (1, 2)
  | .estop => (2, 0)
  | .reset => (3, 0)
  | .ping => (4, 0)

/-- `((os.getpid() << 12) ^ time.monotonic_ns()) & 0xFFFFFFFF or 1`. -/
def commandId (pid ns : ℕ) : ℕ :=
  let cid := ((pid <<< 12) ^^^ ns) &&& 0xFFFFFFFF
  if cid = 0 then 1 else cid

/-- The mailbox as `So101.command` fills it, the id last. -/
def packCommand (mm : List Byte) (cid cmd arg pid : ℤ) : Option (List Byte) :=
  (cmdFormat.packInto mm offCmd [.int 0, .int cmd, .int arg, .int pid]).bind
    fun mm => u32Format.packInto mm offCmd [.int cid]

def command (name : Command) (pid ns : ℕ) (mm : List Byte) : Option (List Byte) :=
  packCommand mm (commandId pid ns) (commands name).1 (commands name).2 pid

def unsigned {w : ℕ} (x : BitVec w) : Value := .int x.toNat
def signed {w : ℕ} (x : BitVec w) : Value := .int x.toInt
def perJoint {w : ℕ} (value : BitVec w → Value) (xs : Joint → BitVec w) : List Value :=
  List.ofFn fun j => value (xs j)

def SampleT.values (s : SampleT) : List Value :=
  [unsigned s.cycle, signed s.tMonoNs, signed s.wakeLatNs, signed s.execNs,
    signed s.busLeaderNs, signed s.busFollowerNs, unsigned s.faults,
    unsigned s.mode, unsigned s.leaderOk, unsigned s.followerOk, unsigned s.torqueOn] ++
  (perJoint signed s.leaderPos ++ perJoint signed s.followerGoal ++
    perJoint signed s.followerPos ++ perJoint signed s.followerVel ++
    perJoint signed s.followerLoad ++
    perJoint unsigned s.followerVolt ++ perJoint unsigned s.followerTemp ++
    perJoint .float s.leaderNorm ++ perJoint .float s.followerNorm) ++
  [unsigned s.overruns, unsigned s.missedSlots, unsigned s.leaderErrs, unsigned s.followerErrs,
    signed s.maxWakeLatNs, signed s.maxExecNs,
    unsigned s.leaderStreak, unsigned s.followerStreak, unsigned s.ramping]

/-- Each entry of the dictionary with the C member that it stands for. -/
def SampleT.exposed (s : SampleT) : Snapshot where
  cycle := unsigned s.cycle
  t := signed s.tMonoNs
  mode := unsigned s.mode
  torque := s.torqueOn ≠ 0
  ramping := s.ramping ≠ 0
  faultBits := unsigned s.faults
  leader :=
    { ok := s.leaderOk ≠ 0
      pos := perJoint signed s.leaderPos
      norm := perJoint .float s.leaderNorm }
  follower :=
    { ok := s.followerOk ≠ 0
      pos := perJoint signed s.followerPos
      goal := perJoint signed s.followerGoal
      norm := perJoint .float s.followerNorm
      vel := perJoint signed s.followerVel
      load := perJoint signed s.followerLoad
      volt := perJoint unsigned s.followerVolt
      temp := perJoint unsigned s.followerTemp }
  timingUs :=
    { wakeLat := signed s.wakeLatNs
      exec := signed s.execNs
      busLeader := signed s.busLeaderNs
      busFollower := signed s.busFollowerNs
      maxWakeLat := signed s.maxWakeLatNs
      maxExec := signed s.maxExecNs }
  counters :=
    { overruns := unsigned s.overruns
      missed := unsigned s.missedSlots
      leaderErrs := unsigned s.leaderErrs
      followerErrs := unsigned s.followerErrs }

theorem truth_unsigned {w : ℕ} (x : BitVec w) : (unsigned x).truth = decide (x ≠ 0) := by
  simp [unsigned, Value.truth, BitVec.toNat_eq]

theorem sample_fits : Fits sampleFormat sampleType := ⟨by decide, by decide⟩
theorem cmd_fits : Fits cmdFormat cmdType := ⟨by decide, by decide⟩
theorem ack_fits : Fits ackFormat ackType := ⟨by decide, by decide⟩
theorem u32_fits : Fits u32Format word32 := ⟨by decide, by decide⟩
theorem u64_fits : Fits [(1, .Q)] word64 := ⟨by decide, by decide⟩

theorem sample_cell_values (s : SampleT) :
    cellValues sampleFormat.codes sampleType.cells s = s.values := by
  simp [cellValues, SampleT.values, unsigned, signed, perJoint, sampleFormat, Format.codes,
    sampleType, struct, placed, cellsAt, array, elements, CType.of, List.finRange_succ,
    Cell.shift, Cell.of, word8, word16, word32, word64, scalar, List.replicate,
    List.reduceOption, Code.value]

theorem name_values (s : SampleT) : nameValues s.values = some s.exposed := by
  simp [SampleT.values, SampleT.exposed, perJoint, nameValues, take, nj, slice, truth_unsigned]

/-- All that the client reads in a segment is the value the daemon has there. -/
structure Agrees (v : ShmT) (mm : List Byte) : Prop where
  header : headerFormat.unpackFrom mm 0 =
    some [unsigned v.magic, unsigned v.version, unsigned v.size, signed v.daemonPid,
      unsigned v.periodNs, unsigned v.nJoints]
  names : ∀ j : Joint, jointName mm j = (List.ofFn (v.jointNames j)).takeWhile (· ≠ 0#8)
  seq : u32At mm offSeq = some v.seq.toNat
  sample : (sampleFormat.unpack (slice mm offSample (calcsize sampleFormat))).bind nameValues =
    some v.s.exposed
  lowCycle : u32At mm offSample = some ((v.s.cycle.toNat % 2 ^ 32 : ℕ) : ℤ)
  modeReq : u32At mm offModeReq = some v.modeReq.toNat
  faults : u32At mm offFaults = some v.faults.toNat
  supBeat : Format.unpackFrom [(1, .Q)] mm offSupBeat = some [unsigned v.supBeat]
  cmd : cmdFormat.unpackFrom mm offCmd =
    some [unsigned v.cmd.id, unsigned v.cmd.cmd, signed v.cmd.arg, signed v.cmd.clientPid]
  ack : ackFormat.unpackFrom mm offAck = some [unsigned v.ack.id, signed v.ack.result]

section Segment

variable {mm : List Byte} {v : ShmT}

theorem member_holds {k o : ℕ} {t : CType ShmT} (h : shmType.Holds mm 0 v)
    (hk : (placed 0 shmMembers)[k]? = some (o, t)) : t.Holds mm o v := by
  have hmember := holds_struct.mp h _ (List.mem_of_getElem? hk)
  rwa [Nat.zero_add] at hmember

theorem word32_member {k o : ℕ} {get : ShmT → U32} (h : shmType.Holds mm 0 v)
    (hk : (placed 0 shmMembers)[k]? = some (o, word32.of get)) : word32.Holds mm o (get v) :=
  holds_of.mp (member_holds h hk)

theorem u32_at {x : U32} {o : ℕ} (h : word32.Holds mm o x) (hfit : o + 4 ≤ mm.length) :
    u32At mm o = some (x.toNat : ℤ) := by
  rw [u32At, u32_fits.unpackFrom hfit h]
  rfl

theorem header_places : spans 0 headerFormat.codes = (shmType.cells.take 6).map Cell.span := by
  decide

theorem header_unpacked (h : shmType.Holds mm 0 v) (hlen : mm.length = shmType.size) :
    headerFormat.unpackFrom mm 0 =
      some [unsigned v.magic, unsigned v.version, unsigned v.size, signed v.daemonPid,
        unsigned v.periodNs, unsigned v.nJoints] := by
  have hfit : 0 + calcsize headerFormat ≤ mm.length := by
    rw [hlen]
    decide
  have hheld : ∀ c ∈ shmType.cells.take 6, leNat (slice mm (0 + c.offset) c.width) = c.bits v :=
    fun c hc => h.word (List.mem_of_mem_take hc)
  rw [Format.unpackFrom, if_pos hfit]
  refine congrArg some ((unpack_cells header_places hheld).trans ?_)
  simp [cellValues, unsigned, signed, headerFormat, Format.codes, shmType, shmMembers, struct,
    placed, cellsAt, CType.of, Cell.shift, Cell.of, word32, scalar, List.replicate,
    List.reduceOption, Code.value]

theorem joint_name (h : shmType.Holds mm 0 v) (j : Joint) :
    jointName mm j = (List.ofFn (v.jointNames j)).takeWhile (· ≠ 0#8) := by
  have hnames : (array 6 (array 16 word8)).Holds mm offNames v.jointNames :=
    holds_of.mp (@member_holds _ _ 6 _ _ h rfl)
  have hname := holds_array.mp hnames j
  rw [jointName, Nat.mul_comm]
  exact congrArg _ (slice_byte_array (fun _ => rfl) hname)

theorem sample_read (h : shmType.Holds mm 0 v) (hlen : mm.length = shmType.size) :
    (sampleFormat.unpack (slice mm offSample (calcsize sampleFormat))).bind nameValues =
      some v.s.exposed := by
  have hsample : sampleType.Holds mm offSample v.s := holds_of.mp (@member_holds _ _ 9 _ _ h rfl)
  have hfit : offSample + sampleType.size ≤ mm.length := by
    rw [hlen]
    decide
  rw [sample_fits.size, sample_fits.unpack hfit hsample, sample_cell_values, Option.bind_some,
    name_values]

theorem low_cycle (h : shmType.Holds mm 0 v) (hlen : mm.length = shmType.size) :
    u32At mm offSample = some ((v.s.cycle.toNat % 2 ^ 32 : ℕ) : ℤ) := by
  have hsample : sampleType.Holds mm offSample v.s := holds_of.mp (@member_holds _ _ 9 _ _ h rfl)
  have hcycle : slice mm offSample 8 = leBytes 8 v.s.cycle.toNat :=
    hsample ⟨0, 8, fun s => s.cycle.toNat⟩ (List.mem_of_getElem? (i := 0) rfl)
  have hlow : slice mm offSample 4 = leBytes 4 v.s.cycle.toNat := by
    rw [← take_le_bytes 4 4, ← hcycle, slice, slice, List.take_take]
    rfl
  have hfit : offSample + calcsize u32Format ≤ mm.length := by
    rw [hlen]
    decide
  have hword : unpackAt u32Format.codes mm offSample =
      [.int (leNat (slice mm offSample 4))] := rfl
  rw [u32At, Format.unpackFrom, if_pos hfit, hword, hlow, le_nat_le_bytes]
  rfl

theorem cmd_read {o : ℕ} {x : Cmd} (h : cmdType.Holds mm o x) (hfit : o + 16 ≤ mm.length) :
    cmdFormat.unpackFrom mm o =
      some [unsigned x.id, unsigned x.cmd, signed x.arg, signed x.clientPid] := by
  rw [cmd_fits.unpackFrom hfit h]
  simp [cellValues, unsigned, signed, cmdFormat, Format.codes, cmdType, cmdMembers, struct, placed,
    cellsAt, CType.of, Cell.shift, Cell.of, word32, scalar, List.replicate, List.reduceOption,
    Code.value]

theorem ack_read {o : ℕ} {x : AckT} (h : ackType.Holds mm o x) (hfit : o + 8 ≤ mm.length) :
    ackFormat.unpackFrom mm o = some [unsigned x.id, signed x.result] := by
  rw [ack_fits.unpackFrom hfit h]
  simp [cellValues, unsigned, signed, ackFormat, Format.codes, ackType, struct, placed, cellsAt,
    CType.of, Cell.shift, Cell.of, word32, scalar, List.replicate, List.reduceOption, Code.value]

/-- The two descriptions agree on every value of the segment. -/
theorem segment_agrees (h : shmType.Holds mm 0 v) (hlen : mm.length = shmType.size) :
    Agrees v mm where
  header := header_unpacked h hlen
  names := joint_name h
  seq := u32_at (@word32_member _ _ 7 _ _ h rfl) (by rw [hlen]; decide)
  sample := sample_read h hlen
  lowCycle := low_cycle h hlen
  modeReq := u32_at (@word32_member _ _ 10 _ _ h rfl) (by rw [hlen]; decide)
  faults := u32_at (@word32_member _ _ 11 _ _ h rfl) (by rw [hlen]; decide)
  supBeat := u64_fits.unpackFrom (by rw [hlen]; decide)
    (holds_of.mp (@member_holds _ _ 12 offSupBeat (word64.of (·.supBeat)) h rfl))
  cmd := cmd_read (holds_of.mp (@member_holds _ _ 13 offCmd (cmdType.of (·.cmd)) h rfl))
    (by rw [hlen]; decide)
  ack := ack_read (holds_of.mp (@member_holds _ _ 14 offAck (ackType.of (·.ack)) h rfl))
    (by rw [hlen]; decide)

theorem segment_length (v : ShmT) (old : ℕ → Byte) :
    (segment v old).length = shmType.size := by
  have hold : (List.ofFn fun i : Fin shmType.size => old i).length = shmType.size :=
    List.length_ofFn
  rw [segment, CType.store, length_store_cells shmType.sound.inside (by omega), hold]

theorem segment_holds (v : ShmT) (old : ℕ → Byte) : shmType.Holds (segment v old) 0 v :=
  shmType.store_holds v (by rw [List.length_ofFn, Nat.zero_add])

theorem word32_toNat (mm : List Byte) (o : ℕ) :
    (word32At mm o).toNat = leNat (slice mm o 4) := by
  have hlt := le_nat_lt (slice mm o 4)
  have hlen : (slice mm o 4).length ≤ 4 := List.length_take_le ..
  have hpow : 256 ^ (slice mm o 4).length ≤ 256 ^ 4 := Nat.pow_le_pow_right (by decide) hlen
  rw [word32At, BitVec.toNat_ofNat, Nat.mod_eq_of_lt (by omega)]

theorem copy_cmd {cmd : Cmd} (h : cmdType.Holds mm (offsetOf shmMembers 13) cmd) :
    copyCmd mm = cmd := by
  have hword : ∀ {k : ℕ} {get : Cmd → U32},
      (placed 0 cmdMembers)[k]? = some (offsetOf cmdMembers k, word32.of get) →
      word32At mm (offsetOf shmMembers 13 + offsetOf cmdMembers k) = get cmd := by
    intro k get hk
    have hmember := holds_of.mp (holds_struct.mp h _ (List.mem_of_getElem? hk))
    apply BitVec.eq_of_toNat_eq
    rw [word32_toNat]
    exact hmember.word (List.mem_singleton.mpr rfl)
  rw [copyCmd, @hword 0 (·.id) rfl, @hword 1 (·.cmd) rfl, @hword 2 (·.arg) rfl,
    @hword 3 (·.clientPid) rfl]

theorem cmd_words (mm : List Byte) : unpackAt cmdFormat.codes mm offCmd =
    [unsigned (word32At mm offCmd), unsigned (word32At mm (offCmd + 4)),
      signed (word32At mm (offCmd + 8)), signed (word32At mm (offCmd + 12))] := by
  rw [unsigned, unsigned, word32_toNat, word32_toNat]
  rfl

/-- What has been packed is what the supervisor copies, whatever the numbers are. -/
theorem pack_command_copied {mm' : List Byte} {cid cmd arg pid : ℤ}
    (h : packCommand mm cid cmd arg pid = some mm') :
    ((copyCmd mm').id.toNat : ℤ) = cid ∧ ((copyCmd mm').cmd.toNat : ℤ) = cmd ∧
      (copyCmd mm').arg.toInt = arg ∧ (copyCmd mm').clientPid.toInt = pid := by
  obtain ⟨mm₁, hcmd, hid⟩ := Option.bind_eq_some_iff.mp h
  obtain ⟨_, _, hfit, rfl, hvalues⟩ := packed_into hcmd
  obtain ⟨q, hq, hfitq, rfl, hvalue⟩ := packed_into hid
  have hq4 : q.length = 4 := hq
  generalize overwrite mm offCmd _ = mm₁ at hvalues hvalue hfitq ⊢
  -- the id is written over the zero only
  have hrest : ∀ d, 4 ≤ d → word32At (overwrite mm₁ offCmd q) (offCmd + d) =
      word32At mm₁ (offCmd + d) := by
    intro d hd
    rw [word32At, word32At, slice_overwrite_of_disjoint (by omega) q (Or.inr (by omega))]
  have hid : unpackAt u32Format.codes (overwrite mm₁ offCmd q) offCmd =
      [unsigned (word32At (overwrite mm₁ offCmd q) offCmd)] := by
    rw [unsigned, word32_toNat]
    rfl
  rw [hid] at hvalue
  rw [cmd_words] at hvalues
  simp only [unsigned, signed, List.cons.injEq, Value.int.injEq, and_true] at hvalue hvalues
  obtain ⟨_, hcmd, harg, hpid⟩ := hvalues
  have hcopy : copyCmd (overwrite mm₁ offCmd q) =
      ⟨word32At (overwrite mm₁ offCmd q) offCmd, word32At mm₁ (offCmd + 4),
        word32At mm₁ (offCmd + 8), word32At mm₁ (offCmd + 12)⟩ := by
    rw [← hrest 4 (by decide), ← hrest 8 (by decide), ← hrest 12 (by decide)]
    rfl
  rw [hcopy]
  exact ⟨hvalue, hcmd, harg, hpid⟩

theorem command_id_range (pid ns : ℕ) : 0 < commandId pid ns ∧ commandId pid ns < 2 ^ 32 := by
  have hlt : ((pid <<< 12) ^^^ ns) &&& 0xFFFFFFFF < 2 ^ 32 :=
    Nat.lt_of_le_of_lt Nat.and_le_right (by decide)
  simp only [commandId]
  split_ifs with hzero
  · exact ⟨by decide, by decide⟩
  · exact ⟨Nat.pos_of_ne_zero hzero, hlt⟩

theorem commands_range (name : Command) : 0 ≤ (commands name).1 ∧ (commands name).1 < 2 ^ 32 ∧
    -2 ^ 31 ≤ (commands name).2 ∧ (commands name).2 < 2 ^ 31 := by
  cases name <;> decide

theorem command_packed (name : Command) (pid : Fin (2 ^ 31)) (ns : ℕ)
    (hlen : mm.length = shmType.size) : ∃ mm', command name pid ns mm = some mm' := by
  obtain ⟨_, hid⟩ := command_id_range pid ns
  obtain ⟨hcmd, hcmd', harg, harg'⟩ := commands_range name
  have hpid : (Code.i.bits (.int (pid : ℕ))).isSome :=
    packs_i (by omega) (by exact_mod_cast pid.isLt)
  have hid : (Code.I.bits (.int (commandId pid ns))).isSome :=
    packs_I (by omega) (by exact_mod_cast hid)
  have hfit : offCmd + calcsize cmdFormat ≤ mm.length := by
    rw [hlen]
    decide
  obtain ⟨mm₁, hmm₁⟩ := pack_into_fits hfit (by decide)
    (.cons (packs_I le_rfl (by decide)) (.cons (packs_I hcmd hcmd')
      (.cons (packs_i harg harg') (.cons hpid .nil))))
  obtain ⟨p, hp, hle, rfl, _⟩ := packed_into hmm₁
  have hfit₁ : offCmd + calcsize u32Format ≤ (overwrite mm offCmd p).length := by
    rw [length_overwrite hle, hlen]
    decide
  obtain ⟨mm₂, hmm₂⟩ := pack_into_fits hfit₁ (by decide) (.cons hid .nil)
  exact ⟨mm₂, by rw [command, packCommand, hmm₁, Option.bind_some, hmm₂]⟩

end Segment

/-- The client attaches to a segment exactly if magic, version and size are those of the C
header, and then has the pid, the period and the names of the joints. -/
theorem attach_segment (v : ShmT) (old : ℕ → Byte) (hjoints : v.nJoints = 6) :
    attach (segment v old) =
      if v.magic = so101ShmMagic ∧ v.version = so101ShmVersion ∧ v.size.toNat = shmType.size then
        some
          { pid := signed v.daemonPid
            periodNs := unsigned v.periodNs
            jointNames := List.ofFn fun j => (List.ofFn (v.jointNames j)).takeWhile (· ≠ 0#8) }
      else none := by
  have hagrees := segment_agrees (segment_holds v old) (segment_length v old)
  have hmagic : (v.magic.toNat : ℤ) = magic ↔ v.magic = so101ShmMagic := by
    rw [← BitVec.toNat_inj]
    exact Int.ofNat_inj
  have hversion : (v.version.toNat : ℤ) = version ↔ v.version = so101ShmVersion := by
    rw [← BitVec.toNat_inj]
    exact Int.ofNat_inj
  have hsize : (v.size.toNat : ℤ) = shmSize ↔ v.size.toNat = shmType.size := Int.ofNat_inj
  have hnames : (List.range 6).map (jointName (segment v old)) =
      List.ofFn fun j => (List.ofFn (v.jointNames j)).takeWhile (· ≠ 0#8) := by
    simp only [← hagrees.names]
    rfl
  rw [attach, hagrees.header, hjoints]
  simp only [unsigned, ne_eq, hmagic, hversion, hsize, ← not_and_or, ite_not]
  split_ifs
  · exact congrArg (fun names => some (Client.mk _ _ names)) hnames
  · rfl

/-- A client that is not in the way of a write reads what the daemon has published. -/
theorem read_segment (v : ShmT) (old : ℕ → Byte) :
    read (segment v old) = if v.seq.toNat % 2 = 1 then none else some v.s.exposed := by
  have hagrees := segment_agrees (segment_holds v old) (segment_length v old)
  have hodd : (v.seq.toNat : ℤ) % 2 = 1 ↔ v.seq.toNat % 2 = 1 := by omega
  rw [read, readRaw, hagrees.seq]
  change Option.bind (if (v.seq.toNat : ℤ) % 2 = 1 then none else _) nameValues = _
  simp only [hodd]
  split_ifs
  · rfl
  · exact hagrees.sample

theorem copy_cmd_segment (v : ShmT) (old : ℕ → Byte) : copyCmd (segment v old) = v.cmd :=
  copy_cmd (holds_of.mp (@member_holds _ _ 13 _ (cmdType.of (·.cmd)) (segment_holds v old) rfl))

/-- The C writer and the Python reader describe one format: the client reads the value that
lies in the segment, whatever the padding holds, and the supervisor copies the command
that the client packs. -/
theorem python_reads_c (v : ShmT) (old : ℕ → Byte) :
    Agrees v (segment v old) ∧
      ∀ (name : Command) (pid : Fin (2 ^ 31)) (ns : ℕ),
        ∃ mm, command name pid ns (segment v old) = some mm ∧
          (copyCmd mm).id.toNat = commandId pid ns ∧ (copyCmd mm).id ≠ 0 ∧
          ((copyCmd mm).cmd.toNat : ℤ) = (commands name).1 ∧
          (copyCmd mm).arg.toInt = (commands name).2 ∧
          (copyCmd mm).clientPid.toInt = pid := by
  have hlen := segment_length v old
  refine ⟨segment_agrees (segment_holds v old) hlen, ?_⟩
  intro name pid ns
  obtain ⟨mm, hmm⟩ := command_packed name pid ns hlen
  obtain ⟨hid, hcmd, harg, hpid⟩ := pack_command_copied hmm
  have hid' : (copyCmd mm).id.toNat = commandId pid ns := by exact_mod_cast hid
  refine ⟨mm, hmm, hid', ?_, hcmd, harg, hpid⟩
  intro hzero
  have hpos := (command_id_range pid ns).1
  rw [← hid', hzero] at hpos
  exact absurd hpos (by decide)

end SharedLayout
