import Mathlib.Data.Fintype.Basic
import Mathlib.Order.BoundedOrder.Basic
import Mathlib.Order.Lattice
import So101.Lib.AtomicProgram
import So101.Lib.Interlock
import So101.Calibration

/-!
# The shared-memory contract

Enumerators, the snapshot record and the words through which the supervisor and the
control thread talk. `int` values are integers; 32-bit words are bit vectors.
Padding and the static header are not modelled.
-/
namespace SharedMemory

open AtomicProgram
open Calibration (Joint CalibArm)

abbrev U32 := BitVec 32
abbrev Byte := BitVec 8

/-- `(int16_t)x`, `(int32_t)x` and `(int64_t)x`. A sum that leaves `int` or `int64_t`, which C
leaves undefined, wraps in the same way. -/
def int16 (x : ℤ) : ℤ := x.bmod (2 ^ 16)
def int32 (x : ℤ) : ℤ := x.bmod (2 ^ 32)
def int64 (x : ℤ) : ℤ := x.bmod (2 ^ 64)

theorem int16_of_mem {x : ℤ} (hlo : -2 ^ 15 ≤ x) (hhi : x < 2 ^ 15) : int16 x = x := by
  unfold int16
  rw [Int.bmod_eq_of_le] <;> omega

theorem int32_mem (x : ℤ) : -2 ^ 31 ≤ int32 x ∧ int32 x < 2 ^ 31 := by
  have hlo := Int.le_bmod (x := x) (m := 2 ^ 32) (by decide)
  have hhi := Int.bmod_lt (x := x) (m := 2 ^ 32) (by decide)
  unfold int32
  omega

theorem int32_of_mem {x : ℤ} (hlo : -2 ^ 31 ≤ x) (hhi : x < 2 ^ 31) : int32 x = x := by
  unfold int32
  rw [Int.bmod_eq_of_le] <;> omega

theorem int32_eq_iff {x : ℤ} : int32 x = x ↔ -2 ^ 31 ≤ x ∧ x < 2 ^ 31 := by
  constructor
  · intro h
    exact h ▸ int32_mem x
  · rintro ⟨hlo, hhi⟩
    exact int32_of_mem hlo hhi

@[simp] theorem int32_add_one (x : ℤ) : int32 (int32 x + 1) = int32 (x + 1) :=
  Int.bmod_add_bmod

theorem int64_mem (x : ℤ) : -2 ^ 63 ≤ int64 x ∧ int64 x < 2 ^ 63 := by
  have hlo := Int.le_bmod (x := x) (m := 2 ^ 64) (by decide)
  have hhi := Int.bmod_lt (x := x) (m := 2 ^ 64) (by decide)
  unfold int64
  omega

theorem int64_of_mem {x : ℤ} (hlo : -2 ^ 63 ≤ x) (hhi : x < 2 ^ 63) : int64 x = x := by
  unfold int64
  rw [Int.bmod_eq_of_le] <;> omega

inductive Mode where
  | idle | teleop | hold | estop
  deriving DecidableEq, Repr

instance : Fintype Mode where
  elems := {.idle, .teleop, .hold, .estop}
  complete m := by cases m <;> decide

def Mode.word : Mode → U32
  | .idle => 0
  | .teleop => 1
  | .hold => 2
  | .estop => 3

def Mode.rank : Mode → ℕ
  | .estop => 0
  | .idle => 1
  | .hold => 2
  | .teleop => 3

theorem Mode.rank_injective : Function.Injective Mode.rank := by
  intro a b h
  cases a <;> cases b <;> first | rfl | simp [Mode.rank] at h

instance : LinearOrder Mode := LinearOrder.lift' Mode.rank Mode.rank_injective

instance : BoundedOrder Mode where
  top := .teleop
  le_top := by decide
  bot := .estop
  bot_le := by decide

instance : Nontrivial Mode := ⟨.idle, .teleop, by decide⟩

theorem Mode.bot_eq : (⊥ : Mode) = .estop := rfl

/-- `SO101_F_*`. -/
inductive Fault where
  | leaderComm | followerComm | overtemp | voltage | overrun | stall | estop | torqueRefused
  deriving DecidableEq, Repr

instance : Fintype Fault where
  elems := {.leaderComm, .followerComm, .overtemp, .voltage, .overrun, .stall, .estop,
    .torqueRefused}
  complete f := by cases f <;> decide

def Fault.bit : Fault → U32
  | .leaderComm => 1 <<< 0
  | .followerComm => 1 <<< 1
  | .overtemp => 1 <<< 2
  | .voltage => 1 <<< 3
  | .overrun => 1 <<< 4
  | .stall => 1 <<< 5
  | .estop => 1 <<< 6
  | .torqueRefused => 1 <<< 7

/-- The word `faults` contains `f`. -/
def Has (faults : U32) (f : Fault) : Prop := faults &&& f.bit ≠ 0

instance (faults : U32) (f : Fault) : Decidable (Has faults f) :=
  inferInstanceAs (Decidable (_ ≠ _))

theorem Fault.bit_ne_zero : ∀ f : Fault, f.bit ≠ 0#32 := by decide

theorem Fault.bit_disjoint : ∀ f g : Fault, f ≠ g → g.bit &&& f.bit = 0 := by decide

theorem Fault.bit_kept : ∀ f g : Fault, f ≠ g → ~~~g.bit &&& f.bit = f.bit := by decide

@[simp] theorem not_has_zero (f : Fault) : ¬ Has 0#32 f := by simp [Has]

theorem has_or {w : U32} {f g : Fault} : Has (w ||| g.bit) f ↔ Has w f ∨ f = g := by
  unfold Has
  rw [BitVec.and_or_distrib_right]
  by_cases h : f = g
  · subst h
    have hne : f.bit ≠ 0#32 := f.bit_ne_zero
    simp [hne]
  · simp [Fault.bit_disjoint f g h, h]

theorem has_and_not {w : U32} {f g : Fault} : Has (w &&& ~~~g.bit) f ↔ Has w f ∧ f ≠ g := by
  unfold Has
  rw [BitVec.and_assoc]
  by_cases h : f = g
  · subst h
    simp
  · simp [Fault.bit_kept f g h, h]

def fBlockAll : U32 :=
  Fault.followerComm.bit ||| Fault.overtemp.bit ||| Fault.voltage.bit ||| Fault.stall.bit |||
    Fault.estop.bit
def fBlockTeleop : U32 := fBlockAll ||| Fault.leaderComm.bit

theorem block_all_iff {w : U32} : w &&& fBlockAll = 0 ↔
    ¬ Has w .followerComm ∧ ¬ Has w .overtemp ∧ ¬ Has w .voltage ∧ ¬ Has w .stall ∧
      ¬ Has w .estop := by
  simp only [fBlockAll, Has, ne_eq, not_not, BitVec.and_or_distrib_left]
  simp only [BitVec.ofNat_eq_ofNat, BitVec.or_eq_zero_iff, and_assoc]

theorem block_teleop_iff {w : U32} :
    w &&& fBlockTeleop = 0 ↔ w &&& fBlockAll = 0 ∧ ¬ Has w .leaderComm := by
  simp only [fBlockTeleop, Has, ne_eq, not_not, BitVec.and_or_distrib_left]
  simp only [BitVec.ofNat_eq_ofNat, BitVec.or_eq_zero_iff]

def ceiling : Fault → Mode
  | .stall | .estop => .estop
  | .followerComm | .overtemp | .voltage => .idle
  | .leaderComm => .hold
  | .overrun | .torqueRefused => .teleop

/-- The latched faults. TORQUE_REFUSED is the control thread's and latches nothing. -/
def latched (faults : U32) : Finset Fault :=
  Finset.univ.filter (fun f => f ≠ .torqueRefused ∧ Has faults f)

@[simp] theorem mem_latched {w : U32} {f : Fault} :
    f ∈ latched w ↔ f ≠ .torqueRefused ∧ Has w f := by simp [latched]

@[simp] theorem latched_zero : latched 0#32 = ∅ := by
  ext f
  simp

theorem latched_or {w : U32} {f : Fault} (hf : f ≠ .torqueRefused) :
    latched (w ||| f.bit) = insert f (latched w) := by
  ext g
  simp only [mem_latched, has_or, Finset.mem_insert]
  constructor
  · rintro ⟨hg, h | rfl⟩
    · exact Or.inr ⟨hg, h⟩
    · exact Or.inl rfl
  · rintro (rfl | ⟨hg, h⟩)
    · exact ⟨hf, Or.inr rfl⟩
    · exact ⟨hg, Or.inl h⟩

theorem latched_or_refused (w : U32) : latched (w ||| Fault.torqueRefused.bit) = latched w := by
  ext g
  simp only [mem_latched, has_or]
  tauto

theorem latched_clear_refused (w : U32) :
    latched (w &&& ~~~Fault.torqueRefused.bit) = latched w := by
  ext g
  simp only [mem_latched, has_and_not]
  tauto

theorem le_cap_latched {w : U32} {m : Mode} :
    m ≤ Interlock.cap ceiling (latched w) ↔ ∀ f, Has w f → m ≤ ceiling f := by
  rw [Interlock.le_cap_iff]
  constructor
  · intro h f hf
    by_cases hr : f = .torqueRefused
    · subst hr
      exact le_top
    · exact h f (mem_latched.mpr ⟨hr, hf⟩)
  · exact fun h f hf => h f (mem_latched.mp hf).2

theorem hold_allowed_iff {w : U32} :
    w &&& fBlockAll = 0 ↔ Mode.hold ≤ Interlock.cap ceiling (latched w) := by
  rw [block_all_iff, le_cap_latched]
  constructor
  · rintro ⟨h1, h2, h3, h4, h5⟩ f hf
    cases f <;> first | exact absurd hf ‹_› | decide
  · intro h
    refine ⟨fun hf => ?_, fun hf => ?_, fun hf => ?_, fun hf => ?_, fun hf => ?_⟩ <;>
      exact absurd (h _ hf) (by decide)

theorem teleop_allowed_iff {w : U32} :
    w &&& fBlockTeleop = 0 ↔ Mode.teleop ≤ Interlock.cap ceiling (latched w) := by
  rw [block_teleop_iff, hold_allowed_iff, le_cap_latched, le_cap_latched]
  constructor
  · rintro ⟨h, hl⟩ f hf
    have hh := h f hf
    cases f <;> first | exact absurd hf hl | exact absurd hh (by decide) | decide
  · intro h
    exact ⟨fun f hf => le_trans (by decide) (h f hf), fun hf => absurd (h _ hf) (by decide)⟩

/-- `so101_sample_t`, one control-cycle snapshot. -/
structure Sample (F : Type*) where
  cycle : ℕ
  tMonoNs : ℤ
  wakeLatNs : ℤ
  execNs : ℤ
  busLeaderNs : ℤ
  busFollowerNs : ℤ
  faults : U32
  mode : Mode
  leaderOk : Bool
  followerOk : Bool
  torqueOn : Bool
  leaderPos : Joint → ℤ
  followerGoal : Joint → ℤ
  followerPos : Joint → ℤ
  followerVel : Joint → ℤ
  followerLoad : Joint → ℤ
  followerVolt : Joint → Byte
  followerTemp : Joint → Byte
  leaderNorm : Joint → F
  followerNorm : Joint → F
  overruns : U32
  missedSlots : U32
  leaderErrs : U32
  followerErrs : U32
  maxWakeLatNs : ℤ
  maxExecNs : ℤ
  leaderStreak : ℕ
  followerStreak : ℕ
  ramping : Byte

/-- The settings of `so101d_ctx` that the two threads read. -/
structure Ctx where
  period : ℤ
  maxStep : ℤ
  rampStep : ℤ
  rampDone : ℤ
  tempLimit : ℤ
  vminDv : ℤ
  vmaxDv : ℤ
  commStreak : ℤ
  calLeader : CalibArm
  calFollower : CalibArm

/-- The settings `main` starts from, before it reads options. -/
def Ctx.default (calLeader calFollower : CalibArm) : Ctx where
  period := 10000000
  maxStep := 50
  rampStep := 6
  rampDone := 50
  tempLimit := 60
  vminDv := 45
  vmaxDv := 84
  commStreak := 10
  calLeader := calLeader
  calFollower := calFollower

/-- `so101_cmd_t`; `arg` and `clientPid` are kept as bit patterns. -/
structure Cmd where
  id : U32
  cmd : U32
  arg : U32
  clientPid : U32
  deriving DecidableEq, Repr

structure Ack where
  id : U32
  result : ℤ
  deriving DecidableEq, Repr

def cmdSetMode : U32 := 1
def cmdEstop : U32 := 2
def cmdReset : U32 := 3
def cmdPing : U32 := 4

def resOk : ℤ := 0
def resBadCmd : ℤ := -1
def resRefused : ℤ := -2

structure Words where
  modeReq : Mode
  faults : U32
  supBeat : BitVec 64
  ack : Ack
  deriving DecidableEq

/-- Why the supervisor stores a mode: a command it serves, or a fault it raises. -/
inductive Site where
  | command (cmd : Cmd)
  | fault (f : Fault)
  deriving DecidableEq, Repr

/-- The atomic accesses in the source. A site or a command in an access names the code
that makes it and has no effect. -/
inductive Access where
  | loadMode
  | storeMode (site : Site) (m : Mode)
  | loadFaults
  | orFaults (f : Fault)
  | andNotFaults (f : Fault)
  | storeFaults (cmd : Cmd) (w : U32)
  | addBeat
  | ackResult (r : ℤ)
  | ackId (id : U32)
  deriving DecidableEq, Repr

def Access.Res : Access → Type
  | .loadMode => Mode
  | .loadFaults => U32
  | .orFaults _ => U32
  | _ => Unit

/-- Loads and `atomic_fetch_or` return the word as it was. -/
def wordMemory : Memory Words Access.Res where
  value w
    | .loadMode => w.modeReq
    | .loadFaults => w.faults
    | .orFaults _ => w.faults
    | .storeMode _ _ | .andNotFaults _ | .storeFaults _ _ | .addBeat | .ackResult _
    | .ackId _ => ()
  update w
    | .storeMode _ m => { w with modeReq := m }
    | .orFaults f => { w with faults := w.faults ||| f.bit }
    | .andNotFaults f => { w with faults := w.faults &&& ~~~f.bit }
    | .storeFaults _ v => { w with faults := v }
    | .addBeat => { w with supBeat := w.supBeat + 1 }
    | .ackResult r => { w with ack.result := r }
    | .ackId id => { w with ack.id := id }
    | .loadMode | .loadFaults => w

abbrev Code := Prog Access.Res

def loadMode : Code Mode := .access .loadMode .ret
def storeMode (site : Site) (m : Mode) : Code Unit := .access (.storeMode site m) .ret
def loadFaults : Code U32 := .access .loadFaults .ret
def orFaults (f : Fault) : Code U32 := .access (.orFaults f) .ret
def andNotFaults (f : Fault) : Code Unit := .access (.andNotFaults f) .ret
def storeFaults (cmd : Cmd) (w : U32) : Code Unit := .access (.storeFaults cmd w) .ret
def addBeat : Code Unit := .access .addBeat .ret
def ackResult (r : ℤ) : Code Unit := .access (.ackResult r) .ret
def ackId (id : U32) : Code Unit := .access (.ackId id) .ret

end SharedMemory
