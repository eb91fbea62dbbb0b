import So101.ControlCycle
import So101.DriverFrame
import So101.Lib.ForwardSimulation

/-!
# The control thread on its two serial ports

The control thread calls the driver; what it meets is what happens on the two lines. A port
keeps what was written to the descriptors it had before. A cycle here is a cycle of the
control thread whose reads and error codes are those of the driver.
-/
namespace ControlBuses

open GuardedMachine ForwardSimulation ServoBus ControlThread
open Calibration (Joint CFloat)
open SharedMemory (Ctx U32)
open BusDriver (FtsBus Wire Rc ftsSyncRead ftsSyncWrite)
open SyncRead (opened)

def stsPresentPosition : Byte := 56

/-- Which of the calls of `fts_open` succeed. -/
structure TtyCalls where
  opens : Bool
  getsAttr : Bool
  setsAttr : Bool
  deriving DecidableEq, Repr

/-- The rates of `baud_to_speed`. -/
def knownBauds : List ℕ := [1000000, 500000, 115200, 57600, 38400]

/-- The bus is cleared first; its descriptor is valid where the third component is true. -/
def ftsOpen (calls : TtyCalls) (baud : ℕ) : Rc × FtsBus × Bool :=
  if baud ∉ knownBauds then (.error .arg, opened, false)
  else if calls.opens = false then (.error .io, opened, false)
  else if calls.getsAttr = false then (.error .io, opened, false)
  else if calls.setsAttr = false then (.error .io, opened, false)
  else (.ok (), opened, true)

/-- A bus of the daemon, whether its descriptor is valid, and what was written to the
descriptors before this one. -/
structure Port where
  bus : FtsBus
  isOpen : Bool
  earlier : List Byte
  deriving DecidableEq, Repr

def Port.line (p : Port) : List Byte := p.earlier ++ p.bus.written

/-- Without a descriptor the first `write` fails. -/
def Port.wire (p : Port) (wire : Wire) : Wire := if p.isOpen then wire else ⟨some 0, []⟩

/-- The echo setting is kept; a failed `fts_open` leaves the port closed. -/
def reopenBus (p : Port) (calls : TtyCalls) : Port :=
  let (_, bus, isOpen) := ftsOpen calls 1000000
  { bus := { bus with echo := p.bus.echo }, isOpen := isOpen, earlier := p.line }

def Port.syncRead (p : Port) (wire : Wire) (ids : List Byte) (addr len : Byte)
    (out : List Byte) : Rc × Port × List Byte :=
  let (rc, bus, out) := ftsSyncRead p.bus (p.wire wire) ids addr len out
  (rc, { p with bus := bus }, out)

def Port.syncWrite (p : Port) (wire : Wire) (w : SyncWrite) : Rc × Port :=
  let (rc, bus) := ftsSyncWrite p.bus (p.wire wire) w.ids w.addr (BitVec.ofNat 8 w.len) w.data
  (rc, { p with bus := bus })

/-- What one cycle meets: the readings of the clock, the two words, and what happens on the
lines and to the ports that are opened. -/
structure BusInput where
  wake : ℤ
  t0 : ℤ
  t1 : ℤ
  t2 : ℤ
  execEnd : ℤ
  now : ℤ
  modeReq : U32
  faults : U32
  read : Bus → Wire
  site : WriteSite → Wire
  tty : Bus → TtyCalls

/-- The input of the control thread with these reads and error codes. -/
def BusInput.met (inp : BusInput) (leaderRead : Option (Joint → Fin 2 → Byte))
    (followerRead : Option (Joint → Fin 8 → Byte)) (sent : WriteSite → Bool) : Input where
  wake := inp.wake
  t0 := inp.t0
  t1 := inp.t1
  t2 := inp.t2
  execEnd := inp.execEnd
  now := inp.now
  leaderRead := leaderRead
  followerRead := followerRead
  modeReq := inp.modeReq
  faults := inp.faults
  sent := sent

/-- The thread with its ports and its two receive buffers, and what it has done to the
buses. -/
structure Arms (F : Type*) where
  st : Control F
  ports : Bus → Port
  bl : List Byte
  bf : List Byte
  log : List BusOp

variable {F : Type*}

def Arms.setPort (a : Arms F) (bus : Bus) (p : Port) : Arms F :=
  { a with ports := Function.update a.ports bus p }

def Arms.setSt (a : Arms F) (st : Control F) : Arms F := { a with st := st }

def Arms.write (a : Arms F) (wire : Wire) (bus : Bus) (w : SyncWrite) : Arms F :=
  let (rc, port) := (a.ports bus).syncWrite wire w
  { a.setPort bus port with log := a.log ++ [.write bus w rc.isOk] }

def Arms.reopen (a : Arms F) (calls : TtyCalls) (bus : Bus) : Arms F :=
  { a.setPort bus (reopenBus (a.ports bus) calls) with log := a.log ++ [.reopen bus] }

/-- `n` bytes for each joint, from the joint's place in a receive buffer. -/
def blocks (n : ℕ) (buf : List Byte) : Joint → Fin n → Byte :=
  fun j i => buf.getD (n * j + i) 0

section Cycle

variable [CFloat F] (c : Ctx) (inp : BusInput) (a : Arms F)

def leaderSyncRead : Rc × Port × List Byte :=
  (a.ports .leader).syncRead (inp.read .leader) (List.ofFn (armIds c.calLeader))
    stsPresentPosition 2 a.bl

def followerSyncRead : Rc × Port × List Byte :=
  (a.ports .follower).syncRead (inp.read .follower) (List.ofFn (armIds c.calFollower))
    stsPresentPosition 8 a.bf

def gotLeader : Option (Joint → Fin 2 → Byte) :=
  let (rc, _, bl) := leaderSyncRead c inp a
  if rc.isOk then some (blocks 2 bl) else none

def gotFollower : Option (Joint → Fin 8 → Byte) :=
  let (rc, _, bf) := followerSyncRead c inp a
  if rc.isOk then some (blocks 8 bf) else none

def BusInput.clock (inp : BusInput) : Input := inp.met none none (fun _ => false)

def readLeaderPort : Arms F :=
  let (_, port, bl) := leaderSyncRead c inp a
  let s := leaderSample c (inp.met (gotLeader c inp a) none (fun _ => false)) a.st.s
  { a.setPort .leader port with bl := bl, st := { a.st with s := s } }

def leaderSection : Arms F :=
  let a := readLeaderPort c inp a
  if a.st.s.leaderStreak ≥ reopenAfter ∧ a.st.s.cycle ≥ a.st.retryL then
    let a := a.reopen (inp.tty .leader) .leader
    let a := a.write (inp.site .leaderOff) .leader (setTorque (armIds c.calLeader) false)
    a.setSt { a.st with retryL := a.st.s.cycle + reopenAfter }
  else a

def readFollowerPort : Arms F :=
  let (_, port, bf) := followerSyncRead c inp a
  let s := followerSample c (inp.met none (gotFollower c inp a) (fun _ => false)) a.st.s
  { a.setPort .follower port with bf := bf, st := { a.st with s := s } }

def followerSection : Arms F :=
  let a := readFollowerPort c inp a
  if a.st.s.followerStreak ≥ reopenAfter ∧ a.st.s.cycle ≥ a.st.retryF then
    let a := a.reopen (inp.tty .follower) .follower
    let a := a.setSt { a.st with retryF := a.st.s.cycle + reopenAfter }
    let a := a.write (inp.site .reopenOff) .follower (setTorque (armIds c.calFollower) false)
    a.setSt { a.st with torque := false }
  else a

def modeSection : Arms F :=
  let req := loadedMode inp.modeReq
  if req = a.st.applied then a
  else if req = .teleop ∨ req = .hold then
    if a.st.torque then a.setSt (enterMode req a.st)
    else if a.st.s.followerOk then
      let a := a.setSt { a.st with goal := a.st.s.followerPos }
      let a := a.write (inp.site .enableGoal) .follower
        (writeGoal (armIds c.calFollower) a.st.goal)
      let a := a.write (inp.site .enable) .follower (setTorque (armIds c.calFollower) true)
      let a := a.setSt { a.st with torque := true }
      a.setSt (enterMode req a.st)
    else a.setSt (enterMode a.st.applied a.st)
  else if a.st.torque then
    let a := a.write (inp.site .torqueOff) .follower (setTorque (armIds c.calFollower) false)
    let a := a.setSt { a.st with torque := false }
    a.setSt (enterMode req a.st)
  else a.setSt (enterMode req a.st)

def goalSection : Arms F :=
  if a.st.torque then
    let a := a.setSt { a.st with goal := steppedGoal c a.st, rampMask := stillRamping c a.st }
    a.write (inp.site .goal) .follower (writeGoal (armIds c.calFollower) a.st.goal)
  else if a.st.s.followerOk then
    a.setSt { a.st with goal := a.st.s.followerPos }
  else a

def cycleOnPorts : Arms F :=
  let a := a.setSt (wakeUp inp.clock a.st)
  let a := leaderSection c inp a
  let a := followerSection c inp a
  let a := modeSection c inp a
  let a := goalSection c inp a
  a.setSt (nextSlot c inp.clock (publish inp.clock a.st))

end Cycle

/-- The follower and the leader are released before the first cycle; the two receive
buffers hold anything. -/
def startOnPorts [CFloat F] (c : Ctx) (now : ℤ) (ports : Bus → Port) (wire : Bus → Wire)
    (bl bf : List Byte) : Arms F :=
  let a : Arms F := ⟨startControl c now, ports, bl, bf, []⟩
  let a := a.write (wire .follower) .follower (setTorque (armIds c.calFollower) false)
  a.write (wire .leader) .leader (setTorque (armIds c.calLeader) false)

def shutdown (c : Ctx) (wire : Wire) (a : Arms F) : Arms F :=
  a.write wire .follower (setTorque (armIds c.calFollower) false)

def portThread [CFloat F] (c : Ctx) : Machine (Arms F) BusInput :=
  .free (fun a inp => cycleOnPorts c inp a)

structure Shows (a : Arms F) (r : ControlRun F) : Prop where
  st : r.st = a.st
  log : r.log = a.log

def Meets [CFloat F] (c : Ctx) (a : Arms F) (inp : BusInput) (i : Input) : Prop :=
  ∃ sent, i = inp.met (gotLeader c inp a) (gotFollower c inp a) sent

section Writes

variable (a : Arms F) (wire : Wire) (bus : Bus) (w : SyncWrite) (calls : TtyCalls)
  (st : Control F)

def Arms.sends : Bool := ((a.ports bus).syncWrite wire w).1.isOk

@[simp] theorem write_st : (a.write wire bus w).st = a.st := rfl

@[simp] theorem write_log :
    (a.write wire bus w).log = a.log ++ [.write bus w (a.sends wire bus w)] := rfl

@[simp] theorem reopen_st : (a.reopen calls bus).st = a.st := rfl

@[simp] theorem reopen_log : (a.reopen calls bus).log = a.log ++ [.reopen bus] := rfl

@[simp] theorem set_st_st : (a.setSt st).st = st := rfl

@[simp] theorem set_st_log : (a.setSt st).log = a.log := rfl

@[simp] theorem set_st_ports : (a.setSt st).ports = a.ports := rfl

end Writes

section Sections

variable [CFloat F] (c : Ctx) (inp : BusInput) (a : Arms F)

/-- From `a` a section has made these operations and left this thread state. -/
structure Did (a : Arms F) (r : Control F × List BusOp) (next : Arms F) : Prop where
  st : next.st = r.1
  log : next.log = a.log ++ r.2

theorem leader_section_did : ∃ off, ∀ bf sent, sent .leaderOff = off →
    Did a (readLeader c (inp.met (gotLeader c inp a) bf sent) a.st) (leaderSection c inp a) := by
  have hst : (readLeaderPort c inp a).st = { a.st with
      s := leaderSample c (inp.met (gotLeader c inp a) none (fun _ => false)) a.st.s } := rfl
  have hlog : (readLeaderPort c inp a).log = a.log := rfl
  have hsample : ∀ bf sent, leaderSample c (inp.met (gotLeader c inp a) bf sent) a.st.s =
      leaderSample c (inp.met (gotLeader c inp a) none (fun _ => false)) a.st.s := fun _ _ => rfl
  refine ⟨((readLeaderPort c inp a).reopen (inp.tty .leader) .leader).sends
    (inp.site .leaderOff) .leader (setTorque (armIds c.calLeader) false), fun bf sent hsent => ?_⟩
  simp only [leaderSection, readLeader, hsample, hst]
  split
  · refine ⟨rfl, ?_⟩
    simp only [set_st_log, write_log, reopen_log, hlog, Input.write, BusInput.met, hsent,
      List.append_assoc, List.cons_append, List.nil_append]
  · exact ⟨hst, by rw [hlog, List.append_nil]⟩

theorem follower_section_did : ∃ off, ∀ bl sent, sent .reopenOff = off →
    Did a (readFollower c (inp.met bl (gotFollower c inp a) sent) a.st)
      (followerSection c inp a) := by
  have hst : (readFollowerPort c inp a).st = { a.st with
      s := followerSample c (inp.met none (gotFollower c inp a) (fun _ => false)) a.st.s } := rfl
  have hlog : (readFollowerPort c inp a).log = a.log := rfl
  have hsample : ∀ bl sent, followerSample c (inp.met bl (gotFollower c inp a) sent) a.st.s =
      followerSample c (inp.met none (gotFollower c inp a) (fun _ => false)) a.st.s :=
    fun _ _ => rfl
  let mid := ((readFollowerPort c inp a).reopen (inp.tty .follower) .follower)
  refine ⟨mid.sends (inp.site .reopenOff) .follower (setTorque (armIds c.calFollower) false),
    fun bl sent hsent => ?_⟩
  simp only [followerSection, readFollower, hsample, hst]
  split
  · refine ⟨rfl, ?_⟩
    simp only [set_st_log, write_log, reopen_log, hlog, Input.write, BusInput.met, hsent,
      List.append_assoc, List.cons_append, List.nil_append]
    rfl
  · exact ⟨hst, by rw [hlog, List.append_nil]⟩

omit [CFloat F] in
theorem mode_section_did : ∃ goal on off, ∀ bl bf sent, sent .enableGoal = goal →
    sent .enable = on → sent .torqueOff = off →
    Did a (modeTransition c (inp.met bl bf sent) a.st) (modeSection c inp a) := by
  let placed := a.setSt { a.st with goal := a.st.s.followerPos }
  let aimed := placed.write (inp.site .enableGoal) .follower
    (writeGoal (armIds c.calFollower) a.st.s.followerPos)
  refine ⟨placed.sends (inp.site .enableGoal) .follower
      (writeGoal (armIds c.calFollower) a.st.s.followerPos),
    aimed.sends (inp.site .enable) .follower (setTorque (armIds c.calFollower) true),
    a.sends (inp.site .torqueOff) .follower (setTorque (armIds c.calFollower) false),
    fun bl bf sent hgoal hon hoff => ?_⟩
  have hreq : (inp.met bl bf sent).modeReq = inp.modeReq := rfl
  simp only [modeSection, modeTransition, enableTorque, hreq]
  split
  · exact ⟨rfl, (List.append_nil _).symm⟩
  split
  · split
    · exact ⟨rfl, (List.append_nil _).symm⟩
    split
    · refine ⟨rfl, ?_⟩
      simp only [set_st_log, write_log, Input.write, BusInput.met, hgoal, hon, List.append_assoc,
        List.cons_append, List.nil_append]
      rfl
    · exact ⟨rfl, (List.append_nil _).symm⟩
  · split
    · refine ⟨rfl, ?_⟩
      simp only [set_st_log, write_log, Input.write, BusInput.met, hoff]
    · exact ⟨rfl, (List.append_nil _).symm⟩

theorem goal_section_did : ∃ goal, ∀ bl bf sent, sent .goal = goal →
    Did a (moveGoal c (inp.met bl bf sent) a.st) (goalSection c inp a) := by
  let stepped := a.setSt { a.st with goal := steppedGoal c a.st, rampMask := stillRamping c a.st }
  refine ⟨stepped.sends (inp.site .goal) .follower
    (writeGoal (armIds c.calFollower) (steppedGoal c a.st)), fun bl bf sent hgoal => ?_⟩
  simp only [goalSection, moveGoal]
  split
  · refine ⟨rfl, ?_⟩
    simp only [set_st_log, write_log, Input.write, BusInput.met, hgoal]
    rfl
  split
  · exact ⟨rfl, (List.append_nil _).symm⟩
  · exact ⟨rfl, (List.append_nil _).symm⟩

omit [CFloat F] in
theorem set_port_of_ne (p : Port) {bus other : Bus} (h : other ≠ bus) :
    (a.setPort bus p).ports other = a.ports other := Function.update_of_ne h _ _

omit [CFloat F] in
theorem set_port_self (bus : Bus) (p : Port) : (a.setPort bus p).ports bus = p :=
  Function.update_self ..

omit [CFloat F] in
theorem write_port_of_ne (wire : Wire) (w : SyncWrite) {bus other : Bus} (h : other ≠ bus) :
    (a.write wire bus w).ports other = a.ports other := Function.update_of_ne h _ _

omit [CFloat F] in
theorem reopen_port_of_ne (calls : TtyCalls) {bus other : Bus} (h : other ≠ bus) :
    (a.reopen calls bus).ports other = a.ports other := Function.update_of_ne h _ _

theorem leader_section_follower :
    (leaderSection c inp a).ports .follower = a.ports .follower ∧
      (leaderSection c inp a).bf = a.bf := by
  have hne : Bus.follower ≠ Bus.leader := by decide
  have hread : (readLeaderPort c inp a).ports .follower = a.ports .follower :=
    set_port_of_ne a (leaderSyncRead c inp a).2.1 hne
  simp only [leaderSection]
  split
  · refine ⟨?_, rfl⟩
    rw [set_st_ports, write_port_of_ne _ _ _ hne, reopen_port_of_ne _ _ hne, hread]
  · exact ⟨hread, rfl⟩

def sentAt (leaderOff reopenOff enableGoal enable torqueOff goal : Bool) : WriteSite → Bool
  | .leaderOff => leaderOff
  | .reopenOff => reopenOff
  | .enableGoal => enableGoal
  | .enable => enable
  | .torqueOff => torqueOff
  | .goal => goal

/-- One cycle on the ports is one cycle of the control thread, with the reads and the error
codes of the driver. -/
theorem cycle_on_ports_did :
    ∃ i, Meets c a inp i ∧ Did a (controlCycle c i a.st) (cycleOnPorts c inp a) := by
  let woken := a.setSt (wakeUp inp.clock a.st)
  let led := leaderSection c inp woken
  let followed := followerSection c inp led
  let moded := modeSection c inp followed
  obtain ⟨hport, hbf⟩ := leader_section_follower c inp woken
  have hgot : gotFollower c inp led = gotFollower c inp a := by
    simp only [gotFollower, followerSyncRead, led, hport, hbf]
    rfl
  obtain ⟨leaderOff, hleader⟩ := leader_section_did c inp woken
  obtain ⟨reopenOff, hfollower⟩ := follower_section_did c inp led
  obtain ⟨enableGoal, enable, torqueOff, hmode⟩ := mode_section_did c inp followed
  obtain ⟨goal, hgoal⟩ := goal_section_did c inp moded
  let sent := sentAt leaderOff reopenOff enableGoal enable torqueOff goal
  let i := inp.met (gotLeader c inp a) (gotFollower c inp a) sent
  have hl : Did woken (readLeader c i woken.st) led := hleader (gotFollower c inp a) sent rfl
  have hf : Did led (readFollower c i led.st) followed := by
    have h := hfollower (gotLeader c inp a) sent rfl
    rwa [hgot] at h
  have hm : Did followed (modeTransition c i followed.st) moded :=
    hmode (gotLeader c inp a) (gotFollower c inp a) sent rfl rfl rfl
  have hg : Did moded (moveGoal c i moded.st) (goalSection c inp moded) :=
    hgoal (gotLeader c inp a) (gotFollower c inp a) sent rfl
  have hwoken : woken.st = wakeUp i a.st := rfl
  refine ⟨i, ⟨sent, rfl⟩, ?_, ?_⟩
  · simp only [controlCycle, readBuses, ← hwoken, ← hl.st, ← hf.st, ← hm.st, ← hg.st]
    rfl
  · have hlog : (cycleOnPorts c inp a).log = (goalSection c inp moded).log := rfl
    simp only [controlCycle, readBuses, ← hwoken, ← hl.st, ← hf.st, ← hm.st]
    rw [hlog, hg.log, hm.log, hf.log, hl.log]
    simp only [List.append_assoc]
    rfl

end Sections

/-- The control thread on its ports is in lockstep the control thread of the cycles: in every
run the reads and error codes of the driver are the input of each cycle. -/
theorem port_thread_lockstep [CFloat F] (c : Ctx) :
    Lockstep (portThread c : Machine (Arms F) BusInput) (controlThread c) Shows (Meets c) where
  step a r inp hshows _ := by
    obtain ⟨i, hmeets, hdid⟩ := cycle_on_ports_did c inp a
    refine ⟨i, trivial, hmeets, ?_, ?_⟩
    · change (controlCycle c i r.st).1 = _
      rw [hshows.st]
      exact hdid.st.symm
    · change r.log ++ (controlCycle c i r.st).2 = _
      rw [hshows.st, hshows.log]
      exact hdid.log.symm

theorem start_on_ports_shows [CFloat F] (c : Ctx) (now : ℤ) (ports : Bus → Port)
    (wire : Bus → Wire) (bl bf : List Byte) : ∃ sentFollower sentLeader,
      Shows (startOnPorts c now ports wire bl bf : Arms F)
        (startUp c now sentFollower sentLeader) :=
  ⟨_, _, rfl, rfl⟩

/-- Every run on the ports is a run of the control thread, cycle by cycle with the reads and
the error codes of the driver. -/
theorem port_thread_refines [CFloat F] (c : Ctx) (now : ℤ) (ports : Bus → Port)
    (wire : Bus → Wire) (bl bf : List Byte) (inps : List BusInput) :
    ∃ sentFollower sentLeader is, is.length = inps.length ∧
      ((portThread c).beside (controlThread c)).Along
        (fun p q => Shows p.1 p.2 ∧ Meets c p.1 q.1 q.2)
        ((startOnPorts c now ports wire bl bf : Arms F), startUp c now sentFollower sentLeader)
        (inps.zip is) ∧
      Shows ((portThread c).run (startOnPorts c now ports wire bl bf : Arms F) inps)
        ((controlThread c).run (startUp c now sentFollower sentLeader) is) := by
  obtain ⟨sentFollower, sentLeader, hstart⟩ :=
    start_on_ports_shows (F := F) c now ports wire bl bf
  obtain ⟨is, hlen, _, halong, hend⟩ :=
    (port_thread_lockstep c).run hstart (free_valid _ _ inps)
  exact ⟨sentFollower, sentLeader, is, hlen, halong, hend⟩

end ControlBuses
