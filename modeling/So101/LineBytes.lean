import So101.ControlBuses
import So101.GoalLimit
import So101.WriteDiscipline

/-!
# What the control thread puts on the two lines

The bytes of a line are the requests and writes of the cycles, in order: whole where the
driver returned no error, a part of the packet where it did. The leader's line only ever
carries reads and releases. On the follower's line torque goes on in one shape of cycle.
-/
namespace LineBytes

open GuardedMachine ServoBus ControlThread ControlCycle WriteDiscipline
open ControlBuses DriverFrame
open Calibration (Joint CFloat)
open SharedMemory (Ctx Mode)
open BusDriver (FtsBus Wire Rc ftsSyncRead ftsSyncWrite syncReadPacket syncWritePacket
  syncReadRefuses syncWriteRefuses)

variable {F : Type*}

/-- A call on a port has put a part of its packet on the line, all of it if it returned no
error; then the port was open. -/
structure PutOn (p next : Port) (pkt part : List Byte) (ok : Bool) : Prop where
  line : next.line = p.line ++ part
  isOpen : next.isOpen = p.isOpen
  echo : next.bus.echo = p.bus.echo
  isPart : part <+: pkt
  whole : ok = true → part = pkt ∧ p.isOpen = true
  closed : p.isOpen = false → part = []

def packet (w : SyncWrite) : List Byte :=
  syncWritePacket w.ids w.addr (BitVec.ofNat 8 w.len) w.data

def readPacket (c : Ctx) : Bus → List Byte
  | .leader => syncReadPacket (List.ofFn (armIds c.calLeader)) stsPresentPosition 2
  | .follower => syncReadPacket (List.ofFn (armIds c.calFollower)) stsPresentPosition 8

theorem refused_puts_nothing (p : Port) (pkt : List Byte) : PutOn p p pkt [] false where
  line := (List.append_nil _).symm
  isOpen := rfl
  echo := rfl
  isPart := List.nil_prefix
  whole hok := nomatch hok
  closed _ := rfl

theorem wire_whole {p : Port} {wire : Wire} (h : (p.wire wire).writeFailsAfter = none) :
    p.isOpen = true := by
  unfold Port.wire at h
  split at h
  · assumption
  · cases h

theorem requests_put {p : Port} {next : FtsBus} {wire : Wire} {pkt : List Byte} {rc : Rc}
    (h : Requests p.bus next (p.wire wire) pkt rc) :
    PutOn p { p with bus := next } pkt (sentPart (p.wire wire) pkt) rc.isOk where
  line := by
    simp only [Port.line]
    rw [h.written, List.append_assoc]
  isOpen := rfl
  echo := h.echo
  isPart := sent_part_prefix _ _
  whole hok := by
    have hrc : rc = .ok () := by
      cases rc with
      | error e => cases hok
      | ok u => rfl
    have hnone := h.whole hrc
    exact ⟨sent_part_whole hnone pkt, wire_whole hnone⟩
  closed hclosed := by
    simp [sentPart, Port.wire, hclosed]

theorem sync_read_puts (p : Port) (wire : Wire) (ids : List Byte) (addr len : Byte)
    (out : List Byte) : ∃ part, PutOn p (p.syncRead wire ids addr len out).2.1
      (syncReadPacket ids addr len) part (p.syncRead wire ids addr len out).1.isOk := by
  cases hrefuse : syncReadRefuses (BitVec.ofNat 64 ids.length) len with
  | true =>
    simp only [Port.syncRead, ftsSyncRead, hrefuse, if_true]
    exact ⟨[], refused_puts_nothing p _⟩
  | false => exact ⟨_, requests_put (fts_sync_read_requests p.bus (p.wire wire) hrefuse addr out)⟩

theorem sync_write_puts (p : Port) (wire : Wire) (w : SyncWrite) :
    ∃ part, PutOn p (p.syncWrite wire w).2 (packet w) part (p.syncWrite wire w).1.isOk := by
  cases hrefuse : syncWriteRefuses (BitVec.ofNat 64 w.ids.length) (BitVec.ofNat 8 w.len) with
  | true =>
    simp only [Port.syncWrite, ftsSyncWrite, hrefuse, if_true]
    exact ⟨[], refused_puts_nothing p _⟩
  | false =>
    exact ⟨_, requests_put (fts_sync_write_requests p.bus (p.wire wire) hrefuse w.addr w.data)⟩

def Accepted (w : SyncWrite) : Prop :=
  syncWriteRefuses (BitVec.ofNat 64 w.ids.length) (BitVec.ofNat 8 w.len) = false

theorem sync_write_sent {p : Port} {wire : Wire} {w : SyncWrite} (hopen : p.isOpen = true)
    (hecho : p.bus.echo = false) (hwire : wire.writeFailsAfter = none) (hw : Accepted w) :
    (p.syncWrite wire w).1.isOk = true := by
  have hport : p.wire wire = wire := by rw [Port.wire, if_pos hopen]
  simp only [Port.syncWrite, ftsSyncWrite, hport, show syncWriteRefuses _ _ = false from hw,
    Bool.false_eq_true, if_false, SyncRead.tx_packet_quiet hecho hwire]
  rfl

theorem reopen_line (p : Port) (calls : TtyCalls) :
    (reopenBus p calls).line = p.line ∧ (reopenBus p calls).bus.echo = p.bus.echo := by
  refine ⟨?_, rfl⟩
  have hfresh : (ftsOpen calls 1000000).2.1.written = [] := by
    simp only [ftsOpen]
    split_ifs <;> rfl
  simp only [Port.line, reopenBus, hfresh, List.append_nil]

def Puts (bus : Bus) (part : List Byte) : BusOp → Prop
  | .write b w sent =>
    if b = bus then part <+: packet w ∧ (sent = true → part = packet w) else part = []
  | .reopen _ => part = []

inductive Carried (bus : Bus) : List BusOp → List Byte → Prop where
  | nil : Carried bus [] []
  | cons {op ops part rest} : Puts bus part op → Carried bus ops rest →
      Carried bus (op :: ops) (part ++ rest)

theorem Carried.append {bus : Bus} {ops more : List BusOp} {bytes rest : List Byte}
    (h : Carried bus ops bytes) (k : Carried bus more rest) :
    Carried bus (ops ++ more) (bytes ++ rest) := by
  induction h with
  | nil => exact k
  | cons hop _ ih =>
    rw [List.append_assoc]
    exact .cons hop ih

theorem carried_singleton {bus : Bus} {op : BusOp} {part : List Byte} (h : Puts bus part op) :
    Carried bus [op] part := by
  have hcons := Carried.cons h Carried.nil
  rwa [List.append_nil] at hcons

theorem carried_other {bus other : Bus} {ops : List BusOp} (h : ∀ op ∈ ops, op.bus = bus)
    (hne : other ≠ bus) : Carried other ops [] := by
  induction ops with
  | nil => exact .nil
  | cons op ops ih =>
    have hrest := ih (fun o ho => h o (List.mem_cons_of_mem _ ho))
    have hop : Puts other [] op := by
      cases op with
      | reopen b => rfl
      | write b w sent =>
        have hb : b = bus := h _ List.mem_cons_self
        simp [Puts, hb, Ne.symm hne]
    exact .cons hop hrest

/-- From `a` to `next` these operations on one bus, with their bytes on its line. Where no
write fails on the line (`fine`), the driver returns no error. -/
structure Acts (fine : Prop) (bus : Bus) (a next : Arms F) (ops : List BusOp)
    (bytes : List Byte) : Prop where
  log : next.log = a.log ++ ops
  carried : Carried bus ops bytes
  line : (next.ports bus).line = (a.ports bus).line ++ bytes
  echo : (next.ports bus).bus.echo = (a.ports bus).bus.echo
  isOpen : .reopen bus ∉ ops → (next.ports bus).isOpen = (a.ports bus).isOpen
  sent : fine → .reopen bus ∉ ops → (a.ports bus).isOpen = true →
    (a.ports bus).bus.echo = false → ∀ w s, .write bus w s ∈ ops → Accepted w → s = true
  only : ∀ op ∈ ops, op.bus = bus
  other : ∀ b, b ≠ bus → next.ports b = a.ports b

section Acts

variable {fine : Prop} {bus : Bus}

theorem Acts.trans {a mid next : Arms F} {ops more : List BusOp} {bytes rest : List Byte}
    (h : Acts fine bus a mid ops bytes) (k : Acts fine bus mid next more rest) :
    Acts fine bus a next (ops ++ more) (bytes ++ rest) where
  log := by rw [k.log, h.log, List.append_assoc]
  carried := h.carried.append k.carried
  line := by rw [k.line, h.line, List.append_assoc]
  echo := k.echo.trans h.echo
  isOpen hno := by
    rw [List.mem_append, not_or] at hno
    exact (k.isOpen hno.2).trans (h.isOpen hno.1)
  sent hfine hno hopen hecho w s hmem hw := by
    rw [List.mem_append, not_or] at hno
    rcases List.mem_append.mp hmem with hmem | hmem
    · exact h.sent hfine hno.1 hopen hecho w s hmem hw
    · exact k.sent hfine hno.2 ((h.isOpen hno.1).trans hopen) (h.echo.trans hecho) w s hmem hw
  only op hop := by
    rcases List.mem_append.mp hop with hop | hop
    · exact h.only op hop
    · exact k.only op hop
  other b hb := (k.other b hb).trans (h.other b hb)

theorem acts_refl (fine : Prop) (bus : Bus) (a : Arms F) : Acts fine bus a a [] [] where
  log := (List.append_nil _).symm
  carried := .nil
  line := (List.append_nil _).symm
  echo := rfl
  isOpen _ := rfl
  sent _ _ _ _ _ _ hmem := nomatch hmem
  only _ hop := nomatch hop
  other _ _ := rfl

theorem set_st_acts {a next : Arms F} {ops : List BusOp} {bytes : List Byte}
    (h : Acts fine bus a next ops bytes) (st : Control F) :
    Acts fine bus a (next.setSt st) ops bytes :=
  ⟨h.log, h.carried, h.line, h.echo, h.isOpen, h.sent, h.only, h.other⟩

theorem write_acts {a next : Arms F} {ops : List BusOp} {bytes : List Byte}
    (h : Acts fine bus a next ops bytes) {wire : Wire} (hwire : fine → wire.writeFailsAfter = none)
    (w : SyncWrite) :
    ∃ part, Acts fine bus a (next.write wire bus w)
      (ops ++ [.write bus w (next.sends wire bus w)]) (bytes ++ part) := by
  obtain ⟨part, hput⟩ := sync_write_puts (next.ports bus) wire w
  have hself : (next.write wire bus w).ports bus = ((next.ports bus).syncWrite wire w).2 :=
    Function.update_self ..
  refine ⟨part, h.trans
    ⟨rfl, carried_singleton ?_, ?_, ?_, fun _ => ?_, ?_, ?_, fun b hb => ?_⟩⟩
  · simp only [Puts, if_true]
    exact ⟨hput.isPart, fun hok => (hput.whole hok).1⟩
  · rw [hself, hput.line]
  · rw [hself, hput.echo]
  · rw [hself, hput.isOpen]
  · intro hfine _ hopen hecho w' s hmem hw
    obtain ⟨_, rfl, rfl⟩ := BusOp.write.inj (List.mem_singleton.mp hmem)
    exact sync_write_sent hopen hecho (hwire hfine) hw
  · simp [BusOp.bus]
  · exact write_port_of_ne next wire w hb

theorem reopen_acts {a next : Arms F} {ops : List BusOp} {bytes : List Byte}
    (h : Acts fine bus a next ops bytes) (calls : TtyCalls) :
    Acts fine bus a (next.reopen calls bus) (ops ++ [.reopen bus]) bytes := by
  have hself : (next.reopen calls bus).ports bus = reopenBus (next.ports bus) calls :=
    Function.update_self ..
  obtain ⟨hline, hecho⟩ := reopen_line (next.ports bus) calls
  have hop : Acts fine bus next (next.reopen calls bus) [.reopen bus] [] := by
    refine ⟨rfl, carried_singleton rfl, ?_, ?_, ?_, ?_, ?_, fun b hb => ?_⟩
    · rw [hself, hline, List.append_nil]
    · rw [hself, hecho]
    · simp
    · simp
    · simp [BusOp.bus]
    · exact reopen_port_of_ne next calls hb
  have hboth := h.trans hop
  rwa [List.append_nil] at hboth

end Acts

section Sections

variable [CFloat F] (c : Ctx) (inp : BusInput) (a : Arms F)

def readOk : Bus → Bool
  | .leader => (leaderSyncRead c inp a).1.isOk
  | .follower => (followerSyncRead c inp a).1.isOk

structure ReadPut (c : Ctx) (inp : BusInput) (a next : Arms F) (bus : Bus)
    (part : List Byte) : Prop where
  isPart : part <+: readPacket c bus
  whole : readOk c inp a bus = true → part = readPacket c bus ∧ (a.ports bus).isOpen = true
  closed : (a.ports bus).isOpen = false → part = []
  line : (next.ports bus).line = (a.ports bus).line ++ part
  isOpen : (next.ports bus).isOpen = (a.ports bus).isOpen
  echo : (next.ports bus).bus.echo = (a.ports bus).bus.echo
  log : next.log = a.log
  other : ∀ b, b ≠ bus → next.ports b = a.ports b

omit [CFloat F] in
theorem got_leader_is_some :
    (gotLeader c inp a).isSome = (leaderSyncRead c inp a).1.isOk := by
  simp only [gotLeader]
  cases (leaderSyncRead c inp a).1.isOk <;> rfl

omit [CFloat F] in
theorem got_follower_is_some :
    (gotFollower c inp a).isSome = (followerSyncRead c inp a).1.isOk := by
  simp only [gotFollower]
  cases (followerSyncRead c inp a).1.isOk <;> rfl

theorem read_leader_puts : ∃ part, ReadPut c inp a (readLeaderPort c inp a) .leader part := by
  obtain ⟨part, hput⟩ := sync_read_puts (a.ports .leader) (inp.read .leader)
    (List.ofFn (armIds c.calLeader)) stsPresentPosition 2 a.bl
  have hself : (readLeaderPort c inp a).ports .leader = (leaderSyncRead c inp a).2.1 :=
    set_port_self a .leader _
  refine ⟨part, hput.isPart, hput.whole, hput.closed, ?_, ?_, ?_, rfl, fun b hb => ?_⟩
  · rw [hself]
    exact hput.line
  · rw [hself]
    exact hput.isOpen
  · rw [hself]
    exact hput.echo
  · exact set_port_of_ne a (leaderSyncRead c inp a).2.1 hb

theorem read_follower_puts :
    ∃ part, ReadPut c inp a (readFollowerPort c inp a) .follower part := by
  obtain ⟨part, hput⟩ := sync_read_puts (a.ports .follower) (inp.read .follower)
    (List.ofFn (armIds c.calFollower)) stsPresentPosition 8 a.bf
  have hself : (readFollowerPort c inp a).ports .follower = (followerSyncRead c inp a).2.1 :=
    set_port_self a .follower _
  refine ⟨part, hput.isPart, hput.whole, hput.closed, ?_, ?_, ?_, rfl, fun b hb => ?_⟩
  · rw [hself]
    exact hput.line
  · rw [hself]
    exact hput.isOpen
  · rw [hself]
    exact hput.echo
  · exact set_port_of_ne a (followerSyncRead c inp a).2.1 hb

/-- No write of the cycle fails on the line. -/
def NoneFails (inp : BusInput) : Prop := ∀ site, (inp.site site).writeFailsAfter = none

theorem leader_section_acts : ∃ ops bytes, Acts (NoneFails inp) .leader
    (readLeaderPort c inp a) (leaderSection c inp a) ops bytes := by
  simp only [leaderSection]
  split
  · obtain ⟨part, hwrite⟩ := write_acts (reopen_acts (acts_refl (NoneFails inp) _ _) _)
      (fun h => h .leaderOff) (setTorque (armIds c.calLeader) false)
    exact ⟨_, _, set_st_acts hwrite _⟩
  · exact ⟨_, _, acts_refl _ _ _⟩

theorem follower_section_acts : ∃ ops bytes, Acts (NoneFails inp) .follower
    (readFollowerPort c inp a) (followerSection c inp a) ops bytes := by
  simp only [followerSection]
  split
  · obtain ⟨part, hwrite⟩ := write_acts
      (set_st_acts (reopen_acts (acts_refl (NoneFails inp) _ _) _) _)
      (fun h => h .reopenOff) (setTorque (armIds c.calFollower) false)
    exact ⟨_, _, set_st_acts hwrite _⟩
  · exact ⟨_, _, acts_refl _ _ _⟩

omit [CFloat F] in
theorem mode_section_acts :
    ∃ ops bytes, Acts (NoneFails inp) .follower a (modeSection c inp a) ops bytes := by
  simp only [modeSection]
  split
  · exact ⟨_, _, acts_refl _ _ _⟩
  split
  · split
    · exact ⟨_, _, set_st_acts (acts_refl _ _ _) _⟩
    split
    · obtain ⟨aim, haim⟩ := write_acts (set_st_acts (acts_refl (NoneFails inp) .follower a)
        { a.st with goal := a.st.s.followerPos }) (fun h => h .enableGoal)
        (writeGoal (armIds c.calFollower) a.st.s.followerPos)
      obtain ⟨on, hon⟩ := write_acts haim (fun h => h .enable)
        (setTorque (armIds c.calFollower) true)
      exact ⟨_, _, set_st_acts (set_st_acts hon _) _⟩
    · exact ⟨_, _, set_st_acts (acts_refl _ _ _) _⟩
  · split
    · obtain ⟨off, hoff⟩ := write_acts (acts_refl (NoneFails inp) .follower a)
        (fun h => h .torqueOff) (setTorque (armIds c.calFollower) false)
      exact ⟨_, _, set_st_acts (set_st_acts hoff _) _⟩
    · exact ⟨_, _, set_st_acts (acts_refl _ _ _) _⟩

theorem goal_section_acts :
    ∃ ops bytes, Acts (NoneFails inp) .follower a (goalSection c inp a) ops bytes := by
  simp only [goalSection]
  split
  · obtain ⟨part, hwrite⟩ := write_acts (set_st_acts (acts_refl (NoneFails inp) .follower a)
      { a.st with goal := steppedGoal c a.st, rampMask := stillRamping c a.st })
      (fun h => h .goal) (writeGoal (armIds c.calFollower) (steppedGoal c a.st))
    exact ⟨_, _, hwrite⟩
  split
  · exact ⟨_, _, set_st_acts (acts_refl _ _ _) _⟩
  · exact ⟨_, _, acts_refl _ _ _⟩

/-- What a cycle puts on a line: its read, then the packets of its operations there. -/
structure CycleBytes (c : Ctx) (inp : BusInput) (a next : Arms F) (ops : List BusOp)
    (bus : Bus) (part bytes : List Byte) : Prop where
  isPart : part <+: readPacket c bus
  whole : readOk c inp a bus = true → part = readPacket c bus ∧ (a.ports bus).isOpen = true
  closed : (a.ports bus).isOpen = false → part = []
  carried : Carried bus ops bytes
  line : (next.ports bus).line = (a.ports bus).line ++ part ++ bytes
  echo : (next.ports bus).bus.echo = (a.ports bus).bus.echo
  isOpen : .reopen bus ∉ ops → (next.ports bus).isOpen = (a.ports bus).isOpen
  sent : NoneFails inp → .reopen bus ∉ ops → (a.ports bus).isOpen = true →
    (a.ports bus).bus.echo = false → ∀ w s, .write bus w s ∈ ops → Accepted w → s = true

theorem cycle_bytes {i : Input} (hdid : Did a (controlCycle c i a.st) (cycleOnPorts c inp a))
    (bus : Bus) : ∃ part bytes, CycleBytes c inp a (cycleOnPorts c inp a)
      (controlCycle c i a.st).2 bus part bytes := by
  let woken := a.setSt (wakeUp inp.clock a.st)
  let led := leaderSection c inp woken
  let followed := followerSection c inp led
  let moded := modeSection c inp followed
  obtain ⟨partL, hreadL⟩ := read_leader_puts c inp woken
  obtain ⟨opsL, bytesL, hactL⟩ := leader_section_acts c inp woken
  obtain ⟨partF, hreadF⟩ := read_follower_puts c inp led
  obtain ⟨opsF, bytesF, hactF⟩ := follower_section_acts c inp led
  obtain ⟨opsM, bytesM, hactM⟩ := mode_section_acts c inp followed
  obtain ⟨opsG, bytesG, hactG⟩ := goal_section_acts c inp moded
  have hact := set_st_acts ((hactF.trans hactM).trans hactG)
    (nextSlot c inp.clock (publish inp.clock (goalSection c inp moded).st))
  have hend : (goalSection c inp moded).setSt
      (nextSlot c inp.clock (publish inp.clock (goalSection c inp moded).st)) =
        cycleOnPorts c inp a := rfl
  rw [hend] at hact
  have hops : (controlCycle c i a.st).2 = opsL ++ (opsF ++ opsM ++ opsG) := by
    have hlog := hdid.log
    rw [hact.log, hreadF.log, hactL.log, hreadL.log] at hlog
    exact (List.append_cancel_left ((List.append_assoc a.log opsL _).symm.trans hlog)).symm
  have hneF : Bus.follower ≠ Bus.leader := by decide
  have hneL : Bus.leader ≠ Bus.follower := by decide
  have hledF : led.ports .follower = a.ports .follower :=
    (hactL.other .follower hneF).trans (hreadL.other .follower hneF)
  have hledL : (cycleOnPorts c inp a).ports .leader = led.ports .leader :=
    (hact.other .leader hneL).trans (hreadF.other .leader hneL)
  rw [hops]
  cases bus with
  | leader =>
    refine ⟨partL, bytesL, hreadL.isPart, hreadL.whole, hreadL.closed, ?_, ?_, ?_, fun hno => ?_,
      fun hfine hno hopen hecho w s hmem hw => ?_⟩
    · have hall := hactL.carried.append (carried_other hact.only hneL)
      rwa [List.append_nil] at hall
    · rw [hledL, hactL.line, hreadL.line]
      rfl
    · rw [hledL, hactL.echo, hreadL.echo]
      rfl
    · rw [List.mem_append, not_or] at hno
      rw [hledL, hactL.isOpen hno.1, hreadL.isOpen]
      rfl
    · rw [List.mem_append, not_or] at hno
      rcases List.mem_append.mp hmem with hmem | hmem
      · exact hactL.sent hfine hno.1 (hreadL.isOpen.trans hopen) (hreadL.echo.trans hecho) w s
          hmem hw
      · cases hact.only _ hmem
  | follower =>
    have hbf : led.bf = a.bf := (leader_section_follower c inp woken).2
    have hok : readOk c inp led .follower = readOk c inp a .follower := by
      simp only [readOk, followerSyncRead, hledF, hbf]
    have hwhole := hreadF.whole
    have hclosed := hreadF.closed
    rw [hok, hledF] at hwhole
    rw [hledF] at hclosed
    refine ⟨partF, bytesF ++ bytesM ++ bytesG, hreadF.isPart, hwhole, hclosed, ?_, ?_, ?_,
      fun hno => ?_, fun hfine hno hopen hecho w s hmem hw => ?_⟩
    · exact (carried_other hactL.only hneF).append hact.carried
    · rw [hact.line, hreadF.line, hledF]
    · rw [hact.echo, hreadF.echo, hledF]
    · rw [List.mem_append, not_or] at hno
      rw [hact.isOpen hno.2, hreadF.isOpen, hledF]
    · rw [List.mem_append, not_or] at hno
      have hsame : ((readFollowerPort c inp led).ports .follower).isOpen = true := by
        rw [hreadF.isOpen, hledF, hopen]
      have hquiet : ((readFollowerPort c inp led).ports .follower).bus.echo = false := by
        rw [hreadF.echo, hledF, hecho]
      rcases List.mem_append.mp hmem with hmem | hmem
      · cases hactL.only _ hmem
      · exact hact.sent hfine hno.2 hsame hquiet w s hmem hw

end Sections

inductive MadeOf (kind : List Byte → Prop) : List Byte → Prop where
  | nil : MadeOf kind []
  | snoc {bytes pkt part} : MadeOf kind bytes → kind pkt → part <+: pkt →
      MadeOf kind (bytes ++ part)

theorem MadeOf.append {kind : List Byte → Prop} {bytes more : List Byte}
    (h : MadeOf kind bytes) (k : MadeOf kind more) : MadeOf kind (bytes ++ more) := by
  induction k with
  | nil => rwa [List.append_nil]
  | snoc _ hkind hpart ih =>
    rw [← List.append_assoc]
    exact .snoc ih hkind hpart

/-- What a cycle does to the follower after its read, and when. -/
inductive FollowerPart [CFloat F] (c : Ctx) (inp : BusInput) (a next : Arms F) :
    List BusOp → Prop where
  | reopened (sent : Bool) (hnext : next.st.torque = false)
      (hread : gotFollower c inp a = none) :
      FollowerPart c inp a next [.reopen .follower,
        .write .follower (setTorque (armIds c.calFollower) false) sent]
  | released (sent : Bool) (ht : a.st.torque = true) (hnext : next.st.torque = false)
      (hreq : inp.modeReq ≠ Mode.teleop.word ∧ inp.modeReq ≠ Mode.hold.word) :
      FollowerPart c inp a next [.write .follower (setTorque (armIds c.calFollower) false) sent]
  | limp (ht : a.st.torque = false) (hnext : next.st.torque = false) :
      FollowerPart c inp a next []
  | kept (sent : Bool) (ht : a.st.torque = true) (hnext : next.st.torque = true)
      (hreq : inp.modeReq = Mode.teleop.word ∨ inp.modeReq = Mode.hold.word) :
      FollowerPart c inp a next
        [.write .follower (writeGoal (armIds c.calFollower) next.st.goal) sent]
  | enabled (sent sent' sent'' : Bool) (bf : Joint → Fin 8 → Byte) (ht : a.st.torque = false)
      (hnext : next.st.torque = true) (hread : gotFollower c inp a = some bf)
      (hreq : inp.modeReq = Mode.teleop.word ∨ inp.modeReq = Mode.hold.word) :
      FollowerPart c inp a next
        [.write .follower (writeGoal (armIds c.calFollower) (positionsRead bf)) sent,
          .write .follower (setTorque (armIds c.calFollower) true) sent',
          .write .follower (writeGoal (armIds c.calFollower) next.st.goal) sent'']

theorem carried_skip {bus other : Bus} {lead ops : List BusOp} {bytes : List Byte}
    (hlead : ∀ op ∈ lead, op.bus = other) (hne : other ≠ bus)
    (h : Carried bus (lead ++ ops) bytes) : Carried bus ops bytes := by
  induction lead generalizing bytes with
  | nil => exact h
  | cons op lead ih =>
    obtain _ | @⟨_, _, part, rest, hop, hrest⟩ := h
    have hbus := hlead op List.mem_cons_self
    have hnil : part = [] := by
      cases op with
      | reopen b => exact hop
      | write b w sent =>
        obtain rfl : b = other := hbus
        simpa [Puts, hne] using hop
    rw [hnil]
    exact ih (fun o ho => hlead o (List.mem_cons_of_mem _ ho)) hrest

/-- A cycle on the ports, between states in which torque is on in TELEOP and HOLD only. -/
theorem follower_part [CFloat F] {c : Ctx} {inp : BusInput} {a : Arms F} {i : Input}
    (hmode : TorqueInMode a.st) (hmeets : Meets c a inp i)
    (hdid : Did a (controlCycle c i a.st) (cycleOnPorts c inp a)) :
    ∃ ops, (controlCycle c i a.st).2 = (readLeader c i (wakeUp i a.st)).2 ++ ops ∧
      FollowerPart c inp a (cycleOnPorts c inp a) ops := by
  obtain ⟨sent, rfl⟩ := hmeets
  generalize hi : inp.met (gotLeader c inp a) (gotFollower c inp a) sent = i at hdid
  have hreq : i.modeReq = inp.modeReq := by rw [← hi]; rfl
  have hread : i.followerRead = gotFollower c inp a := by rw [← hi]; rfl
  obtain ⟨ops, hout, hops⟩ := cycle_outcome c i hmode
  have hst := hdid.st
  have hgoal : (controlCycle c i a.st).1.torque = true →
      (controlCycle c i a.st).1.goal = steppedGoal c (entered c i a.st) := by
    rw [cycle_torque]
    exact GoalLimit.cycle_goal
  refine ⟨ops ++ goalOps c i a.st, by rw [hops, List.append_assoc], ?_⟩
  unfold goalOps
  generalize ht : (controlCycle c i a.st).1.torque = torque at hout hgoal
  have hnext : (cycleOnPorts c inp a).st.torque = torque := by rw [hst, ht]
  cases hout with
  | reopened hr => exact .reopened _ hnext (hread ▸ reopens_read_failed hr)
  | released hr hon hb => exact .released _ hon hnext (hreq ▸ hb)
  | limp hr hoff hno => exact .limp hoff hnext
  | kept hr hon hb =>
    have hasked : inp.modeReq = Mode.teleop.word ∨ inp.modeReq = Mode.hold.word := by
      rw [← hreq, ← loaded_teleop_iff, ← loaded_hold_iff]
      exact not_not.mp (mt blocked_iff.mpr hb)
    rw [← hgoal rfl, ← hst]
    exact .kept _ hon hnext hasked
  | enabled bf hen =>
    rw [← hgoal rfl, ← hst]
    exact .enabled _ _ _ bf hen.off hnext (hread ▸ hen.read) (hreq ▸ hen.requested)

theorem shutdown_line (c : Ctx) (wire : Wire) (a : Arms F) :
    ∃ part sent, part <+: packet (setTorque (armIds c.calFollower) false) ∧
      (sent = true → part = packet (setTorque (armIds c.calFollower) false)) ∧
      (shutdown c wire a).log =
        a.log ++ [.write .follower (setTorque (armIds c.calFollower) false) sent] ∧
      ((shutdown c wire a).ports .follower).line = (a.ports .follower).line ++ part := by
  obtain ⟨part, hput⟩ := sync_write_puts (a.ports .follower) wire
    (setTorque (armIds c.calFollower) false)
  exact ⟨part, _, hput.isPart, fun hsent => (hput.whole hsent).1, rfl, hput.line⟩

end LineBytes
