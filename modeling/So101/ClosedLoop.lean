import So101.PortSamples
import So101.ServoTable

/-!
# The daemon and the two simulated arms

The control thread on its ports, with a simulator behind each. What a cycle writes reaches
the simulator in any chunks and its answers arrive before the timeouts; between cycles a
hand moves the leader. The registers of the follower are what the thread believes.
-/
namespace ClosedLoop

open GuardedMachine ServoBus ControlThread ControlCycle WriteDiscipline
open ControlBuses LineBytes PortSamples ServoTable
open Calibration (Joint CFloat)
open SharedMemory (Ctx Mode)
open ByteRange PacketCodec BusDriver ReceiveLoop SyncRead FakeBus

theorem get_flatten {α : Type*} {n : ℕ} {ds : List (List α)} (h : ∀ d ∈ ds, d.length = n)
    {k i : ℕ} {d : List α} (hd : ds[k]? = some d) (hi : i < n) (more : List α) :
    (ds.flatten ++ more)[n * k + i]? = d[i]? := by
  induction ds generalizing k with
  | nil => cases hd
  | cons e ds ih =>
    have he := h e List.mem_cons_self
    rw [List.flatten_cons, List.append_assoc]
    cases k with
    | zero =>
      cases hd
      rw [Nat.mul_zero, Nat.zero_add, List.getElem?_append_left (by omega)]
    | succ k =>
      have hrest := ih (fun d hd => h d (List.mem_cons_of_mem e hd)) hd
      rw [List.getElem?_append_right (by rw [he, Nat.mul_succ]; omega), ← hrest, he]
      congr 1
      rw [Nat.mul_succ]
      omega

theorem length_answer {sim : Sim} {ids : Joint → Byte} {v : Servos} (h : Serves sim ids v)
    (j : Joint) {n : ℕ} (hn : n ≤ 8) : ((v j).answer n).length = n := by
  obtain ⟨r, hr, hservo⟩ := h.table j
  have hlen := h.idle.length _ r hr
  rw [← hservo, answer_slice r hn]
  exact length_slice (by omega)

def answers (n : ℕ) (v : Servos) : Joint → Fin n → Byte := fun j i => ((v j).answer n).getD i 0

theorem read_answered {p : Port} {wire : Wire} {sim : Sim} {ids : Joint → Byte} {v : Servos}
    {n : Byte} {out : List Byte} (h : Serves sim ids v) (hopen : p.isOpen = true)
    (hecho : p.bus.echo = false) (hwire : wire.writeFailsAfter = none)
    (hprompt : ∀ a ∈ wire.arrivals, Prompt a) (hpos : n ≠ 0) (hn : n.toNat ≤ 8)
    (hbytes : incoming wire.arrivals = Call.reply ids (.read n) v)
    (hout : out.length = 6 * n.toNat) :
    (p.syncRead wire (List.ofFn ids) stsPresentPosition n out).1.isOk = true ∧
      blocks n.toNat (p.syncRead wire (List.ofFn ids) stsPresentPosition n out).2.2 =
        answers n.toNat v := by
  let packets : Joint → FtsPacket := fun j => ⟨ids j, 0, (v j).answer n.toNat⟩
  have hlen : ∀ j, (packets j).data.length = n.toNat := fun j => length_answer h j hn
  have hids : (List.ofFn packets).map FtsPacket.id = List.ofFn ids := by
    rw [List.map_ofFn]
    rfl
  have hmem : ∀ q ∈ List.ofFn packets, ∃ j, q = packets j := by
    intro q hq
    obtain ⟨j, hj⟩ := (List.mem_ofFn' packets q).mp hq
    exact ⟨j, hj.symm⟩
  have hreply : incoming wire.arrivals = ((List.ofFn packets).map packetBytes).flatten := by
    rw [hbytes, List.map_ofFn]
    rfl
  have hport : p.wire wire = wire := by rw [Port.wire, if_pos hopen]
  obtain ⟨next, hok, _⟩ := @sync_read_received p.bus wire (List.ofFn packets) stsPresentPosition n
    out hecho hwire (by simp) (by simp) hpos
    (fun q hq => by
      obtain ⟨j, rfl⟩ := hmem q hq
      obtain ⟨r, hr, _⟩ := h.table j
      exact ⟨(h.idle.id_ne hr).2, by rw [hlen]; omega⟩)
    (fun q hq => by
      obtain ⟨j, rfl⟩ := hmem q hq
      exact hlen j)
    hprompt hreply (by simp [hout])
  rw [hids] at hok
  simp only [Port.syncRead, hport, hok]
  refine ⟨rfl, ?_⟩
  funext j i
  have hget : ((List.ofFn packets).map FtsPacket.data)[(j : ℕ)]? =
      some ((v j).answer n.toNat) := by
    rw [List.getElem?_map, List.getElem?_ofFn, dif_pos j.isLt]
    rfl
  have hblock := get_flatten (n := n.toNat) (fun d hd => by
      obtain ⟨q, hq, rfl⟩ := List.mem_map.mp hd
      obtain ⟨j, rfl⟩ := hmem q hq
      exact hlen j) hget i.isLt (out.drop ((List.ofFn packets).length * n.toNat))
  simp only [blocks, answers, List.getD_eq_getElem?_getD, hblock]

structure Loop (F : Type*) where
  arms : Arms F
  sims : Bus → Sim

/-- A cycle of the loop: what the daemon meets, the leader's tables as the hand leaves them,
and how the bytes of the read and those after it are cut up on the way to the simulators. -/
structure LoopInput where
  inp : BusInput
  hand : Regs
  asked : Bus → List (List Byte)
  told : Bus → List (List Byte)

def armOf (c : Ctx) : Bus → Joint → Byte
  | .leader => armIds c.calLeader
  | .follower => armIds c.calFollower

variable {F : Type*}

def moved (s : Loop F) (e : LoopInput) : Bus → Sim
  | .leader => { s.sims .leader with regs := e.hand }
  | .follower => s.sims .follower

def heard (sim : Sim) (chunks : List (List Byte)) : Sim :=
  ((hear sim chunks).map Prod.fst).getD sim

section Machine

variable [CFloat F] (c : Ctx)

/-- The hand leaves every servo its table, and the answer to each read arrives in time. -/
structure Answered (s : Loop F) (e : LoopInput) : Prop where
  hand : ∀ id, (e.hand id).map List.length = ((s.sims .leader).regs id).map List.length
  read : ∀ bus, (e.inp.read bus).writeFailsAfter = none
  prompt : ∀ bus, ∀ a ∈ (e.inp.read bus).arrivals, Prompt a
  asked : ∀ bus, (e.asked bus).flatten = readPacket c bus
  answered : ∀ bus, (hear (moved s e bus) (e.asked bus)).map Prod.snd =
    some (incoming (e.inp.read bus).arrivals)

/-- The lines lose nothing: no write fails, and the simulators hear what the cycle writes. -/
structure LoopEnabled (s : Loop F) (e : LoopInput) : Prop extends Answered c s e where
  site : NoneFails e.inp
  told : ∀ bus, ((cycleOnPorts c e.inp s.arms).ports bus).line =
    (s.arms.ports bus).line ++ readPacket c bus ++ (e.told bus).flatten

def loop : Machine (Loop F) LoopInput where
  enabled := LoopEnabled c
  next s e :=
    { arms := cycleOnPorts c e.inp s.arms
      sims := fun bus => heard (heard (moved s e bus) (e.asked bus)) (e.told bus) }

/-- The follower's servos after a cycle that leaves the thread in `st`. -/
def drive (st : Control F) (v : Servos) : Servos := fun j =>
  if st.torque then
    { v j with
      torque := [1]
      goal := goalBytes (st.goal j)
      present := goalBytes (st.goal j) }
  else { v j with torque := [0] }

structure Ideal (F : Type*) where
  run : ControlRun F
  servos : Servos

/-- The control thread reads the leader and six servos that are at the goal of the last
cycle with torque on; every write to the follower arrives. -/
def ideal : Machine (Ideal F) Input where
  enabled t i := i.leaderRead.isSome = true ∧ i.followerRead = some (answers 8 t.servos) ∧
    ∀ w sent, .write .follower w sent ∈ (controlCycle c i t.run.st).2 → sent = true
  next t i :=
    { run := nextCycle c t.run i
      servos := drive (controlCycle c i t.run.st).1 t.servos }

def Gripped (st : Control F) : Prop := st.torque = true ↔ st.applied = .teleop ∨ st.applied = .hold

/-- The registers of the follower are what the thread believes of them. -/
structure Coupled (s : Loop F) (t : Ideal F) : Prop where
  shows : Shows s.arms t.run
  gripped : Gripped s.arms.st
  sized : Sized s.arms
  isOpen : ∀ bus, (s.arms.ports bus).isOpen = true
  echo : ∀ bus, (s.arms.ports bus).bus.echo = false
  leader : ∃ l, Serves (s.sims .leader) (armIds c.calLeader) l
  follower : Serves (s.sims .follower) (armIds c.calFollower) t.servos
  torque : ∀ j, (t.servos j).torque = [if s.arms.st.torque then 1 else 0]
  aimed : s.arms.st.torque = true → ∀ j, (t.servos j).goal = goalBytes (s.arms.st.goal j) ∧
    (t.servos j).present = goalBytes (s.arms.st.goal j)

/-- The cycle meets the clock of the loop's input and the leader as the hand left it, and
leaves the leader so, every register of it. -/
def MeetsHand (s : Loop F) (e : LoopInput) (i : Input) : Prop :=
  Meets c s.arms e.inp i ∧ (((loop c).next s e).sims .leader).regs = e.hand ∧
    ∃ l, Serves (moved s e .leader) (armIds c.calLeader) l ∧
      Serves (((loop c).next s e).sims .leader) (armIds c.calLeader) l ∧
      i.leaderRead = some (answers 2 l)

end Machine

section Cycle

variable [CFloat F] {c : Ctx} {s : Loop F} {t : Ideal F} {e : LoopInput}

theorem gripped_next {i : Input} {st : Control F} (h : Gripped st)
    (hread : i.followerRead.isSome = true) :
    Gripped (controlCycle c i st).1 ∧ (controlCycle c i st).1.applied = loadedMode i.modeReq := by
  have hreads := after_reads c i st
  have hstays : ¬ FollowerReopens i st := by
    intro hr
    rw [reopens_read_failed hr] at hread
    cases hread
  have hload : Gripped (loading c i st) := by
    have htorque : (loading c i st).torque = st.torque := by
      have hkept := hreads.torque
      simp only [hstays, decide_false, Bool.not_false, Bool.and_true] at hkept
      exact hkept
    rw [Gripped, htorque, show (loading c i st).applied = _ from hreads.applied]
    exact h
  have hok : (loading c i st).s.followerOk = true := hreads.follower_ok.trans hread
  rw [Gripped, cycle_torque, cycle_applied]
  have htrans := mode_transition c i (loading c i st)
  unfold entered
  generalize modeTransition c i (loading c i st) = r at htrans ⊢
  cases htrans with
  | same hsame => exact ⟨hload, hsame.symm⟩
  | kept _ hreq ht =>
    rw [enter_mode_torque]
    exact ⟨iff_of_true ht hreq, rfl⟩
  | enabled _ hreq _ _ =>
    rw [enter_mode_torque]
    exact ⟨iff_of_true rfl hreq, rfl⟩
  | refused _ _ _ hno => exact absurd hok (by simp [hno])
  | released _ hreq _ =>
    refine ⟨iff_of_false (by simp) ?_, rfl⟩
    rcases hreq with hreq | hreq <;> simp [enterMode, hreq]
  | limp _ hreq hoff =>
    refine ⟨iff_of_false (by simp [hoff]) ?_, rfl⟩
    rcases hreq with hreq | hreq <;> simp [enterMode, hreq]

omit [CFloat F] in
theorem serves_hand (h : Coupled c s t)
    (hhand : ∀ id, (e.hand id).map List.length = ((s.sims .leader).regs id).map List.length) :
    ∃ l, Serves (moved s e .leader) (armIds c.calLeader) l := by
  obtain ⟨l, hidle, htable⟩ := h.leader
  have hkept : ∀ id r, e.hand id = some r →
      ∃ q, (s.sims .leader).regs id = some q ∧ q.length = r.length := by
    intro id r hr
    have hlen := hhand id
    rw [hr, Option.map_some] at hlen
    obtain ⟨q, hq, hsame⟩ := Option.map_eq_some_iff.mp hlen.symm
    exact ⟨q, hq, hsame⟩
  have hserved : ∀ j, ∃ r, e.hand (armIds c.calLeader j) = some r := by
    intro j
    obtain ⟨q, hq, _⟩ := htable j
    have hlen := hhand (armIds c.calLeader j)
    rw [hq, Option.map_some] at hlen
    obtain ⟨r, hr, _⟩ := Option.map_eq_some_iff.mp hlen
    exact ⟨r, hr⟩
  choose tables htables using hserved
  refine ⟨fun j => servo (tables j), ⟨hidle.buf, fun id r hr => ?_, fun id r hr => ?_⟩, fun j =>
    ⟨tables j, htables j, rfl⟩⟩
  · obtain ⟨q, hq, hlen⟩ := hkept id r hr
    rw [← hlen, hidle.length id q hq]
  · obtain ⟨q, hq, _⟩ := hkept id r hr
    exact hidle.ids id q hq

theorem asked_answers {sim : Sim} {ids : Joint → Byte} {v : Servos} {n : Byte}
    {chunks : List (List Byte)} (hinj : Function.Injective ids) (h : Serves sim ids v)
    (hn : n.toNat ≤ 8)
    (hchunks : chunks.flatten = syncReadPacket (List.ofFn ids) stsPresentPosition n) :
    hear sim chunks = some (heard sim chunks, Call.reply ids (.read n) v) ∧
      Serves (heard sim chunks) ids v ∧ (heard sim chunks).regs = sim.regs := by
  obtain ⟨sim', hhear, hserves, hkept⟩ := hear_calls hinj h [.read n]
    (by simp [hn]) (hchunks.trans (by simp [Call.packet]))
  have hsim : heard sim chunks = sim' := by
    simp [heard, hhear]
  rw [hsim]
  refine ⟨?_, hserves, hkept (by simp)⟩
  rw [hhear]
  simp [replyAll]

omit [CFloat F] in
theorem loop_reads (hinj : ∀ bus, Function.Injective (armOf c bus)) (h : Coupled c s t)
    (he : Answered c s e) {l : Servos}
    (hl : Serves (moved s e .leader) (armIds c.calLeader) l) :
    gotLeader c e.inp s.arms = some (answers 2 l) ∧
      gotFollower c e.inp s.arms = some (answers 8 t.servos) := by
  have hanswer : ∀ bus {n v}, Serves (moved s e bus) (armOf c bus) v → n.toNat ≤ 8 →
      readPacket c bus = syncReadPacket (List.ofFn (armOf c bus)) stsPresentPosition n →
      incoming (e.inp.read bus).arrivals = Call.reply (armOf c bus) (.read n) v := by
    intro bus n v hv hn hpacket
    obtain ⟨hhear, _⟩ := asked_answers (hinj bus) hv hn ((he.asked bus).trans hpacket)
    have hans := he.answered bus
    rw [hhear] at hans
    exact (Option.some.inj hans).symm
  constructor
  · obtain ⟨hok, hblocks⟩ := read_answered hl (h.isOpen .leader)
      (h.echo .leader) (he.read .leader) (he.prompt .leader) (n := 2) (by decide) (by decide)
      (hanswer .leader hl (by decide) rfl) h.sized.bl
    simp only [gotLeader, leaderSyncRead, hok, if_true]
    exact congrArg some hblocks
  · obtain ⟨hok, hblocks⟩ := read_answered h.follower (h.isOpen .follower)
      (h.echo .follower) (he.read .follower) (he.prompt .follower) (n := 8) (by decide)
      (by decide) (hanswer .follower h.follower (by decide) rfl) h.sized.bf
    simp only [gotFollower, followerSyncRead, hok, if_true]
    exact congrArg some hblocks

omit [CFloat F] in
theorem reads_ok {inp : BusInput} {a : Arms F} {l : Joint → Fin 2 → Byte}
    {v : Joint → Fin 8 → Byte} (hleader : gotLeader c inp a = some l)
    (hfollower : gotFollower c inp a = some v) (bus : Bus) : readOk c inp a bus = true := by
  cases bus with
  | leader =>
    rw [readOk, ← got_leader_is_some, hleader]
    rfl
  | follower =>
    rw [readOk, ← got_follower_is_some, hfollower]
    rfl

theorem carried_writes {bus : Bus} (ws : List SyncWrite) {bytes : List Byte}
    (h : Carried bus (ws.map fun w => .write bus w true) bytes) :
    bytes = (ws.map packet).flatten := by
  induction ws generalizing bytes with
  | nil =>
    obtain _ | _ := h
    rfl
  | cons w ws ih =>
    obtain _ | @⟨_, _, part, rest, hop, hrest⟩ := h
    simp only [Puts, if_true] at hop
    rw [hop.2 trivial, ih hrest]
    rfl

theorem accepted_set_torque (ids : Joint → Byte) (on : Bool) : Accepted (setTorque ids on) := by
  have hlen : (setTorque ids on).ids.length = 6 := List.length_ofFn
  rw [Accepted, hlen]
  rfl

theorem accepted_write_goal (ids : Joint → Byte) (g : Joint → ℤ) :
    Accepted (writeGoal ids g) := by
  have hlen : (writeGoal ids g).ids.length = 6 := List.length_ofFn
  rw [Accepted, hlen]
  rfl

theorem no_leader_ops {i : Input} {st : Control F} (h : i.leaderRead.isSome = true) :
    (readLeader c i st).2 = [] := by
  obtain ⟨bl, hbl⟩ := Option.isSome_iff_exists.mp h
  have hstreak : (leaderSample c i st.s).leaderStreak = 0 := by
    simp [leaderSample, hbl, nextStreak]
  simp only [readLeader, hstreak]
  rw [if_neg (by simp [reopenAfter])]

/-- What the follower's servos are asked after their read, and what it makes of them. -/
theorem follower_calls {next : Arms F} {ops : List BusOp}
    (h : FollowerPart c e.inp s.arms next ops) (hgot : gotFollower c e.inp s.arms ≠ none)
    (hsent : ∀ w sent, .write .follower w sent ∈ ops → Accepted w → sent = true)
    {v : Servos} (htorque : ∀ j, (v j).torque = [if s.arms.st.torque then 1 else 0]) :
    ∃ calls : List Call, (∀ n, .read n ∉ calls) ∧
      (∀ bytes, Carried .follower ops bytes →
        bytes = (calls.map (Call.packet (armIds c.calFollower))).flatten) ∧
      applyAll calls v = drive next.st v := by
  cases h with
  | reopened _ _ hread => exact absurd hread hgot
  | released sent ht hnext hreq =>
    obtain rfl := hsent _ _ List.mem_cons_self (accepted_set_torque _ _)
    refine ⟨[.torque false], by simp, fun bytes hb => ?_, ?_⟩
    · exact carried_writes [setTorque (armIds c.calFollower) false] hb
    · funext j
      simp [applyAll, Call.apply, drive, hnext]
  | limp ht hnext =>
    refine ⟨[], by simp, fun bytes hb => carried_writes [] hb, ?_⟩
    funext j
    have hoff := htorque j
    simp only [ht, Bool.false_eq_true, if_false] at hoff
    simp only [applyAll, drive, hnext, Bool.false_eq_true, if_false]
    exact congrArg (fun tq : List Byte => ({ v j with torque := tq } : Servo)) hoff
  | kept sent ht hnext hreq =>
    obtain rfl := hsent _ _ List.mem_cons_self (accepted_write_goal _ _)
    refine ⟨[.goal next.st.goal], by simp, fun bytes hb => ?_, ?_⟩
    · exact carried_writes [writeGoal (armIds c.calFollower) next.st.goal] hb
    · funext j
      have hon := htorque j
      simp only [ht, if_true] at hon
      simp only [applyAll, Call.apply, drive, hnext, if_true]
      exact congrArg (fun tq : List Byte =>
        Servo.mk tq (goalBytes (next.st.goal j)) (goalBytes (next.st.goal j)) (v j).rest) hon
  | enabled sent sent' sent'' bf ht hnext hread hreq =>
    obtain rfl := hsent (writeGoal (armIds c.calFollower) (positionsRead bf)) sent (by simp)
      (accepted_write_goal _ _)
    obtain rfl := hsent (setTorque (armIds c.calFollower) true) sent' (by simp)
      (accepted_set_torque _ _)
    obtain rfl := hsent (writeGoal (armIds c.calFollower) next.st.goal) sent'' (by simp)
      (accepted_write_goal _ _)
    refine ⟨[.goal (positionsRead bf), .torque true, .goal next.st.goal], by simp,
      fun bytes hb => ?_, ?_⟩
    · exact carried_writes [writeGoal (armIds c.calFollower) (positionsRead bf),
        setTorque (armIds c.calFollower) true, writeGoal (armIds c.calFollower) next.st.goal] hb
    · funext j
      simp [applyAll, Call.apply, drive, hnext]

theorem follower_part_accepted {a next : Arms F} {inp : BusInput} {ops : List BusOp}
    (h : FollowerPart c inp a next ops) {w : SyncWrite} {sent : Bool}
    (hmem : .write .follower w sent ∈ ops) : Accepted w := by
  have htorque := fun on => accepted_set_torque (armIds c.calFollower) on
  have hgoal := fun g => accepted_write_goal (armIds c.calFollower) g
  cases h <;> simp only [List.mem_cons, List.not_mem_nil, or_false, BusOp.write.injEq,
    reduceCtorEq, false_or] at hmem
  · exact hmem.2.1 ▸ htorque _
  · exact hmem.2.1 ▸ htorque _
  · exact hmem.2.1 ▸ hgoal _
  · rcases hmem with hmem | hmem | hmem
    · exact hmem.2.1 ▸ hgoal _
    · exact hmem.2.1 ▸ htorque _
    · exact hmem.2.1 ▸ hgoal _

theorem follower_part_open {a next : Arms F} {inp : BusInput} {ops : List BusOp}
    (h : FollowerPart c inp a next ops) (hgot : gotFollower c inp a ≠ none) :
    .reopen .follower ∉ ops := by
  cases h with
  | reopened _ _ hread => exact absurd hread hgot
  | released _ _ _ _ => simp
  | limp _ _ => simp
  | kept _ _ _ _ => simp
  | enabled _ _ _ _ _ _ _ _ => simp

theorem follower_part_bus {a next : Arms F} {inp : BusInput} {ops : List BusOp}
    (h : FollowerPart c inp a next ops) : ∀ op ∈ ops, op.bus = .follower := by
  cases h <;> simp [BusOp.bus]

omit [CFloat F] in
theorem told_calls {sim : Sim} {ids : Joint → Byte} {v : Servos} (hinj : Function.Injective ids)
    (h : Serves sim ids v) (calls : List Call) (hread : ∀ n, .read n ∉ calls)
    {chunks : List (List Byte)} (hchunks : chunks.flatten = (calls.map (Call.packet ids)).flatten) :
    Serves (heard sim chunks) ids (applyAll calls v) := by
  obtain ⟨sim', hhear, hserves, _⟩ :=
    hear_calls hinj h calls (fun n hmem => absurd hmem (hread n)) hchunks
  have hsim : heard sim chunks = sim' := by simp [heard, hhear]
  rwa [hsim]

omit [CFloat F] in
theorem told_nothing {sim : Sim} {ids : Joint → Byte} {v : Servos}
    (hinj : Function.Injective ids) (h : Serves sim ids v) {chunks : List (List Byte)}
    (hchunks : chunks.flatten = []) :
    Serves (heard sim chunks) ids v ∧ (heard sim chunks).regs = sim.regs := by
  obtain ⟨sim', hhear, hserves, hkept⟩ := hear_calls hinj h [] (by simp) hchunks
  have hsim : heard sim chunks = sim' := by simp [heard, hhear]
  rw [hsim]
  exact ⟨hserves, hkept (by simp)⟩

omit [CFloat F] in
theorem drive_torque (st : Control F) (v : Servos) (j : Joint) :
    (drive st v j).torque = [if st.torque then 1 else 0] := by
  unfold drive
  cases st.torque <;> rfl

omit [CFloat F] in
theorem drive_aimed {st : Control F} (hon : st.torque = true) (v : Servos) (j : Joint) :
    (drive st v j).goal = goalBytes (st.goal j) ∧
      (drive st v j).present = goalBytes (st.goal j) := by
  unfold drive
  rw [if_pos hon]
  exact ⟨rfl, rfl⟩

theorem told_bytes {bus : Bus} (he : LoopEnabled c s e) {ops : List BusOp}
    {part bytes : List Byte} (hcycle : CycleBytes c e.inp s.arms (cycleOnPorts c e.inp s.arms)
      ops bus part bytes) (hok : readOk c e.inp s.arms bus = true) :
    (e.told bus).flatten = bytes := by
  have htold := he.told bus
  rw [hcycle.line, (hcycle.whole hok).1] at htold
  exact (List.append_cancel_left htold).symm

theorem leader_left (hinj : ∀ bus, Function.Injective (armOf c bus)) (he : Answered c s e)
    {l : Servos} (hl : Serves (moved s e .leader) (armIds c.calLeader) l)
    (htold : (e.told .leader).flatten = []) :
    Serves (((loop c).next s e).sims .leader) (armIds c.calLeader) l ∧
      (((loop c).next s e).sims .leader).regs = e.hand := by
  obtain ⟨_, hasked, hread⟩ :=
    asked_answers (n := 2) (hinj .leader) hl (by decide) (he.asked .leader)
  obtain ⟨hkept, hregs⟩ := told_nothing (hinj .leader) hasked htold
  exact ⟨hkept, hregs.trans hread⟩

/-- A cycle of the loop is a cycle of the ideal loop. -/
theorem loop_step (hinj : ∀ bus, Function.Injective (armOf c bus)) (h : Coupled c s t)
    (he : LoopEnabled c s e) : ∃ i, (ideal c).enabled t i ∧ MeetsHand c s e i ∧
      Coupled c ((loop c).next s e) ((ideal c).next t i) := by
  obtain ⟨l, hl⟩ := serves_hand h he.hand
  obtain ⟨hgotL, hgotF⟩ := loop_reads hinj h he.toAnswered hl
  obtain ⟨i, hmeets, hdid⟩ := cycle_on_ports_did c e.inp s.arms
  have hread : i.leaderRead = some (answers 2 l) ∧
      i.followerRead = some (answers 8 t.servos) := by
    obtain ⟨sent, rfl⟩ := hmeets
    exact ⟨hgotL, hgotF⟩
  have hgot : gotFollower c e.inp s.arms ≠ none := by simp [hgotF]
  have hok := reads_ok hgotL hgotF
  obtain ⟨ops, hops, hpart⟩ := follower_part h.gripped.mp hmeets hdid
  have hsilent : (readLeader c i (wakeUp i s.arms.st)).2 = [] :=
    no_leader_ops (by simp [hread.1])
  rw [hsilent, List.nil_append] at hops
  obtain ⟨partL, bytesL, hcycleL⟩ := cycle_bytes c e.inp s.arms hdid .leader
  obtain ⟨partF, bytesF, hcycleF⟩ := cycle_bytes c e.inp s.arms hdid .follower
  rw [hops] at hcycleL hcycleF
  have hopenF := follower_part_open hpart hgot
  have hopenL : .reopen .leader ∉ ops := by
    intro hmem
    cases follower_part_bus hpart _ hmem
  have hsent : ∀ w sent, .write .follower w sent ∈ ops → Accepted w → sent = true :=
    hcycleF.sent he.site hopenF (h.isOpen .follower) (h.echo .follower)
  obtain ⟨calls, hnoread, hbytes, hcalls⟩ := follower_calls hpart hgot hsent h.torque
  have hst : (controlCycle c i t.run.st).1 = (cycleOnPorts c e.inp s.arms).st := by
    rw [h.shows.st]
    exact hdid.st.symm
  have hnil : bytesL = [] := by
    have hcarried := hcycleL.carried
    rw [← List.append_nil ops] at hcarried
    exact carried_writes [] (carried_skip (follower_part_bus hpart) (by decide) hcarried)
  have hleader := told_bytes he hcycleL (hok .leader)
  have hfollower := (told_bytes he hcycleF (hok .follower)).trans (hbytes _ hcycleF.carried)
  rw [hnil] at hleader
  obtain ⟨_, haskedF, _⟩ :=
    asked_answers (n := 8) (hinj .follower) h.follower (by decide) (he.asked .follower)
  obtain ⟨hkept, hregs⟩ := leader_left hinj he.toAnswered hl hleader
  refine ⟨i, ⟨by simp [hread.1], hread.2, ?_⟩, ⟨hmeets, hregs, l, hl, hkept, hread.1⟩, ?_⟩
  · intro w sent hmem
    rw [h.shows.st, hops] at hmem
    exact hsent w sent hmem (follower_part_accepted hpart hmem)
  · refine ⟨⟨hst, ?_⟩, ?_, sized_next c e.inp s.arms h.sized, ?_, ?_, ?_, ?_, ?_, ?_⟩
    · change t.run.log ++ (controlCycle c i t.run.st).2 = _
      rw [h.shows.st, h.shows.log]
      exact hdid.log.symm
    · change Gripped (cycleOnPorts c e.inp s.arms).st
      rw [hdid.st]
      exact (gripped_next h.gripped (by simp [hread.2])).1
    · intro bus
      cases bus with
      | leader => exact (hcycleL.isOpen hopenL).trans (h.isOpen .leader)
      | follower => exact (hcycleF.isOpen hopenF).trans (h.isOpen .follower)
    · intro bus
      cases bus with
      | leader => exact hcycleL.echo.trans (h.echo .leader)
      | follower => exact hcycleF.echo.trans (h.echo .follower)
    · exact ⟨l, hkept⟩
    · have hserves := told_calls (hinj .follower) haskedF _ hnoread hfollower
      rw [hcalls, ← hst] at hserves
      exact hserves
    · intro j
      change (drive (controlCycle c i t.run.st).1 t.servos j).torque = _
      rw [drive_torque, hst]
      rfl
    · intro hon j
      have hnext : ((ideal c).next t i).servos = drive (cycleOnPorts c e.inp s.arms).st t.servos :=
        congrArg (fun st : Control F => drive st t.servos) hst
      rw [hnext]
      exact drive_aimed hon t.servos j

/-- What a cycle of the loop publishes and what it leaves in the registers, from the servos
of the leader and the follower that it reads. -/
structure LoopCycle (c : Ctx) (next : Loop F) (e : LoopInput) (l v : Servos) : Prop where
  leaderOk : next.arms.st.s.leaderOk = true
  followerOk : next.arms.st.s.followerOk = true
  leader : leaderFields next.arms.st.s = decodeLeader c (answers 2 l)
  follower : followerFields next.arms.st.s = decodeFollower c (answers 8 v)
  granted : next.arms.st.applied = loadedMode e.inp.modeReq
  torque : next.arms.st.torque = true ↔
    e.inp.modeReq = Mode.teleop.word ∨ e.inp.modeReq = Mode.hold.word
  registers : Serves (next.sims .follower) (armIds c.calFollower) (drive next.arms.st v)
  untouched : Serves (next.sims .leader) (armIds c.calLeader) l
  asLeft : (next.sims .leader).regs = e.hand

theorem loop_cycle (hinj : ∀ bus, Function.Injective (armOf c bus)) (h : Coupled c s t)
    (he : LoopEnabled c s e) : ∃ l, Serves (moved s e .leader) (armIds c.calLeader) l ∧
      LoopCycle c ((loop c).next s e) e l t.servos := by
  obtain ⟨i, ⟨_, hfollower, _⟩, ⟨hmeets, hregs, l, hl, hkept, hleader⟩, hnext⟩ :=
    loop_step hinj h he
  have hst : (controlCycle c i t.run.st).1 = ((loop c).next s e).arms.st := hnext.shows.st
  have hreq : i.modeReq = e.inp.modeReq := by
    obtain ⟨_, rfl⟩ := hmeets
    rfl
  obtain ⟨hlok, hfok, hlfields, hffields⟩ := cycle_fields c i t.run.st
  obtain ⟨hgripped, happlied⟩ := gripped_next (c := c) (i := i) (h.shows.st ▸ h.gripped)
    (by simp [hfollower])
  rw [hst, hleader] at hlfields
  rw [hst, hfollower] at hffields
  rw [hst] at hlok hfok hgripped happlied
  rw [hreq] at happlied
  refine ⟨l, hl, by simp [hlok, hleader], by simp [hfok, hfollower], hlfields, hffields, happlied,
    ?_, ?_, hkept, hregs⟩
  · rw [show _ ↔ _ from hgripped, happlied, loaded_teleop_iff, loaded_hold_iff]
  · rw [← hst]
    exact hnext.follower

end Cycle

end ClosedLoop
