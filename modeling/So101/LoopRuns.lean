import So101.ClosedLoop
import So101.GoalConvergence

/-!
# Runs of the daemon and the two simulated arms

From start-up on the follower's registers are what the thread believes of them: torque is on
where TELEOP or HOLD is asked for, and a leader that is held still is followed to its place.
-/
namespace LoopRuns

open GuardedMachine ForwardSimulation ServoBus ControlThread ControlCycle WriteDiscipline
open ControlBuses LineBytes ServoTable ClosedLoop GoalLimit GoalConvergence
open Calibration (Joint CFloat calibNormalize calibUnnormalize)
open FloatLaws (RoundedFloat)
open CalibrationMap (ends_differ_of_small)
open SharedMemory (Ctx Mode U32)
open ByteRange BusDriver ReceiveLoop FakeBus

variable {F : Type*}

theorem serves_unique {sim : Sim} {ids : Joint → Byte} {v w : Servos} (h : Serves sim ids v)
    (k : Serves sim ids w) : v = w := by
  funext j
  obtain ⟨r, hr, hv⟩ := h.table j
  obtain ⟨q, hq, hw⟩ := k.table j
  rw [← hv, ← hw, Option.some.inj (hr.symm.trans hq)]

section Runs

variable [CFloat F] {c : Ctx}

theorem loop_lockstep (hinj : ∀ bus, Function.Injective (armOf c bus)) :
    Lockstep (loop c : Machine (Loop F) LoopInput) (ideal c) (Coupled c) (MeetsHand c) where
  step _ _ _ h he := loop_step hinj h he

/-- What the daemon finds when it has opened the ports, and how the bytes of its first two
writes are cut up. -/
structure Boot where
  now : ℤ
  ports : Bus → Port
  wire : Bus → Wire
  bl : Fin 12 → Byte
  bf : Fin 48 → Byte
  sims : Bus → Sim
  told : Bus → List (List Byte)

def startLoop (c : Ctx) (b : Boot) : Loop F where
  arms := startOnPorts c b.now b.ports b.wire (List.ofFn b.bl) (List.ofFn b.bf)
  sims bus := heard (b.sims bus) (b.told bus)

/-- Both ports are open, and the releases of the start-up reach the simulators. -/
structure Starts (c : Ctx) (b : Boot) : Prop where
  isOpen : ∀ bus, (b.ports bus).isOpen = true
  echo : ∀ bus, (b.ports bus).bus.echo = false
  wire : ∀ bus, (b.wire bus).writeFailsAfter = none
  served : ∀ bus, ∃ v, Serves (b.sims bus) (armOf c bus) v
  told : ∀ bus, (b.told bus).flatten = packet (setTorque (armOf c bus) false)

theorem start_released (hinj : ∀ bus, Function.Injective (armOf c bus)) {b : Boot}
    (h : Starts c b) (bus : Bus) {v : Servos} (hv : Serves (b.sims bus) (armOf c bus) v) :
    Serves ((startLoop c b : Loop F).sims bus) (armOf c bus) ((Call.torque false).apply v) :=
  told_calls (hinj bus) hv [.torque false] (by simp)
    ((h.told bus).trans (by simp [Call.packet]))

theorem start_coupled (hinj : ∀ bus, Function.Injective (armOf c bus)) {b : Boot}
    (h : Starts c b) : ∃ t, Coupled c (startLoop c b : Loop F) t ∧
      t.run = startUp c b.now true true := by
  obtain ⟨l, hl⟩ := h.served .leader
  obtain ⟨v, hv⟩ := h.served .follower
  let a₀ : Arms F := ⟨startControl c b.now, b.ports, List.ofFn b.bl, List.ofFn b.bf, []⟩
  let offF := setTorque (armIds c.calFollower) false
  let offL := setTorque (armIds c.calLeader) false
  let a₁ := a₀.write (b.wire .follower) .follower offF
  obtain ⟨_, hfollower⟩ := write_acts (acts_refl True .follower a₀)
    (fun _ => h.wire .follower) offF
  obtain ⟨_, hleader⟩ := write_acts (acts_refl True .leader a₁) (fun _ => h.wire .leader) offL
  have hport : a₁.ports .leader = b.ports .leader := hfollower.other .leader (by decide)
  have hend : (startLoop c b : Loop F).arms = a₁.write (b.wire .leader) .leader offL := rfl
  have hportF : (startLoop c b : Loop F).arms.ports .follower = a₁.ports .follower :=
    hleader.other .follower (by decide)
  have hsentF : a₀.sends (b.wire .follower) .follower offF = true :=
    hfollower.sent trivial (by simp) (h.isOpen .follower) (h.echo .follower) offF _ (by simp)
      (accepted_set_torque _ _)
  have hsentL : a₁.sends (b.wire .leader) .leader offL = true :=
    hleader.sent trivial (by simp) (hport ▸ h.isOpen .leader) (hport ▸ h.echo .leader) offL _
      (by simp) (accepted_set_torque _ _)
  refine ⟨⟨startUp c b.now true true, (Call.torque false).apply v⟩, ⟨⟨rfl, ?_⟩, ?_, ?_, ?_, ?_,
    ⟨_, start_released hinj h .leader hl⟩, start_released hinj h .follower hv, ?_, ?_⟩, rfl⟩
  · rw [hend, write_log, hsentL]
    change _ = a₀.log ++ [.write .follower offF (a₀.sends (b.wire .follower) .follower offF)] ++ _
    rw [hsentF]
    rfl
  · exact iff_of_false (by simp [startLoop, startOnPorts, startControl])
      (by simp [startLoop, startOnPorts, startControl])
  · exact ⟨List.length_ofFn, List.length_ofFn⟩
  · intro bus
    cases bus with
    | leader =>
      rw [hend, hleader.isOpen (by simp), hport]
      exact h.isOpen .leader
    | follower =>
      rw [hportF, hfollower.isOpen (by simp)]
      exact h.isOpen .follower
  · intro bus
    cases bus with
    | leader =>
      rw [hend, hleader.echo, hport]
      exact h.echo .leader
    | follower =>
      rw [hportF, hfollower.echo]
      exact h.echo .follower
  · exact fun _ => rfl
  · intro hon
    cases hon

omit [CFloat F] in
theorem reply_ne_nil {sim : Sim} {ids : Joint → Byte} {v : Servos} {n : Byte}
    (h : Serves sim ids v) (hn : n.toNat ≤ 8) : Call.reply ids (.read n) v ≠ [] := by
  intro hnil
  have hwell : WellFormed ⟨ids 0, 0, (v 0).answer n.toNat⟩ := by
    obtain ⟨r, hr, _⟩ := h.table 0
    refine ⟨(h.idle.id_ne hr).2, ?_⟩
    rw [length_answer h 0 hn]
    exact hn.trans (by decide)
  have hlen := length_packet_bytes hwell
  have hmem := List.flatten_eq_nil_iff.mp hnil
  have hfirst := hmem (packetBytes ⟨ids 0, 0, (v 0).answer n.toNat⟩)
    ((List.mem_ofFn' _ _).mpr ⟨0, rfl⟩)
  rw [show packetBytes _ = [] from hfirst] at hlen
  cases hlen

def replies (c : Ctx) (l v : Servos) : Bus → List Byte
  | .leader => Call.reply (armIds c.calLeader) (.read 2) l
  | .follower => Call.reply (armIds c.calFollower) (.read 8) v

theorem exists_cycle (hinj : ∀ bus, Function.Injective (armOf c bus)) {s : Loop F} {t : Ideal F}
    (h : Coupled c s t) (inp : BusInput) :
    ∃ e, (loop c).enabled s e ∧ e.hand = (s.sims .leader).regs ∧ e.inp.modeReq = inp.modeReq := by
  obtain ⟨l, hl⟩ := h.leader
  let reply := replies c l t.servos
  let heardInp : BusInput :=
    { inp with read := fun bus => ⟨none, [.bytes (reply bus)]⟩, site := fun _ => ⟨none, []⟩ }
  let asked : Bus → List (List Byte) := fun bus => [readPacket c bus]
  have hasked : ∀ bus, (asked bus).flatten = readPacket c bus := fun bus => List.append_nil _
  let before : LoopInput := ⟨heardInp, (s.sims .leader).regs, asked, fun _ => []⟩
  have hreply : ∀ bus, reply bus ≠ [] := by
    intro bus
    cases bus with
    | leader => exact reply_ne_nil hl (by decide)
    | follower => exact reply_ne_nil h.follower (by decide)
  have hans : Answered c s before := by
    refine ⟨fun _ => rfl, fun _ => rfl, fun bus a ha => ?_, hasked, fun bus => ?_⟩
    · obtain rfl := List.mem_singleton.mp ha
      exact hreply bus
    · cases bus with
      | leader =>
        obtain ⟨hhear, _⟩ := asked_answers (n := 2) (hinj .leader) hl (by decide) (hasked .leader)
        change (hear (s.sims .leader) (asked .leader)).map Prod.snd = _
        rw [hhear]
        exact congrArg some (List.append_nil (reply .leader)).symm
      | follower =>
        obtain ⟨hhear, _⟩ := asked_answers (n := 8) (hinj .follower) h.follower (by decide)
          (hasked .follower)
        change (hear (s.sims .follower) (asked .follower)).map Prod.snd = _
        rw [hhear]
        exact congrArg some (List.append_nil (reply .follower)).symm
  obtain ⟨hgotL, hgotF⟩ := loop_reads hinj h hans hl
  obtain ⟨i, _, hdid⟩ := cycle_on_ports_did c heardInp s.arms
  have hok : ∀ bus, readOk c heardInp s.arms bus = true := reads_ok hgotL hgotF
  choose part bytes hcycle using cycle_bytes c heardInp s.arms hdid
  refine ⟨{ before with told := fun bus => [bytes bus] },
    ⟨⟨hans.hand, hans.read, hans.prompt, hans.asked, fun bus => ?_⟩, fun _ => rfl, fun bus => ?_⟩,
    rfl, rfl⟩
  · have hsame := hans.answered bus
    cases bus <;> exact hsame
  · rw [← ((hcycle bus).whole (hok bus)).1]
    exact (hcycle bus).line.trans (by simp)

theorem exists_run (hinj : ∀ bus, Function.Injective (armOf c bus)) (w : U32) (n : ℕ)
    {s : Loop F} {t : Ideal F} (h : Coupled c s t) {l : Servos}
    (hl : Serves (s.sims .leader) (armIds c.calLeader) l) :
    ∃ es, es.length = n ∧ (loop c).Valid s es ∧
      (loop c).Along (fun s e => e.inp.modeReq = w ∧
        Serves (moved s e .leader) (armIds c.calLeader) l) s es := by
  induction n generalizing s t with
  | zero => exact ⟨[], rfl, trivial, trivial⟩
  | succ n ih =>
    let inp : BusInput := ⟨0, 0, 0, 0, 0, 0, w, 0, fun _ => ⟨none, []⟩, fun _ => ⟨none, []⟩,
      fun _ => ⟨true, true, true⟩⟩
    obtain ⟨e, he, hhand, hreq⟩ := exists_cycle hinj h inp
    have hmoved : Serves (moved s e .leader) (armIds c.calLeader) l := by
      rw [moved, hhand]
      exact hl
    obtain ⟨i, _, ⟨_, _, l', hl', hkept, _⟩, hnext⟩ := loop_step hinj h he
    obtain rfl := serves_unique hmoved hl'
    obtain ⟨es, hlen, hv, halong⟩ := ih hnext hkept
    exact ⟨e :: es, by simp [hlen], ⟨he, hv⟩, ⟨⟨hreq, hmoved⟩, halong⟩⟩

end Runs

def bench : Ctx := Ctx.default Calibration.fullRange Calibration.fullRange

def restTable (pos : ℤ) : List Byte := overwrite (List.replicate 256 0) 56 (goalBytes pos)

def benchSim (pos : ℤ) : Sim where
  regs id := if 1 ≤ id.toNat ∧ id.toNat ≤ 6 then some (restTable pos) else none
  buf := []

/-- The leader is in the middle, the follower at the end of its range. -/
def benchBoot : Boot where
  now := 0
  ports _ := ⟨SyncRead.opened, true, []⟩
  wire _ := ⟨none, []⟩
  bl _ := 0
  bf _ := 0
  sims
    | .leader => benchSim 2048
    | .follower => benchSim 0
  told bus := [packet (setTorque (armOf bench bus) false)]

theorem bench_injective (bus : Bus) : Function.Injective (armOf bench bus) := by
  cases bus <;> decide

theorem bench_serves (pos : ℤ) :
    Serves (benchSim pos) (armIds Calibration.fullRange) (fun _ => servo (restTable pos)) := by
  have hids : ∀ j : Joint, 1 ≤ (armIds Calibration.fullRange j).toNat ∧
      (armIds Calibration.fullRange j).toNat ≤ 6 := by decide
  refine ⟨⟨rfl, fun id r hr => ?_, fun id r hr => ?_⟩, fun j => ⟨_, if_pos (hids j), rfl⟩⟩
  · obtain ⟨_, hr⟩ := Option.ite_none_right_eq_some.mp hr
    rw [← Option.some.inj hr]
    have hroom : 56 + (goalBytes pos).length ≤ (List.replicate 256 (0 : Byte)).length := by
      rw [List.length_replicate, show (goalBytes pos).length = 2 from rfl]
      norm_num
    exact (length_overwrite hroom).trans List.length_replicate
  · obtain ⟨hid, _⟩ := Option.ite_none_right_eq_some.mp hr
    exact ⟨hid.1, hid.2.trans (by decide)⟩

theorem bench_starts : Starts bench benchBoot where
  isOpen _ := rfl
  echo _ := rfl
  wire _ := rfl
  served
    | .leader => ⟨_, bench_serves 2048⟩
    | .follower => ⟨_, bench_serves 0⟩
  told _ := List.append_nil _

theorem bench_run (w : U32) (n : ℕ) : ∃ es, es.length = n ∧
    (loop bench).Valid (startLoop bench benchBoot : Loop ℚ) es ∧
    (loop bench).Along (fun s e => e.inp.modeReq = w ∧ Serves (moved s e .leader)
        (armIds bench.calLeader) ((Call.torque false).apply fun _ => servo (restTable 2048)))
      (startLoop bench benchBoot : Loop ℚ) es := by
  obtain ⟨t, ht, _⟩ := start_coupled (F := ℚ) bench_injective bench_starts
  exact exists_run bench_injective w n ht
    (start_released bench_injective bench_starts .leader (bench_serves 2048))

section Runs

variable [CFloat F] {c : Ctx}

/-- From start-up on, in every cycle of every run: the sample has what the servos of both
arms held, torque is on in all six where TELEOP or HOLD is asked for and off where it is
not, goal and position are then the goal of the cycle, and every register of the leader is as
the hand left it. -/
theorem loop_registers (hinj : ∀ bus, Function.Injective (armOf c bus)) {b : Boot}
    (h : Starts c b) {es : List LoopInput} (hv : (loop c).Valid (startLoop c b : Loop F) es) :
    (loop c).Along (fun s e => ∃ l v, Serves (moved s e .leader) (armIds c.calLeader) l ∧
        Serves (s.sims .follower) (armIds c.calFollower) v ∧
        LoopCycle c ((loop c).next s e) e l v) (startLoop c b : Loop F) es := by
  obtain ⟨t, ht, _⟩ := start_coupled (F := F) hinj h
  have hstep : ∀ (s : Loop F) e, (∃ t, Coupled c s t) → (loop c).enabled s e → True →
      ∃ t, Coupled c ((loop c).next s e) t := by
    rintro s e ⟨t, hs⟩ he _
    obtain ⟨i, _, _, hnext⟩ := loop_step hinj hs he
    exact ⟨_, hnext⟩
  refine (along_of_invariant hstep ⟨t, ht⟩ hv (along_of_forall (fun _ _ _ => trivial))).imp ?_
  rintro s e ⟨⟨t, hs⟩, he, _⟩
  obtain ⟨l, hl, hcycle⟩ := loop_cycle hinj hs he
  exact ⟨l, t.servos, hl, hs.follower, hcycle⟩

/-- Three cycles in TELEOP on the bench. -/
theorem loop_registers_bench : ∃ es, es.length = 3 ∧
    (loop bench).Along (fun s e => ∃ l v, Serves (moved s e .leader) (armIds bench.calLeader) l ∧
        Serves (s.sims .follower) (armIds bench.calFollower) v ∧
        LoopCycle bench ((loop bench).next s e) e l v)
      (startLoop bench benchBoot : Loop ℚ) es := by
  obtain ⟨es, hlen, hv, _⟩ := bench_run Mode.teleop.word 3
  exact ⟨es, hlen, loop_registers bench_injective bench_starts hv⟩

/-- The writes of a run and of the shutdown after it arrive: the follower is limp where it
was, with the goal it had, whatever mode was asked for. -/
theorem loop_shut_down (hinj : ∀ bus, Function.Injective (armOf c bus)) {b : Boot}
    (h : Starts c b) {es : List LoopInput} (hv : (loop c).Valid (startLoop c b : Loop F) es)
    {s : Loop F} (hs : s = (loop c).run (startLoop c b) es) {wire : Wire}
    (hwire : wire.writeFailsAfter = none) {told : List (List Byte)}
    (htold : ((shutdown c wire s.arms).ports .follower).line =
      (s.arms.ports .follower).line ++ told.flatten) :
    (shutdown c wire s.arms).log =
        s.arms.log ++ [.write .follower (setTorque (armIds c.calFollower) false) true] ∧
      ∃ v, Serves (s.sims .follower) (armIds c.calFollower) v ∧
        Serves (heard (s.sims .follower) told) (armIds c.calFollower)
          fun j => { v j with torque := [0] } := by
  obtain ⟨t₀, ht₀, _⟩ := start_coupled (F := F) hinj h
  obtain ⟨is, _, _, _, hcoupled⟩ := (loop_lockstep hinj).run ht₀ hv
  rw [← hs] at hcoupled
  obtain ⟨part, hput⟩ := sync_write_puts (s.arms.ports .follower) wire
    (setTorque (armIds c.calFollower) false)
  have hsent := sync_write_sent (hcoupled.isOpen .follower) (hcoupled.echo .follower) hwire
    (accepted_set_torque (armIds c.calFollower) false)
  have hline : told.flatten = packet (setTorque (armIds c.calFollower) false) := by
    have hpart : ((shutdown c wire s.arms).ports .follower).line =
        (s.arms.ports .follower).line ++ part := hput.line
    rw [← (hput.whole hsent).1]
    exact List.append_cancel_left (htold.symm.trans hpart)
  refine ⟨?_, _, hcoupled.follower, ?_⟩
  · rw [shutdown, write_log, Arms.sends, hsent]
  · have htorque : told.flatten =
        ([Call.torque false].map (Call.packet (armIds c.calFollower))).flatten := by
      simpa [Call.packet] using hline
    exact told_calls (hinj .follower) hcoupled.follower _ (by simp) htorque

/-- Two cycles in TELEOP on the bench, and the shutdown. -/
theorem loop_shut_down_bench : ∃ (es : List LoopInput) (told : List (List Byte)) (v : Servos),
    es.length = 2 ∧
    Serves (((loop bench).run (startLoop bench benchBoot : Loop ℚ) es).sims .follower)
      (armIds bench.calFollower) v ∧
    Serves (heard (((loop bench).run (startLoop bench benchBoot : Loop ℚ) es).sims .follower) told)
      (armIds bench.calFollower) fun j => { v j with torque := [0] } := by
  obtain ⟨es, hlen, hv, _⟩ := bench_run Mode.teleop.word 2
  obtain ⟨part, _, _, _, _, hline⟩ := shutdown_line bench ⟨none, []⟩
    ((loop bench).run (startLoop bench benchBoot : Loop ℚ) es).arms
  have hone : part = [part].flatten := (List.append_nil part).symm
  rw [hone] at hline
  obtain ⟨_, v, hbefore, hafter⟩ := loop_shut_down bench_injective bench_starts hv rfl rfl hline
  exact ⟨es, [part], v, hlen, hbefore, hafter⟩

theorem holds16_positions : Holds16 (-32767) 32767 :=
  ⟨by norm_num, by norm_num, by norm_num, by norm_num⟩

structure TeleopAt (j : Joint) (raw : ℤ) (i : Input) : Prop where
  mode : i.modeReq = Mode.teleop.word
  follower : i.followerRead.isSome = true
  leader : ∃ bl, i.leaderRead = some bl ∧ leaderPosition (bl j) = raw

def aim (F : Type*) [CFloat F] (c : Ctx) (j : Joint) (raw : ℤ) : ℤ :=
  calibUnnormalize (c.calFollower j) (calibNormalize (c.calLeader j) raw : F)

/-- Cycles after which the slower of the two steps has gone through all positions. -/
def longEnough (c : Ctx) : ℕ := 1 + ⌈(65534 : ℚ) / (min c.rampStep c.maxStep : ℤ)⌉₊

theorem teleop_next {j : Joint} {raw : ℤ} {i : Input} {st : Control F} (h : Gripped st)
    (hi : TeleopAt j raw i) : Gripped (controlCycle c i st).1 ∧
      (controlCycle c i st).1.applied = .teleop ∧ (controlCycle c i st).1.torque = true := by
  obtain ⟨hgripped, happlied⟩ := gripped_next (c := c) h hi.follower
  have hteleop : (controlCycle c i st).1.applied = .teleop := by
    rw [happlied, hi.mode, loaded_mode_word]
  exact ⟨hgripped, hteleop, hgripped.mpr (Or.inl hteleop)⟩

/-- Under TELEOP with a leader that stands still the goal arrives, from any state. -/
theorem teleop_arrives (hmax : 0 < c.maxStep) (hramp : 0 < c.rampStep)
    (hmap : MapsInto F c (-32767) 32767) {j : Joint} {raw : ℤ} {r : ControlRun F}
    (hgripped : Gripped r.st) (hin : Within (-32767) 32767 r.st) {is : List Input}
    (h : (controlThread c).Along (fun _ i => TeleopAt j raw i) r is) {n : ℕ}
    (hn : n ≤ is.length) (hlong : longEnough c ≤ n) :
    (after c r is n).torque = true ∧ (after c r is n).goal j = aim F c j raw := by
  obtain _ | m := n
  · simp [longEnough] at hlong
  obtain _ | ⟨i, rest⟩ := is
  · cases hn
  obtain ⟨hi, hrest⟩ := h
  have hfirst := teleop_next (c := c) hgripped hi
  have hraw : |raw| ≤ 32767 := by
    obtain ⟨bl, _, hpos⟩ := hi.leader
    rw [← hpos]
    exact abs_leader_position (bl j)
  have hwithin : Within (-32767) 32767 (nextCycle c r i).st :=
    within_next i hmax hramp hmap holds16_positions hin
  -- From the second cycle on the mode is TELEOP before the cycle.
  let Follows : ControlRun F → Prop :=
    fun r => Gripped r.st ∧ r.st.applied = .teleop ∧ r.st.torque = true
  have hstep : ∀ r i, Follows r → (controlThread c).enabled r i → TeleopAt j raw i →
      Follows ((controlThread c).next r i) := fun _ _ hr _ hi => teleop_next hr.1 hi
  have halong := along_of_invariant hstep (s := nextCycle c r i) hfirst (free_valid _ _ rest) hrest
  have hsteady : (controlThread c).Along (fun r i => Steady c j raw r.st i)
      (nextCycle c r i) rest := by
    refine halong.imp (fun r i hr => ?_)
    obtain ⟨⟨hgrip, happlied, hon⟩, _, hi⟩ := hr
    refine ⟨?_, hon, (teleop_next hgrip hi).2.2, Or.inr ⟨happlied, hi.leader⟩⟩
    rw [happlied, hi.mode, loaded_mode_word]
  have htarget : steadyTarget c (nextCycle c r i).st j raw = aim F c j raw := by
    have hteleop : (nextCycle c r i).st.applied = .teleop := hfirst.2.1
    simp [steadyTarget, hteleop, aim]
  obtain ⟨hglo, hghi⟩ := hwithin.goal j
  obtain ⟨htlo, hthi⟩ := hmap j raw hraw
  have hm : m ≤ rest.length := Nat.le_of_succ_le_succ hn
  obtain ⟨_, _, hgoal⟩ := goal_convergence hmax hramp ⟨by omega, by omega⟩
    (show IsInt16 (aim F c j raw) from ⟨le_trans (by norm_num) htlo, by
      exact lt_of_le_of_lt hthi (by norm_num)⟩) htarget hsteady
  have hstate : after c r (i :: rest) (m + 1) = after c (nextCycle c r i) rest m := rfl
  rw [hstate]
  refine ⟨?_, hgoal m hm ?_⟩
  · rw [← List.take_append_drop m rest, along_append] at hrest
    exact (invariant_along hstep (s := nextCycle c r i) hfirst (free_valid _ _ _) hrest.1).2.2
  · have hfar : |aim F c j raw - (nextCycle c r i).st.goal j| ≤ 65534 := by
      obtain ⟨htlo', hthi'⟩ : -32767 ≤ aim F c j raw ∧ aim F c j raw ≤ 32767 := ⟨htlo, hthi⟩
      exact abs_le.mpr ⟨by omega, by omega⟩
    have hpos : (0 : ℚ) ≤ (min c.rampStep c.maxStep : ℤ) := by
      exact_mod_cast (lt_min hramp hmax).le
    refine (Nat.ceil_mono (div_le_div_of_nonneg_right ?_ hpos)).trans
      (Nat.le_of_succ_le_succ ((Nat.add_comm _ _).trans_le hlong))
    exact_mod_cast hfar

structure HeldAt (c : Ctx) (j : Joint) (raw : ℤ) (s : Loop F) (e : LoopInput) : Prop where
  mode : e.inp.modeReq = Mode.teleop.word
  leader : ∃ l, Serves (moved s e .leader) (armIds c.calLeader) l ∧
    leaderPosition (answers 2 l j) = raw

theorem held_teleop {j : Joint} {raw : ℤ} {s : Loop F} {t : Ideal F} {e : LoopInput} {i : Input}
    (hmeets : MeetsHand c s e i) (hi : (ideal c).enabled t i) (he : HeldAt c j raw s e) :
    TeleopAt j raw i := by
  obtain ⟨⟨sent, rfl⟩, _, l, hl, _, hread⟩ := hmeets
  obtain ⟨l', hl', hraw⟩ := he.leader
  obtain rfl := serves_unique hl hl'
  obtain ⟨_, hfollower, _⟩ := hi
  exact ⟨he.mode, by simp [hfollower], _, hread, hraw⟩

theorem ideal_run (t : Ideal F) (is : List Input) :
    ((ideal c).run t is).run = (controlThread c).run t.run is := by
  induction is generalizing t with
  | nil => rfl
  | cons i is ih => exact ih ((ideal c).next t i)

theorem ideal_along {P : Input → Prop} {t : Ideal F} {is : List Input}
    (h : (ideal c).Along (fun _ i => P i) t is) :
    (controlThread c).Along (fun _ i => P i) t.run is := by
  induction is generalizing t with
  | nil => trivial
  | cons i is ih => exact ⟨h.1, ih h.2⟩

end Runs

theorem ticks_map_into (F : Type*) [RoundedFloat F] {c : Ctx}
    (hleader : ∀ j, InTicks (c.calLeader j)) (hfollower : ∀ j, InTicks (c.calFollower j)) :
    MapsInto F c (-32767) 32767 := by
  refine maps_into (fun j => ?_) (fun j => ?_) holds16_positions (fun j => (hfollower j).lt)
    (fun j => le_trans (by norm_num) (hfollower j).min_tick)
    (fun j => (hfollower j).max_tick.trans (by norm_num))
  · obtain ⟨hlo, hlt, hhi⟩ := hleader j
    exact ⟨by omega, hlt, by omega⟩
  · obtain ⟨hlo, hlt, hhi⟩ := hleader j
    exact ends_differ_of_small (abs_lt.mpr ⟨by omega, by omega⟩)
      (abs_lt.mpr ⟨by omega, by omega⟩) hlt

/-- Whatever was before, once TELEOP has been asked for long enough with the leader's joint
held in one place, torque is on and the follower's goal and position registers have the
place that the calibrations give it, and keep it. -/
theorem loop_arrives [RoundedFloat F] {c : Ctx}
    (hinj : ∀ bus, Function.Injective (armOf c bus)) (hmax : 0 < c.maxStep)
    (hramp : 0 < c.rampStep) (hleader : ∀ j, InTicks (c.calLeader j))
    (hfollower : ∀ j, InTicks (c.calFollower j)) {b : Boot} (h : Starts c b)
    {pre es : List LoopInput} (hv : (loop c).Valid (startLoop c b : Loop F) (pre ++ es))
    {j : Joint} {raw : ℤ}
    (hheld : (loop c).Along (HeldAt c j raw) ((loop c).run (startLoop c b : Loop F) pre) es)
    {n : ℕ} (hn : n ≤ es.length) (hlong : longEnough c ≤ n) :
    ∃ v, Serves (((loop c).run (startLoop c b : Loop F) (pre ++ es.take n)).sims .follower)
        (armIds c.calFollower) v ∧
      (v j).torque = [1] ∧ (v j).goal = goalBytes (aim F c j raw) ∧
      (v j).present = goalBytes (aim F c j raw) := by
  have hmap := ticks_map_into F hleader hfollower
  obtain ⟨hpre, hes⟩ := along_append.mp hv
  obtain ⟨t₀, ht₀, hrun⟩ := start_coupled (F := F) hinj h
  obtain ⟨is₀, _, _, _, hcoupled⟩ := (loop_lockstep hinj).run ht₀ hpre
  let s₁ := (loop c).run (startLoop c b : Loop F) pre
  let t₁ := (ideal c).run t₀ is₀
  have hwithin : Within (-32767) 32767 t₁.run.st := by
    have hkeep : ∀ (r : ControlRun F) i, Within (-32767) 32767 r.st →
        (controlThread c).enabled r i → Within (-32767) 32767 ((controlThread c).next r i).st :=
      fun _ i hr _ => within_next i hmax hramp hmap holds16_positions hr
    have hstart := start_within (F := F) c b.now true true holds16_positions
    have hend := invariant (I := fun r : ControlRun F => Within (-32767) 32767 r.st) hkeep hstart
      (free_valid _ _ is₀)
    rw [ideal_run, hrun]
    exact hend
  obtain ⟨is, hlen, hteleop, hruns⟩ := (loop_lockstep hinj).follow
    (D := fun _ i => TeleopAt j raw i)
    (fun _ _ _ _ _ hmeets hi he => held_teleop hmeets hi he) hcoupled hes hheld
  obtain ⟨hon, hgoal⟩ := teleop_arrives hmax hramp hmap
    (r := t₁.run) (hcoupled.shows.st ▸ hcoupled.gripped) hwithin (ideal_along hteleop)
    (hn.trans hlen.ge) hlong
  have hend := hruns n
  have hst : after c t₁.run is n = ((loop c).run s₁ (es.take n)).arms.st := by
    rw [after, ← ideal_run]
    exact hend.shows.st
  rw [hst] at hon hgoal
  obtain ⟨hgoal', hpresent⟩ := hend.aimed hon j
  refine ⟨((ideal c).run t₁ (is.take n)).servos, ?_, ?_, ?_, ?_⟩
  · rw [run_append]
    exact hend.follower
  · exact (hend.torque j).trans (by rw [if_pos hon])
  · rw [hgoal', hgoal]
  · rw [hpresent, hgoal]

theorem bench_ticks (j : Joint) : InTicks (Calibration.fullRange j) :=
  ⟨le_rfl, (by decide : (0 : ℤ) < 4095), le_rfl⟩

/-- TELEOP on the bench, with the leader in the middle. -/
theorem loop_arrives_bench : ∃ es v, (loop bench).Valid (startLoop bench benchBoot : Loop ℚ) es ∧
    Serves (((loop bench).run (startLoop bench benchBoot : Loop ℚ) es).sims .follower)
      (armIds bench.calFollower) v ∧ (v 0).torque = [1] ∧ (v 0).goal = goalBytes 2048 := by
  obtain ⟨es, hlen, hv, halong⟩ := bench_run Mode.teleop.word (longEnough bench)
  have hheld : (loop bench).Along (HeldAt bench 0 2048)
      ((loop bench).run (startLoop bench benchBoot : Loop ℚ) []) es :=
    halong.imp (fun s e he => ⟨he.1, _, he.2, by decide⟩)
  have hrun : (loop bench).Valid (startLoop bench benchBoot : Loop ℚ) ([] ++ es) := hv
  have haim : aim ℚ bench 0 2048 = 2048 := by decide +kernel
  obtain ⟨v, hserves, hon, hgoal, _⟩ := loop_arrives (F := ℚ) bench_injective
    (by decide) (by decide) bench_ticks bench_ticks bench_starts hrun hheld hlen.ge le_rfl
  rw [List.nil_append, ← hlen, List.take_length] at hserves
  exact ⟨es, v, hv, hserves, hon, by rw [hgoal, haim]⟩

end LoopRuns
