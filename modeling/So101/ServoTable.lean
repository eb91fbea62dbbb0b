import So101.LineBytes
import So101.RegisterProtocol

/-!
# The servos behind the bus

What the control thread asks of six servos, and what it changes: torque, goal and the
position that a servo reports, which is its goal as soon as one is written. The simulator
that hears the packets of such calls, in any chunks, is these servos.
-/
namespace ServoTable

open ServoBus ControlBuses LineBytes
open Calibration (Joint)
open ByteRange BusDriver ReceiveLoop FakeBus RegisterProtocol

/-- The registers that the control thread uses: TORQUE_ENABLE, GOAL_POSITION,
PRESENT_POSITION, and the speed, load, voltage and temperature behind it. -/
structure Servo where
  torque : List Byte
  goal : List Byte
  present : List Byte
  rest : List Byte
  deriving DecidableEq, Repr

abbrev Servos := Joint → Servo

def servo (r : List Byte) : Servo where
  torque := slice r 40 1
  goal := slice r 42 2
  present := slice r 56 2
  rest := slice r 58 6

inductive Call where
  /-- A sync-read of `n` bytes from PRESENT_POSITION on. -/
  | read (n : Byte)
  | torque (on : Bool)
  | goal (g : Joint → ℤ)

def Call.apply : Call → Servos → Servos
  | .read _, v => v
  | .torque on, v => fun j => { v j with torque := [if on then 1 else 0] }
  | .goal g, v => fun j => { v j with goal := goalBytes (g j), present := goalBytes (g j) }

/-- The answer of one servo to a read of `n` bytes, and of all six to a call. -/
def Servo.answer (v : Servo) (n : ℕ) : List Byte := (v.present ++ v.rest).take n

def Call.reply (ids : Joint → Byte) : Call → Servos → List Byte
  | .read n, v => (List.ofFn fun j => packetBytes ⟨ids j, 0, (v j).answer n.toNat⟩).flatten
  | .torque _, _ => []
  | .goal _, _ => []

def Call.packet (ids : Joint → Byte) : Call → List Byte
  | .read n => syncReadPacket (List.ofFn ids) stsPresentPosition n
  | .torque on => LineBytes.packet (setTorque ids on)
  | .goal g => LineBytes.packet (writeGoal ids g)

def applyAll : List Call → Servos → Servos
  | [], v => v
  | call :: calls, v => applyAll calls (call.apply v)

def replyAll (ids : Joint → Byte) : List Call → Servos → List Byte
  | [], _ => []
  | call :: calls, v => call.reply ids v ++ replyAll ids calls (call.apply v)

section Tables

variable {r : List Byte} {ids : Joint → Byte} {regs : Regs}

theorem slice_other {i j n : ℕ} (data : List Byte) (hi : i ≤ r.length)
    (hapart : j + n ≤ i ∨ i + data.length ≤ j) : slice (overwrite r i data) j n = slice r j n :=
  slice_overwrite_of_disjoint hi data hapart

theorem servo_torque (h : r.length = 256) (b : Byte) :
    servo (overwrite r 40 [b]) = { servo r with torque := [b] } := by
  have hself := slice_overwrite (show 40 ≤ r.length by omega) [b]
  have hgoal : slice (overwrite r 40 [b]) 42 2 = slice r 42 2 :=
    slice_other _ (by omega) (by simp)
  have hpresent : slice (overwrite r 40 [b]) 56 2 = slice r 56 2 :=
    slice_other _ (by omega) (by simp)
  have hrest : slice (overwrite r 40 [b]) 58 6 = slice r 58 6 :=
    slice_other _ (by omega) (by simp)
  simp only [servo, hgoal, hpresent, hrest]
  exact congrArg (fun t : List Byte => Servo.mk t _ _ _) hself

theorem servo_goal (h : r.length = 256) {data : List Byte} (hdata : data.length = 2) :
    servo (syncWriteTable 42 2 data r) = { servo r with goal := data, present := data } ∧
      (syncWriteTable 42 2 data r).length = 256 := by
  let aimed := overwrite r 42 data
  have haimed : aimed.length = 256 := (length_overwrite (by omega)).trans h
  have hgoal : slice aimed 42 2 = data := by
    have hself := slice_overwrite (show 42 ≤ r.length by omega) data
    rwa [hdata] at hself
  have htable : syncWriteTable 42 2 data r = overwrite aimed 56 data := by
    have hset : setSlice r 42 2 data = aimed := by
      simp only [aimed, overwrite, hdata]
      rfl
    simp only [syncWriteTable, if_true, hset, hgoal]
    simp only [setSlice, overwrite, hdata]
  have hpresent : slice (overwrite aimed 56 data) 56 2 = data := by
    have hself := slice_overwrite (show 56 ≤ aimed.length by omega) data
    rwa [hdata] at hself
  have hother : ∀ {j n : ℕ}, j + n ≤ 56 ∨ 58 ≤ j →
      slice (overwrite aimed 56 data) j n = slice aimed j n :=
    fun hj => slice_other _ (by omega) (by omega)
  have hfirst : ∀ {j n : ℕ}, j + n ≤ 42 ∨ 44 ≤ j → slice aimed j n = slice r j n :=
    fun hj => slice_other _ (by omega) (by omega)
  rw [htable]
  refine ⟨?_, (length_overwrite (by omega)).trans haimed⟩
  simp only [servo, hpresent]
  rw [hother (by omega), hfirst (by omega), hother (by omega), hgoal, hother (by omega),
    hfirst (by omega)]

theorem answer_slice (r : List Byte) {n : ℕ} (hn : n ≤ 8) :
    (servo r).answer n = slice r 56 n := by
  have hjoin : slice r 56 2 ++ slice r 58 6 = slice r 56 8 := by
    have hsplit := List.take_add (l := r.drop 56) (i := 2) (j := 6)
    simpa [slice, List.drop_drop] using hsplit.symm
  change (slice r 56 2 ++ slice r 58 6).take n = _
  rw [hjoin, slice, slice, List.take_take, Nat.min_eq_left hn]

theorem sync_write_body_table {a n : ℕ} {data ids : List Byte} (hnodup : ids.Nodup)
    {k : ℕ} (hdata : (k + ids.length) * n ≤ data.length) (regs : Regs) {j : ℕ} {id : Byte}
    (hid : ids[j]? = some id) :
    syncWriteBody a n regs (syncBlocks n data k ids) id =
      (regs id).map (syncWriteTable a n (slice data ((k + j) * n) n)) := by
  induction ids generalizing k regs j with
  | nil => cases hid
  | cons t ids ih =>
    obtain ⟨hnot, hrest⟩ := List.nodup_cons.mp hnodup
    rw [sync_write_body_cons hdata]
    cases j with
    | zero =>
      cases hid
      rw [sync_write_body_other hnot (blocks_left hdata), Nat.add_zero, syncWriteServo]
      cases hr : regs id with
      | none => exact hr
      | some r => exact Function.update_self id _ regs
    | succ j =>
      have hne : id ≠ t := by
        intro heq
        exact hnot (heq ▸ List.mem_of_getElem? hid)
      rw [ih hrest (blocks_left hdata) _ hid, Nat.add_assoc, Nat.add_comm 1 j,
        sync_write_servo_of_ne hne]

end Tables

/-- An idle simulator that serves the six ids, with these registers. -/
structure Serves (sim : Sim) (ids : Joint → Byte) (v : Servos) : Prop where
  idle : Idle sim
  table : ∀ j, ∃ r, sim.regs (ids j) = some r ∧ servo r = v j

def Call.request (ids : Joint → Byte) : Call → Byte × Byte × List Byte
  | .read n => (ftsBroadcastId, ftsInstSyncRead, stsPresentPosition :: n :: List.ofFn ids)
  | .torque on => (ftsBroadcastId, ftsInstSyncWrite,
      stsTorqueEnable :: 1 :: syncBlocks 1 (setTorque ids on).data 0 (List.ofFn ids))
  | .goal g => (ftsBroadcastId, ftsInstSyncWrite,
      stsGoalPosition :: 2 :: syncBlocks 2 (writeGoal ids g).data 0 (List.ofFn ids))

theorem request_packet (ids : Joint → Byte) (call : Call) :
    requestBytes (call.request ids) = call.packet ids := by
  cases call <;> rfl

theorem length_torque_data (ids : Joint → Byte) (on : Bool) :
    (setTorque ids on).data.length = 6 := by
  simp [setTorque]

theorem length_goal_data (ids : Joint → Byte) (g : Joint → ℤ) :
    (writeGoal ids g).data.length = 12 := by
  simp [writeGoal, goalBytes]

theorem request_params (ids : Joint → Byte) (call : Call) :
    (call.request ids).2.2.length ≤ 244 := by
  cases call with
  | read n => simp [Call.request]
  | torque on =>
    have hblocks := @length_sync_blocks 1 0 (List.ofFn ids) (setTorque ids on).data
      (by simp [length_torque_data])
    rw [List.length_ofFn] at hblocks
    simp only [Call.request, List.length_cons, hblocks]
    omega
  | goal g =>
    have hblocks := @length_sync_blocks 2 0 (List.ofFn ids) (writeGoal ids g).data
      (by simp [length_goal_data])
    rw [List.length_ofFn] at hblocks
    simp only [Call.request, List.length_cons, hblocks]
    omega

section Serve

variable {sim : Sim} {ids : Joint → Byte} {v : Servos}

theorem ids_nodup (hinj : Function.Injective ids) : (List.ofFn ids).Nodup :=
  List.nodup_ofFn.mpr hinj

theorem get_ids (ids : Joint → Byte) (j : Joint) : (List.ofFn ids)[(j : ℕ)]? = some (ids j) := by
  rw [List.getElem?_ofFn, dif_pos j.isLt]

theorem serves_write (h : Serves sim ids v) {regs : Regs} {w : Servos}
    (hother : ∀ t, t ∉ List.ofFn ids → regs t = sim.regs t)
    (hat : ∀ j r, sim.regs (ids j) = some r → r.length = 256 → servo r = v j →
      ∃ r', regs (ids j) = some r' ∧ r'.length = 256 ∧ servo r' = w j) :
    Serves ⟨regs, []⟩ ids w := by
  have hnamed : ∀ t, t ∈ List.ofFn ids → ∃ j, t = ids j := by
    intro t ht
    obtain ⟨j, hj⟩ := (List.mem_ofFn' ids t).mp ht
    exact ⟨j, hj.symm⟩
  have hnew : ∀ j, ∃ r r', sim.regs (ids j) = some r ∧ regs (ids j) = some r' ∧
      r'.length = 256 ∧ servo r' = w j := by
    intro j
    obtain ⟨r, hr, hservo⟩ := h.table j
    obtain ⟨r', hr', hlen, hw⟩ := hat j r hr (h.idle.length _ r hr) hservo
    exact ⟨r, r', hr, hr', hlen, hw⟩
  refine ⟨⟨rfl, fun t r hr => ?_, fun t r hr => ?_⟩, fun j => ?_⟩
  · by_cases ht : t ∈ List.ofFn ids
    · obtain ⟨j, rfl⟩ := hnamed t ht
      obtain ⟨_, r', _, hr', hlen, _⟩ := hnew j
      rwa [Option.some.inj (hr.symm.trans hr')]
    · exact h.idle.length t r ((hother t ht).symm.trans hr)
  · by_cases ht : t ∈ List.ofFn ids
    · obtain ⟨j, rfl⟩ := hnamed t ht
      obtain ⟨r₀, _, hr₀, _⟩ := hnew j
      exact h.idle.ids _ r₀ hr₀
    · exact h.idle.ids t r ((hother t ht).symm.trans hr)
  · obtain ⟨_, r', _, hr', _, hw⟩ := hnew j
    exact ⟨r', hr', hw⟩

theorem slice_set_torque (ids : Joint → Byte) (on : Bool) (j : Joint) :
    (setTorque ids on).slice j = [if on then 1 else 0] := by
  fin_cases j <;> rfl

theorem replies_servos (h : Serves sim ids v) {n : ℕ} (hn : n ≤ 8) :
    ((replies sim.regs 56 n (List.ofFn ids)).map packetBytes).flatten =
      (List.ofFn fun j => packetBytes ⟨ids j, 0, (v j).answer n⟩).flatten := by
  simp only [replies, List.map_ofFn]
  congr 2
  funext j
  obtain ⟨r, hr, hservo⟩ := h.table j
  simp only [Function.comp_apply, hr, Option.getD_some, ← answer_slice r hn, hservo]

theorem execute_call (hinj : Function.Injective ids) (h : Serves sim ids v) (call : Call)
    (hread : ∀ n, call = .read n → n.toNat ≤ 8) :
    ∃ regs, execute sim.regs (call.request ids).1 (call.request ids).2.1 (call.request ids).2.2 =
        some (regs, call.reply ids v) ∧ Serves ⟨regs, []⟩ ids (call.apply v) ∧
      ((∃ n, call = .read n) → regs = sim.regs) := by
  cases call with
  | read n =>
    have hn := hread n rfl
    have hserved : ∀ id ∈ List.ofFn ids,
        ∃ r, sim.regs id = some r ∧ stsPresentPosition.toNat + n.toNat ≤ r.length := by
      intro id hid
      obtain ⟨j, rfl⟩ := (List.mem_ofFn' ids id).mp hid
      obtain ⟨r, hr, _⟩ := h.table j
      refine ⟨r, hr, ?_⟩
      rw [h.idle.length _ r hr]
      exact (Nat.add_le_add_left hn _).trans (by decide)
    have hreplies := sync_read_replies_eq (by omega) hserved
    refine ⟨sim.regs, ?_, ⟨⟨rfl, h.idle.length, h.idle.ids⟩, h.table⟩, fun _ => rfl⟩
    have hexec := execute_sync_read sim.regs stsPresentPosition n (List.ofFn ids)
    rw [hreplies] at hexec
    rw [Call.reply, ← replies_servos h hn]
    exact hexec
  | torque on =>
    have hdata : (0 + (List.ofFn ids).length) * 1 ≤ (setTorque ids on).data.length := by
      simp [length_torque_data]
    refine ⟨_, execute_sync_write sim.regs stsTorqueEnable 1 _, serves_write h ?_ ?_, by simp⟩
    · exact fun t ht => sync_write_body_other ht hdata sim.regs
    · intro j r hr hlen hservo
      have hat := sync_write_body_table (ids_nodup hinj) hdata (a := 40) sim.regs (get_ids ids j)
      have hblock : slice (setTorque ids on).data ((0 + j) * 1) 1 = [if on then 1 else 0] := by
        rw [Nat.zero_add]
        exact slice_set_torque ids on j
      rw [hblock, hr] at hat
      refine ⟨_, hat, (length_overwrite ?_).trans hlen, ?_⟩
      · change 40 + 1 ≤ r.length
        omega
      · change servo (overwrite r 40 [if on then 1 else 0]) = _
        rw [servo_torque hlen, hservo]
        rfl
  | goal g =>
    have hdata : (0 + (List.ofFn ids).length) * 2 ≤ (writeGoal ids g).data.length := by
      simp [length_goal_data]
    refine ⟨_, execute_sync_write sim.regs stsGoalPosition 2 _, serves_write h ?_ ?_, by simp⟩
    · exact fun t ht => sync_write_body_other ht hdata sim.regs
    · intro j r hr hlen hservo
      have hat := sync_write_body_table (ids_nodup hinj) hdata (a := 42) sim.regs (get_ids ids j)
      have hblock : slice (writeGoal ids g).data ((0 + j) * 2) 2 = goalBytes (g j) := by
        rw [Nat.zero_add]
        exact slice_write_goal ids g j
      obtain ⟨hgoal, hsize⟩ := servo_goal hlen (show (goalBytes (g j)).length = 2 from rfl)
      rw [hblock, hr] at hat
      refine ⟨_, hat, hsize, ?_⟩
      rw [hgoal, hservo]
      rfl

/-- However the packets of calls are cut up, the simulator that hears them does what the
servos do, answers as they do, and is idle again; if all are reads, no table has changed. -/
theorem hear_calls (hinj : Function.Injective ids) (h : Serves sim ids v) (calls : List Call)
    (hread : ∀ n, .read n ∈ calls → n.toNat ≤ 8) {chunks : List (List Byte)}
    (hchunks : chunks.flatten = (calls.map (Call.packet ids)).flatten) :
    ∃ sim', hear sim chunks = some (sim', replyAll ids calls v) ∧
      Serves sim' ids (applyAll calls v) ∧
      ((∀ call ∈ calls, ∃ n, call = .read n) → sim'.regs = sim.regs) := by
  have hexec : ∃ regs, executeAll sim.regs (calls.map (Call.request ids)) =
      some (regs, replyAll ids calls v) ∧ Serves ⟨regs, []⟩ ids (applyAll calls v) ∧
      ((∀ call ∈ calls, ∃ n, call = .read n) → regs = sim.regs) := by
    clear hchunks
    induction calls generalizing sim v with
    | nil => exact ⟨sim.regs, rfl, ⟨⟨rfl, h.idle.length, h.idle.ids⟩, h.table⟩, fun _ => rfl⟩
    | cons call calls ih =>
      obtain ⟨regs, hcall, hserves, hkept⟩ :=
        execute_call hinj h call (fun n hn => hread n (hn ▸ List.mem_cons_self))
      obtain ⟨regs', hcalls, hserves', hkept'⟩ :=
        ih hserves (fun n hn => hread n (List.mem_cons_of_mem _ hn))
      refine ⟨regs', ?_, hserves', fun hreads => ?_⟩
      · simp only [List.map_cons, executeAll, hcall, hcalls, Option.bind_eq_bind,
          Option.bind_some]
        rfl
      · have hfirst := hkept (hreads call List.mem_cons_self)
        exact (hkept' fun other hmem => hreads other (List.mem_cons_of_mem _ hmem)).trans hfirst
  obtain ⟨regs, hall, hserves, hkept⟩ := hexec
  have hparams : ∀ q ∈ calls.map (Call.request ids), q.2.2.length ≤ 244 := by
    intro q hq
    obtain ⟨call, _, rfl⟩ := List.mem_map.mp hq
    exact request_params ids call
  have hheard := hear_requests h.idle hparams
    (hchunks.trans (by simp only [List.map_map, Function.comp_def, request_packet]))
  refine ⟨⟨regs, []⟩, ?_, hserves, hkept⟩
  rw [hheard, hall]
  rfl

end Serve

end ServoTable
