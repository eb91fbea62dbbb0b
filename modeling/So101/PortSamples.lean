import So101.LineBytes

/-!
# Where the published positions come from

A sample has the arm fields of one whole reply or those it had before: what a failed read
leaves in the receive buffer is never published. A follower without a port is limp.
-/
namespace PortSamples

open GuardedMachine ServoBus ControlThread ControlCycle ControlBuses LineBytes
open Calibration (Joint CFloat)
open SharedMemory (Sample Ctx)
open ByteRange PacketCodec SyncRead DriverFrame
open BusDriver (FtsBus Wire incoming rxStatus syncReadLoop ftsSyncRead)
open ReceiveLoop (rx_status_packet)

variable {F : Type*}

theorem rx_status_le {bus next : FtsBus} {id : Byte} {cap : ℕ} {got : List Byte}
    (h : rxStatus bus id cap = (.ok got, next)) : got.length ≤ cap := by
  obtain ⟨p, junk, _, rfl⟩ := rx_status_packet h
  exact List.length_take_le _ _

theorem sync_read_loop_length {len : ℕ} {ids : List Byte} {k : ℕ} {bus : FtsBus}
    {out : List Byte} (firstErr : Option FtsError) (hout : (k + ids.length) * len ≤ out.length) :
    (syncReadLoop len ids k bus out firstErr).2.2.length = out.length := by
  induction ids generalizing k bus out firstErr with
  | nil => rfl
  | cons id ids ih =>
    have hcount : k + (id :: ids).length = k + 1 + ids.length := by
      rw [List.length_cons]
      omega
    rw [hcount] at hout
    have hend : k * len + len ≤ out.length := by
      rw [← Nat.succ_mul]
      exact le_trans (Nat.mul_le_mul_right _ (by omega)) hout
    simp only [syncReadLoop]
    split
    · rename_i got mid hrx
      have hsize : (overwrite out (k * len) got).length = out.length :=
        length_overwrite (le_trans (Nat.add_le_add_left (rx_status_le hrx) _) hend)
      rw [ih _ (by rwa [hsize]), hsize]
    · split
      · rfl
      · exact ih _ hout

theorem sync_read_length (bus : FtsBus) (wire : Wire) {ids : List Byte} {len : Byte}
    (addr : Byte) {out : List Byte} (hout : ids.length * len.toNat ≤ out.length) :
    (ftsSyncRead bus wire ids addr len out).2.2.length = out.length := by
  unfold ftsSyncRead
  split
  · rfl
  split
  · rfl
  · rename_i mid _
    have h : (syncReadLoop len.toNat ids 0 mid out none).2.2.length = out.length :=
      sync_read_loop_length none (by rwa [Nat.zero_add])
    split <;> rename_i heq <;> rw [heq] at h <;> exact h

theorem port_read_length (p : Port) (wire : Wire) (ids : Joint → Byte) {len : Byte}
    (addr : Byte) {out : List Byte} (hout : 6 * len.toNat ≤ out.length) :
    (p.syncRead wire (List.ofFn ids) addr len out).2.2.length = out.length :=
  sync_read_length p.bus (p.wire wire) addr (by rwa [List.length_ofFn])

/-- Packets of these servos, in this order in the bytes that arrived, with `len` bytes of
data at least. -/
structure Replies (wire : Wire) (ids : Joint → Byte) (len : ℕ)
    (packets : Joint → FtsPacket) : Prop where
  order : InOrder (List.ofFn packets) (incoming wire.arrivals)
  id : ∀ j, (packets j).id = ids j
  data : ∀ j, len ≤ (packets j).data.length

/-- The first `n` bytes of the data of each packet. -/
def replyBytes (n : ℕ) (packets : Joint → FtsPacket) : Joint → Fin n → Byte :=
  fun j i => (packets j).data.getD i 0

theorem in_order_of_before {ps : List FtsPacket} {bytes last : List Byte}
    (h : InOrderBefore ps bytes last) : InOrder ps bytes := by
  induction ps generalizing bytes with
  | nil => trivial
  | cons p ps ih =>
    obtain ⟨junk, rest, hbytes, hgood, hps⟩ := h
    exact ⟨junk, rest, hbytes, hgood, ih hps⟩

theorem blocks_of_fills {n : ℕ} {last : List Byte} {packets : Joint → FtsPacket}
    (h : ∀ j : Joint, Fills n last j (packets j)) : blocks n last = replyBytes n packets := by
  funext j i
  have hget := congrArg (fun s : List Byte => s[(i : ℕ)]?) (h j).2
  simp only [get_slice, List.getElem?_take, i.isLt, if_true] at hget
  simp only [blocks, replyBytes, List.getD_eq_getElem?_getD, Nat.mul_comm n]
  rw [hget]

/-- The bytes of a sync-read without an error are those of six replies. -/
theorem read_replies {p : Port} {wire : Wire} {ids : Joint → Byte} {addr len : Byte}
    {out : List Byte} (hout : 6 * len.toNat ≤ out.length)
    (hok : (p.syncRead wire (List.ofFn ids) addr len out).1.isOk = true) :
    ∃ packets, Replies wire ids len.toNat packets ∧ blocks len.toNat
      (p.syncRead wire (List.ofFn ids) addr len out).2.2 = replyBytes len.toNat packets := by
  obtain ⟨part, hput⟩ := sync_read_puts p wire (List.ofFn ids) addr len out
  have hwire : p.wire wire = wire := by
    rw [Port.wire, if_pos (hput.whole hok).2]
  generalize hread : ftsSyncRead p.bus (p.wire wire) (List.ofFn ids) addr len out = r
  have hsync : p.syncRead wire (List.ofFn ids) addr len out =
      (r.1, { p with bus := r.2.1 }, r.2.2) := by
    simp only [Port.syncRead, hread]
  obtain ⟨rc, next, last⟩ := r
  rw [hsync] at hok ⊢
  obtain rfl : rc = .ok () := by
    cases rc with
    | error e => cases hok
    | ok u => rfl
  obtain ⟨ps, horder, hids, hfills⟩ := sync_read_taken (by simpa using hout) hread
  rw [hwire] at horder
  have hlen : ps.length = 6 := by
    have h := congrArg List.length hids
    simpa using h
  let packets : Joint → FtsPacket := fun j => ps[(j : ℕ)]
  have hps : List.ofFn packets = ps := by
    apply List.ext_getElem (by simp [hlen])
    intro k h₁ h₂
    rw [List.getElem_ofFn]
  have hfill : ∀ j : Joint, Fills len.toNat last j (packets j) :=
    fun j => hfills j _ (List.getElem?_eq_getElem (by omega))
  refine ⟨packets, ⟨?_, fun j => ?_, fun j => (hfill j).1⟩, blocks_of_fills hfill⟩
  · rw [hps]
    exact in_order_of_before horder
  · have hj := congrArg (fun l : List Byte => l[(j : ℕ)]?) hids
    have hget : ps[(j : ℕ)]? = some (packets j) := List.getElem?_eq_getElem (by omega)
    simp only [List.getElem?_map, hget, Option.map_some, List.getElem?_ofFn, j.isLt, dite_true,
      Option.some.injEq] at hj
    exact hj

section Cycle

variable [CFloat F] (c : Ctx) (inp : BusInput) (a : Arms F)

structure SameArms (s s' : Sample F) : Prop where
  leaderOk : s'.leaderOk = s.leaderOk
  followerOk : s'.followerOk = s.followerOk
  leader : leaderFields s' = leaderFields s
  follower : followerFields s' = followerFields s

omit [CFloat F] in
theorem publish_same (i : Input) (st : Control F) : SameArms st.s (publish i st).s :=
  ⟨rfl, rfl, rfl, rfl⟩

omit [CFloat F] in
theorem next_slot_same (i : Input) (st : Control F) : SameArms st.s (nextSlot c i st).s := by
  simp only [nextSlot]
  split_ifs <;> exact ⟨rfl, rfl, rfl, rfl⟩

theorem read_buses_sample (i : Input) (st : Control F) :
    (readBuses c i st).1.s = followerSample c i (leaderSample c i (wakeUp i st).s) := by
  have hleader := read_leader_sample c i (wakeUp i st)
  simp only [readBuses, readFollower, hleader]
  split <;> rfl

theorem cycle_same_arms (i : Input) (st : Control F) :
    SameArms (followerSample c i (leaderSample c i (wakeUp i st).s)) (controlCycle c i st).1.s := by
  let moved := (moveGoal c i (modeTransition c i (readBuses c i st).1).1).1
  have hmoved : moved.s = followerSample c i (leaderSample c i (wakeUp i st).s) := by
    rw [move_goal_sample, mode_transition_sample, read_buses_sample]
  have hpublish := publish_same i moved
  have hnext := next_slot_same c i (publish i moved)
  have hcycle : (controlCycle c i st).1.s = (nextSlot c i (publish i moved)).s := rfl
  rw [hcycle, ← hmoved]
  exact ⟨hnext.leaderOk.trans hpublish.leaderOk, hnext.followerOk.trans hpublish.followerOk,
    hnext.leader.trans hpublish.leader, hnext.follower.trans hpublish.follower⟩

theorem cycle_fields (i : Input) (st : Control F) :
    (controlCycle c i st).1.s.leaderOk = i.leaderRead.isSome ∧
      (controlCycle c i st).1.s.followerOk = i.followerRead.isSome ∧
      leaderFields (controlCycle c i st).1.s =
        (i.leaderRead.map (decodeLeader c)).getD (leaderFields st.s) ∧
      followerFields (controlCycle c i st).1.s =
        (i.followerRead.map (decodeFollower c)).getD (followerFields st.s) := by
  obtain ⟨hlok, hfok, hleader, hfollower⟩ := cycle_same_arms c i st
  rw [hlok, hfok, hleader, hfollower]
  cases hl : i.leaderRead <;> cases hf : i.followerRead <;>
    simp [followerSample, leaderSample, hl, hf, leaderFields, followerFields, decodeLeader,
      decodeFollower, wakeUp]

/-- The arm fields at the end of a cycle are those of six replies of the cycle, or those of
the sample before. -/
structure FromReplies (c : Ctx) (inp : BusInput) (s s' : Sample F) : Prop where
  leader : (s'.leaderOk = true ∧ ∃ packets,
      Replies (inp.read .leader) (armIds c.calLeader) 2 packets ∧
      leaderFields s' = decodeLeader c (replyBytes 2 packets)) ∨
    (s'.leaderOk = false ∧ leaderFields s' = leaderFields s)
  follower : (s'.followerOk = true ∧ ∃ packets,
      Replies (inp.read .follower) (armIds c.calFollower) 8 packets ∧
      followerFields s' = decodeFollower c (replyBytes 8 packets)) ∨
    (s'.followerOk = false ∧ followerFields s' = followerFields s)

omit [CFloat F] in
theorem got_leader_replies (hbl : a.bl.length = 12) {bl : Joint → Fin 2 → Byte}
    (h : gotLeader c inp a = some bl) : ∃ packets,
      Replies (inp.read .leader) (armIds c.calLeader) 2 packets ∧ bl = replyBytes 2 packets := by
  simp only [gotLeader] at h
  split at h
  · rename_i hok
    obtain ⟨packets, hreplies, hblocks⟩ := read_replies (by simp [hbl]) hok
    exact ⟨packets, hreplies, (Option.some.inj h).symm.trans hblocks⟩
  · cases h

omit [CFloat F] in
theorem got_follower_replies (hbf : a.bf.length = 48) {bf : Joint → Fin 8 → Byte}
    (h : gotFollower c inp a = some bf) : ∃ packets,
      Replies (inp.read .follower) (armIds c.calFollower) 8 packets ∧
      bf = replyBytes 8 packets := by
  simp only [gotFollower] at h
  split at h
  · rename_i hok
    obtain ⟨packets, hreplies, hblocks⟩ := read_replies (by simp [hbf]) hok
    exact ⟨packets, hreplies, (Option.some.inj h).symm.trans hblocks⟩
  · cases h

structure Sized (a : Arms F) : Prop where
  bl : a.bl.length = 12
  bf : a.bf.length = 48

theorem cycle_from_replies (h : Sized a) :
    FromReplies c inp a.st.s (cycleOnPorts c inp a).st.s := by
  obtain ⟨i, ⟨sent, rfl⟩, hdid⟩ := cycle_on_ports_did c inp a
  obtain ⟨hlok, hfok, hleader, hfollower⟩ :=
    cycle_fields c (inp.met (gotLeader c inp a) (gotFollower c inp a) sent) a.st
  rw [← hdid.st] at hlok hfok hleader hfollower
  constructor
  · cases hl : gotLeader c inp a with
    | none =>
      rw [BusInput.met, hl] at hlok hleader
      exact Or.inr ⟨hlok, hleader⟩
    | some bl =>
      obtain ⟨packets, hreplies, rfl⟩ := got_leader_replies c inp a h.bl hl
      rw [BusInput.met, hl] at hlok hleader
      exact Or.inl ⟨hlok, packets, hreplies, hleader⟩
  · cases hf : gotFollower c inp a with
    | none =>
      rw [BusInput.met, hf] at hfok hfollower
      exact Or.inr ⟨hfok, hfollower⟩
    | some bf =>
      obtain ⟨packets, hreplies, rfl⟩ := got_follower_replies c inp a h.bf hf
      rw [BusInput.met, hf] at hfok hfollower
      exact Or.inl ⟨hfok, packets, hreplies, hfollower⟩

theorem leader_section_buffers : (leaderSection c inp a).bl = (leaderSyncRead c inp a).2.2 ∧
    (leaderSection c inp a).bf = a.bf := by
  simp only [leaderSection]
  split <;> exact ⟨rfl, rfl⟩

theorem follower_section_buffers : (followerSection c inp a).bl = a.bl ∧
    (followerSection c inp a).bf = (followerSyncRead c inp a).2.2 := by
  simp only [followerSection]
  split <;> exact ⟨rfl, rfl⟩

omit [CFloat F] in
theorem mode_section_buffers : (modeSection c inp a).bl = a.bl ∧
    (modeSection c inp a).bf = a.bf := by
  simp only [modeSection]
  split_ifs <;> exact ⟨rfl, rfl⟩

theorem goal_section_buffers : (goalSection c inp a).bl = a.bl ∧
    (goalSection c inp a).bf = a.bf := by
  simp only [goalSection]
  split_ifs <;> exact ⟨rfl, rfl⟩

theorem sized_next (h : Sized a) : Sized (cycleOnPorts c inp a) := by
  let woken := a.setSt (wakeUp inp.clock a.st)
  let led := leaderSection c inp woken
  let followed := followerSection c inp led
  let moded := modeSection c inp followed
  obtain ⟨hlbl, hlbf⟩ := leader_section_buffers c inp woken
  obtain ⟨hfbl, hfbf⟩ := follower_section_buffers c inp led
  obtain ⟨hmbl, hmbf⟩ := mode_section_buffers c inp followed
  obtain ⟨hgbl, hgbf⟩ := goal_section_buffers c inp moded
  have hbl : woken.bl.length = 12 := h.bl
  have hbf : led.bf.length = 48 := (congrArg List.length hlbf).trans h.bf
  constructor
  · change (goalSection c inp moded).bl.length = 12
    rw [hgbl, hmbl, hfbl, hlbl]
    have hroom : 6 * (2 : Byte).toNat ≤ woken.bl.length := by simp [hbl]
    exact (port_read_length _ _ _ _ hroom).trans hbl
  · change (goalSection c inp moded).bf.length = 48
    rw [hgbf, hmbf, hfbf]
    have hroom : 6 * (8 : Byte).toNat ≤ led.bf.length := by simp [hbf]
    exact (port_read_length _ _ _ _ hroom).trans hbf

end Cycle

/-- In every cycle of every run the arm fields of the sample are those of six replies that
arrived in the cycle, in the order of the request, or those of the sample before: bytes of a
failed read are never published. -/
theorem samples_from_replies [CFloat F] (c : Ctx) (now : ℤ) (ports : Bus → Port)
    (wire : Bus → Wire) (bl : Fin 12 → Byte) (bf : Fin 48 → Byte) (inps : List BusInput) :
    (portThread c).Along (fun a inp => FromReplies c inp a.st.s (cycleOnPorts c inp a).st.s)
      (startOnPorts c now ports wire (List.ofFn bl) (List.ofFn bf) : Arms F) inps := by
  have hstart : Sized (startOnPorts c now ports wire (List.ofFn bl) (List.ofFn bf) : Arms F) :=
    ⟨List.length_ofFn, List.length_ofFn⟩
  have hstep : ∀ (a : Arms F) inp, Sized a → Sized (cycleOnPorts c inp a) :=
    fun a inp h => sized_next c inp a h
  exact (free_along hstep hstart inps).imp (fun a inp h => cycle_from_replies c inp a h)

/-- Torque is on in TELEOP and HOLD only, and never without a follower port. -/
structure PortHeld (a : Arms F) : Prop where
  mode : WriteDiscipline.TorqueInMode a.st
  closed : (a.ports .follower).isOpen = false → a.st.torque = false

theorem closed_read_fails {c : Ctx} {inp : BusInput} {a : Arms F}
    (h : (a.ports .follower).isOpen = false) : gotFollower c inp a = none := by
  obtain ⟨part, hput⟩ := sync_read_puts (a.ports .follower) (inp.read .follower)
    (List.ofFn (armIds c.calFollower)) stsPresentPosition 8 a.bf
  cases hg : gotFollower c inp a with
  | none => rfl
  | some bf =>
    have hsome : (gotFollower c inp a).isSome = true := by rw [hg]; rfl
    rw [got_follower_is_some] at hsome
    simp [(hput.whole hsome).2] at h

theorem port_held_next [CFloat F] {c : Ctx} {inp : BusInput} {a : Arms F} (h : PortHeld a) :
    PortHeld (cycleOnPorts c inp a) := by
  obtain ⟨i, hmeets, hdid⟩ := cycle_on_ports_did c inp a
  obtain ⟨ops, hops, hpart⟩ := follower_part h.mode hmeets hdid
  have hlead := read_leader_bus c i (wakeUp i a.st)
  obtain ⟨part, bytes, hcycle⟩ := cycle_bytes c inp a hdid .follower
  have hkept : .reopen .follower ∉ ops →
      ((cycleOnPorts c inp a).ports .follower).isOpen = (a.ports .follower).isOpen := by
    intro hno
    refine hcycle.isOpen (fun hmem => ?_)
    rw [hops] at hmem
    rcases List.mem_append.mp hmem with hmem | hmem
    · cases hlead _ hmem
    · exact hno hmem
  refine ⟨?_, fun hclosed => ?_⟩
  · rw [hdid.st]
    exact WriteDiscipline.torque_in_mode_next h.mode
  · cases hpart with
    | reopened _ hnext _ => exact hnext
    | released _ _ hnext _ => exact hnext
    | limp _ hnext => exact hnext
    | kept _ ht _ _ =>
      rw [hkept (by simp)] at hclosed
      simp [h.closed hclosed] at ht
    | enabled _ _ _ bf _ _ hread _ =>
      rw [hkept (by simp)] at hclosed
      simp [closed_read_fails hclosed] at hread

/-- As long as the follower's port could not be opened again, no read succeeds and torque is
off, in the thread and in the published sample. -/
theorem closed_port_limp [CFloat F] (c : Ctx) (now : ℤ) (ports : Bus → Port)
    (wire : Bus → Wire) (bl bf : List Byte) (inps : List BusInput) :
    (portThread c).Along (fun a inp =>
        ((cycleOnPorts c inp a).ports .follower).isOpen = false →
          (cycleOnPorts c inp a).st.torque = false ∧
          (cycleOnPorts c inp a).st.s.torqueOn = false ∧
          ∀ inp', gotFollower c inp' (cycleOnPorts c inp a) = none)
      (startOnPorts c now ports wire bl bf : Arms F) inps := by
  have hstart : PortHeld (startOnPorts c now ports wire bl bf : Arms F) :=
    ⟨fun ht => (by cases ht), fun _ => rfl⟩
  refine (free_along (I := PortHeld) (fun _ _ h => port_held_next h) hstart inps).imp
    (fun a inp h hclosed => ?_)
  obtain ⟨i, _, hdid⟩ := cycle_on_ports_did c inp a
  have hheld : PortHeld (cycleOnPorts c inp a) := port_held_next h
  have hoff := hheld.closed hclosed
  refine ⟨hoff, ?_, fun inp' => closed_read_fails hclosed⟩
  rw [hdid.st, cycle_torque_on, ← cycle_torque, ← hdid.st]
  exact hoff

end PortSamples
