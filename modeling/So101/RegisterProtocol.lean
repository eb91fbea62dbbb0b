import So101.FakeBus
import So101.SyncRead

/-!
# The register protocol of driver and simulator

Requests of the driver answered by the simulator. What a call writes reaches the simulator
in any chunks, its answer comes back in any chunks before the timeouts.
-/
namespace RegisterProtocol

open ServoBus (Byte)
open ByteRange StreamDecoder PacketCodec BusDriver ReceiveLoop SyncRead FakeBus

/-- The simulator between requests. -/
structure Idle (sim : Sim) : Prop where
  buf : sim.buf = []
  length : ∀ id r, sim.regs id = some r → r.length = 256
  ids : ∀ id r, sim.regs id = some r → 1 ≤ id.toNat ∧ id.toNat ≤ 253

/-- Register `k` of servo `t`. -/
def register (sim : Sim) (t : Byte) (k : ℕ) : Option Byte := (sim.regs t).bind (·[k]?)

/-- The call, answered by the simulator, succeeds and ends as `post` says; the last
component of its result is the caller's buffer. -/
def Succeeds (sim : Sim) (bus : FtsBus) (call : FtsBus → Wire → Rc × FtsBus × List Byte)
    (post : Sim → FtsBus → List Byte → Prop) : Prop :=
  ∃ request, ∀ chunks, chunks.flatten = request →
    ∃ sim' reply, hear sim chunks = some (sim', reply) ∧
      ∀ wire : Wire, wire.writeFailsAfter = none → (∀ a ∈ wire.arrivals, Prompt a) →
        incoming wire.arrivals = reply →
        ∃ bus' out, call bus wire = (.ok (), bus', out) ∧
          bus'.written = bus.written ++ request ∧ post sim' bus' out

def executeAll (regs : Regs) : List (Byte × Byte × List Byte) → Option (Regs × List Byte)
  | [] => some (regs, [])
  | (id, inst, params) :: rest => do
    let (regs, out) ← execute regs id inst params
    let (regs, more) ← executeAll regs rest
    some (regs, out ++ more)

def requestBytes (q : Byte × Byte × List Byte) : List Byte := ftsBuildPacket q.1 q.2.1 q.2.2

theorem drain_requests {qs : List (Byte × Byte × List Byte)}
    (h : ∀ q ∈ qs, q.2.2.length ≤ 244) :
    framing.drain (qs.map requestBytes).flatten = (qs.map requestBytes, []) := by
  induction qs with
  | nil => exact drain_wait rfl
  | cons q qs ih =>
    have hq := h q List.mem_cons_self
    have hemit : framing.decode ((q :: qs).map requestBytes).flatten =
        (some (requestBytes q), q.2.2.length + 6) :=
      next_packet_build hq q.1 q.2.1 (qs.map requestBytes).flatten
    have hdrop : ((q :: qs).map requestBytes).flatten.drop (q.2.2.length + 6) =
        (qs.map requestBytes).flatten := by
      rw [List.map_cons, List.flatten_cons, ← @length_build_packet q.1 q.2.1 q.2.2 hq]
      exact List.drop_left
    rw [drain_emit hemit, hdrop, ih (fun q' hq' => h q' (List.mem_cons_of_mem q hq'))]
    rfl

theorem serve_all_requests {qs : List (Byte × Byte × List Byte)}
    (h : ∀ q ∈ qs, q.2.2.length ≤ 244) (regs : Regs) :
    serveAll regs (qs.map requestBytes) = executeAll regs qs := by
  induction qs generalizing regs with
  | nil => rfl
  | cons q qs ih =>
    have hrest := fun regs => ih (fun q' hq' => h q' (List.mem_cons_of_mem q hq')) regs
    rw [List.map_cons, serveAll, requestBytes, serve_build (h q List.mem_cons_self)]
    simp only [hrest]
    rfl

/-- An idle simulator executes the requests it hears, in whatever chunks they come. -/
theorem hear_requests {sim : Sim} (hidle : Idle sim) {qs : List (Byte × Byte × List Byte)}
    (h : ∀ q ∈ qs, q.2.2.length ≤ 244) {chunks : List (List Byte)}
    (hchunks : chunks.flatten = (qs.map requestBytes).flatten) :
    hear sim chunks = (executeAll sim.regs qs).map fun r => (⟨r.1, []⟩, r.2) := by
  have hwait : (nextPacket sim.buf).1 = none := by
    rw [hidle.buf]
    rfl
  rw [hear_eq hwait, hidle.buf, List.nil_append, hchunks, drain_requests h,
    serve_all_requests h]

theorem write_regs_eq (regs : Regs) {id : Byte} (hid : id ≠ 0xFE#8) {a : ℕ}
    {data r : List Byte} (hr : regs id = some r) :
    writeRegs regs id a data = Function.update regs id (some (overwrite r a data)) := by
  funext t
  by_cases ht : t = id
  · subst ht
    rw [Function.update_self, writeRegs, if_pos (.inr rfl), hr]
    rfl
  · rw [Function.update_of_ne ht, writeRegs, if_neg (by simp [hid, ht])]

theorem execute_write (regs : Regs) {id a : Byte} {data r : List Byte} (hid : id ≠ 0xFE#8)
    (hr : regs id = some r) :
    execute regs id ftsInstWrite (a :: data) =
      some (Function.update regs id (some (overwrite r a.toNat data)),
        packetBytes ⟨id, 0, []⟩) := by
  have hstatus := @status_eq [] (by decide) id 0
  simp [execute, ftsInstWrite, write_regs_eq regs hid hr, packetBytes]
  exact hstatus

theorem execute_read (regs : Regs) {id a n : Byte} {r : List Byte}
    (hr : regs id = some r) (hfit : a.toNat + n.toNat ≤ r.length) (hn : n.toNat ≤ 244) :
    execute regs id ftsInstRead [a, n] =
      some (regs, packetBytes ⟨id, 0, slice r a.toNat n.toNat⟩) := by
  have hlen := length_slice hfit
  have hstatus := status_eq (hlen.trans_le hn) id 0
  simp [execute, ftsInstRead, hr, packetBytes]
  exact hstatus

theorem fts_write_answered {bus : FtsBus} {wire : Wire} {id addr err : Byte} {data : List Byte}
    (hecho : bus.echo = false) (hwrite : wire.writeFailsAfter = none)
    (hprompt : ∀ a ∈ wire.arrivals, Prompt a) (hpos : 1 ≤ data.length) (hlen : data.length ≤ 243)
    (hid : id ≠ ftsBroadcastId) (hid' : id ≠ 0xFF#8)
    (hbytes : incoming wire.arrivals = packetBytes ⟨id, err, []⟩) :
    ∃ next, ftsWrite bus wire id addr data = (.ok (), next) ∧
      next.written = bus.written ++ ftsBuildPacket id ftsInstWrite (addr :: data) ∧
      next.echo = false := by
  let sent := requested bus wire (ftsBuildPacket id ftsInstWrite (addr :: data))
  have hstream : stream sent = packetBytes ⟨id, err, []⟩ ++ [] := by
    rw [List.append_nil]
    exact hbytes
  obtain ⟨next, hrx, hnext⟩ := rx_status_received 0 ⟨hid', by simp⟩ hstream hprompt
  refine ⟨next, ?_, hnext.written, hnext.echo.trans hecho⟩
  have harg : ¬ (data.length = 0 ∨ data.length + 7 > ftsMaxPkt) := by
    unfold ftsMaxPkt
    omega
  rw [ftsWrite, if_neg harg, tx_packet_quiet hecho hwrite]
  simp only
  rw [if_neg hid, hrx]
  rfl

theorem fts_read_answered {bus : FtsBus} {wire : Wire} {id addr len err : Byte}
    {data out : List Byte} (hecho : bus.echo = false) (hwrite : wire.writeFailsAfter = none)
    (hprompt : ∀ a ∈ wire.arrivals, Prompt a) (hlen : len ≠ 0) (hdata : data.length = len.toNat)
    (hfits : len.toNat ≤ 244) (hid : id ≠ 0xFF#8)
    (hbytes : incoming wire.arrivals = packetBytes ⟨id, err, data⟩) :
    ∃ next, ftsRead bus wire id addr len out = (.ok (), next, overwrite out 0 data) ∧
      next.written = bus.written ++ ftsBuildPacket id ftsInstRead [addr, len] ∧
      next.echo = false := by
  let sent := requested bus wire (ftsBuildPacket id ftsInstRead [addr, len])
  have hstream : stream sent = packetBytes ⟨id, err, data⟩ ++ [] := by
    rw [List.append_nil]
    exact hbytes
  obtain ⟨next, hrx, hnext⟩ :=
    rx_status_received len.toNat ⟨hid, hdata.trans_le hfits⟩ hstream hprompt
  refine ⟨next, ?_, hnext.written, hnext.echo.trans hecho⟩
  rw [← hdata, List.take_length] at hrx
  rw [ftsRead, if_neg hlen, tx_packet_quiet hecho hwrite]
  simp only [← hdata]
  rw [hrx]
  simp

def WrittenAt (sim sim' : Sim) (id addr : Byte) (data : List Byte) : Prop :=
  ∀ t k, register sim' t k =
    if t = id ∧ addr.toNat ≤ k ∧ k < addr.toNat + data.length then data[k - addr.toNat]?
    else register sim t k

theorem written_at_update {sim : Sim} {buf : List Byte} {id addr : Byte} {data r : List Byte}
    (hr : sim.regs id = some r) (hle : addr.toNat ≤ r.length) :
    WrittenAt sim ⟨Function.update sim.regs id (some (overwrite r addr.toNat data)), buf⟩ id addr
      data := by
  intro t k
  by_cases ht : t = id
  · subst ht
    simp only [register, Function.update_self, Option.bind_some, hr, true_and]
    exact get_overwrite hle data k
  · simp only [register, Function.update_of_ne ht, ht, false_and, if_false]

theorem Idle.update {sim : Sim} (h : Idle sim) {id : Byte} {r r' : List Byte}
    (hr : sim.regs id = some r) (hlen : r'.length = r.length) :
    Idle ⟨Function.update sim.regs id (some r'), []⟩ where
  buf := rfl
  length := by
    intro t q hq
    by_cases ht : t = id
    · subst ht
      simp only [Function.update_self, Option.some.injEq] at hq
      rw [← hq, hlen, h.length t r hr]
    · simp only [Function.update_of_ne ht] at hq
      exact h.length t q hq
  ids := by
    intro t q hq
    by_cases ht : t = id
    · subst ht
      exact h.ids t r hr
    · simp only [Function.update_of_ne ht] at hq
      exact h.ids t q hq

theorem Idle.id_ne {sim : Sim} (h : Idle sim) {id : Byte} {r : List Byte}
    (hr : sim.regs id = some r) : id ≠ 0xFE#8 ∧ id ≠ 0xFF#8 := by
  obtain ⟨_, hle⟩ := h.ids id r hr
  constructor
  · intro heq
    rw [heq] at hle
    contradiction
  · intro heq
    rw [heq] at hle
    contradiction

theorem succeeds_of_answer {sim : Sim} {bus : FtsBus}
    {call : FtsBus → Wire → Rc × FtsBus × List Byte} {post : Sim → FtsBus → List Byte → Prop}
    {id inst : Byte} {params reply : List Byte} {regs : Regs} (hidle : Idle sim)
    (hparams : params.length ≤ 244)
    (hexec : execute sim.regs id inst params = some (regs, reply))
    (hcall : ∀ wire : Wire, wire.writeFailsAfter = none → (∀ a ∈ wire.arrivals, Prompt a) →
      incoming wire.arrivals = reply → ∃ bus' out, call bus wire = (.ok (), bus', out) ∧
        bus'.written = bus.written ++ ftsBuildPacket id inst params ∧
        post ⟨regs, []⟩ bus' out) :
    Succeeds sim bus call post := by
  refine ⟨ftsBuildPacket id inst params, ?_⟩
  intro chunks hchunks
  refine ⟨⟨regs, []⟩, reply, ?_, hcall⟩
  have hheard := @hear_requests sim hidle [(id, inst, params)] (by simpa using hparams)
    chunks (by simpa [requestBytes] using hchunks)
  rw [hheard]
  simp [executeAll, hexec]

theorem read_succeeds {sim : Sim} {bus : FtsBus} {id addr len : Byte} {r out : List Byte}
    (hidle : Idle sim) (hecho : bus.echo = false) (hr : sim.regs id = some r)
    (hfit : addr.toNat + len.toNat ≤ 256) (hlen : len ≠ 0) (hfits : len.toNat ≤ 244) :
    Succeeds sim bus (fun bus wire => ftsRead bus wire id addr len out)
      (fun sim' _ last => sim'.regs = sim.regs ∧
        last = overwrite out 0 (slice r addr.toNat len.toNat)) := by
  obtain ⟨_, hid⟩ := hidle.id_ne hr
  have hroom : addr.toNat + len.toNat ≤ r.length := by
    rw [hidle.length id r hr]
    exact hfit
  apply succeeds_of_answer hidle (by simp) (execute_read sim.regs hr hroom hfits)
  intro wire hwrite hprompt hbytes
  have hanswer := @fts_read_answered bus wire id addr len 0 _ out hecho hwrite hprompt hlen
    (length_slice hroom) hfits hid hbytes
  obtain ⟨next, hread, hwritten, _⟩ := hanswer
  exact ⟨next, _, hread, hwritten, rfl, rfl⟩

/-- The call of `fts_write`, which has no buffer of the caller. -/
def writeCall (id addr : Byte) (data : List Byte) (bus : FtsBus) (wire : Wire) :
    Rc × FtsBus × List Byte :=
  ((ftsWrite bus wire id addr data).1, (ftsWrite bus wire id addr data).2, [])

theorem write_succeeds {sim : Sim} {bus : FtsBus} {id addr : Byte} {data r : List Byte}
    (hidle : Idle sim) (hecho : bus.echo = false) (hr : sim.regs id = some r)
    (hpos : 1 ≤ data.length) (hlen : data.length ≤ 243)
    (hfit : addr.toNat + data.length ≤ 256) :
    Succeeds sim bus (writeCall id addr data) (fun sim' bus' _ =>
      WrittenAt sim sim' id addr data ∧ Idle sim' ∧ bus'.echo = false ∧
      sim'.regs id = some (overwrite r addr.toNat data)) := by
  obtain ⟨hid, hid'⟩ := hidle.id_ne hr
  have hroom : addr.toNat + data.length ≤ r.length := by
    rw [hidle.length id r hr]
    exact hfit
  have hparams : (addr :: data).length ≤ 244 := by
    rw [List.length_cons]
    omega
  apply succeeds_of_answer hidle hparams (execute_write sim.regs hid hr)
  intro wire hwrite hprompt hbytes
  obtain ⟨next, hcall, hwritten, hecho'⟩ :=
    @fts_write_answered bus wire id addr 0 data hecho hwrite hprompt hpos hlen hid hid' hbytes
  refine ⟨next, [], by rw [writeCall, hcall], hwritten, ?_, ?_, hecho', Function.update_self ..⟩
  · exact written_at_update hr (by omega)
  · exact hidle.update hr (length_overwrite hroom)

theorem sync_write_servo_self {a n : ℕ} {data : List Byte} (ha : a ≠ 42)
    (hn : data.length = n) (regs : Regs) (t : Byte) :
    syncWriteServo regs a n t data t = (regs t).map (overwrite · a data) := by
  unfold syncWriteServo
  cases hr : regs t with
  | none => exact hr
  | some r =>
    simp only [Function.update_self, syncWriteTable, if_neg ha, setSlice, ← hn]
    rfl

theorem sync_write_servo_of_ne {id t : Byte} (h : id ≠ t) (regs : Regs) (a n : ℕ)
    (data : List Byte) : syncWriteServo regs a n t data id = regs id := by
  unfold syncWriteServo
  cases regs t with
  | none => rfl
  | some r => exact Function.update_of_ne h _ _

theorem length_block {n k : ℕ} {id : Byte} {ids data : List Byte}
    (hdata : (k + (id :: ids).length) * n ≤ data.length) :
    (slice data (k * n) n).length = n := by
  apply length_slice
  rw [← Nat.succ_mul]
  apply le_trans _ hdata
  apply Nat.mul_le_mul_right
  rw [List.length_cons]
  omega

theorem sync_write_body_cons {a n k : ℕ} {t : Byte} {ids data : List Byte}
    (hdata : (k + (t :: ids).length) * n ≤ data.length) (regs : Regs) :
    syncWriteBody a n regs (syncBlocks n data k (t :: ids)) =
      syncWriteBody a n (syncWriteServo regs a n t (slice data (k * n) n))
        (syncBlocks n data (k + 1) ids) := by
  have hblock := length_block hdata
  rw [syncBlocks, List.cons_append, syncWriteBody, List.drop_left' hblock,
    List.take_left' hblock]

theorem blocks_left {k n : ℕ} {id : Byte} {ids data : List Byte}
    (hdata : (k + (id :: ids).length) * n ≤ data.length) :
    (k + 1 + ids.length) * n ≤ data.length := by
  have hcount : k + (id :: ids).length = k + 1 + ids.length := by
    rw [List.length_cons]
    omega
  rwa [hcount] at hdata

theorem sync_write_body_other {a n : ℕ} {data ids : List Byte} {t : Byte} (ht : t ∉ ids) {k : ℕ}
    (hdata : (k + ids.length) * n ≤ data.length) (regs : Regs) :
    syncWriteBody a n regs (syncBlocks n data k ids) t = regs t := by
  induction ids generalizing k regs with
  | nil => rw [syncBlocks, syncWriteBody]
  | cons id ids ih =>
    rw [List.mem_cons, not_or] at ht
    obtain ⟨hne, hmem⟩ := ht
    rw [sync_write_body_cons hdata, ih hmem (blocks_left hdata), sync_write_servo_of_ne hne]

theorem sync_write_body_at {a n : ℕ} {data ids : List Byte} (ha : a ≠ 42) (hnodup : ids.Nodup)
    {k : ℕ} (hdata : (k + ids.length) * n ≤ data.length) (regs : Regs) {j : ℕ} {id : Byte}
    (hid : ids[j]? = some id) :
    syncWriteBody a n regs (syncBlocks n data k ids) id =
      (regs id).map (overwrite · a (slice data ((k + j) * n) n)) := by
  induction ids generalizing k regs j with
  | nil => cases hid
  | cons t ids ih =>
    obtain ⟨hnot, hrest⟩ := List.nodup_cons.mp hnodup
    rw [sync_write_body_cons hdata]
    cases j with
    | zero =>
      cases hid
      rw [sync_write_body_other hnot (blocks_left hdata), Nat.add_zero,
        sync_write_servo_self ha (length_block hdata)]
    | succ j =>
      have hne : id ≠ t := by
        intro heq
        exact hnot (heq ▸ List.mem_of_getElem? hid)
      rw [ih hrest (blocks_left hdata) _ hid, Nat.add_assoc, Nat.add_comm 1 j,
        sync_write_servo_of_ne hne]

theorem execute_sync_write (regs : Regs) (a n : Byte) (body : List Byte) :
    execute regs ftsBroadcastId ftsInstSyncWrite (a :: n :: body) =
      some (syncWriteBody a.toNat n.toNat regs body, []) := by
  simp [execute, ftsInstSyncWrite]

theorem execute_sync_read (regs : Regs) (a n : Byte) (ids : List Byte) :
    execute regs ftsBroadcastId ftsInstSyncRead (a :: n :: ids) =
      (syncReadReplies regs a.toNat n.toNat ids).map fun out => (regs, out) := by
  simp [execute, ftsInstSyncRead]

def replies (regs : Regs) (a n : ℕ) (ids : List Byte) : List FtsPacket :=
  ids.map fun id => ⟨id, 0, slice ((regs id).getD []) a n⟩

theorem sync_read_replies_eq {regs : Regs} {a n : ℕ} {ids : List Byte} (hn : n ≤ 244)
    (hserved : ∀ id ∈ ids, ∃ r, regs id = some r ∧ a + n ≤ r.length) :
    syncReadReplies regs a n ids = some ((replies regs a n ids).map packetBytes).flatten := by
  induction ids with
  | nil => rfl
  | cons id ids ih =>
    obtain ⟨r, hr, hfit⟩ := hserved id List.mem_cons_self
    have hstatus := status_eq ((length_slice hfit).trans_le hn) id 0
    rw [syncReadReplies, hr, ih (fun t ht => hserved t (List.mem_cons_of_mem id ht))]
    simp only [hstatus, replies, List.map_cons, List.flatten_cons, hr, Option.getD_some]
    rfl

theorem flatten_blocks {n k : ℕ} {ids data : List Byte} {f : Byte → List Byte}
    (hdata : data.length = (k + ids.length) * n)
    (hf : ∀ j id, ids[j]? = some id → f id = slice data ((k + j) * n) n) :
    (ids.map f).flatten = data.drop (k * n) := by
  induction ids generalizing k with
  | nil =>
    rw [List.length_nil, Nat.add_zero] at hdata
    rw [← hdata, List.drop_length]
    rfl
  | cons id ids ih =>
    have hcount : k + (id :: ids).length = k + 1 + ids.length := by
      rw [List.length_cons]
      omega
    have hrest := @ih (k + 1) (by rw [hdata, hcount]) (by
      intro j t ht
      rw [hf (j + 1) t ht, Nat.add_assoc, Nat.add_comm 1 j])
    rw [List.map_cons, List.flatten_cons, hrest, hf 0 id rfl, Nat.add_zero, slice, Nat.succ_mul,
      ← List.drop_drop, List.take_append_drop]

/-- The two calls, one after the other, the first met by `silent`. -/
def syncWriteThenRead (silent : Wire) (ids : List Byte) (addr len : Byte) (data out : List Byte)
    (bus : FtsBus) (wire : Wire) : Rc × FtsBus × List Byte :=
  match ftsSyncWrite bus silent ids addr len data with
  | (.error e, bus) => (.error e, bus, out)
  | (.ok (), bus) => ftsSyncRead bus wire ids addr len out

theorem length_sync_blocks {n k : ℕ} {ids data : List Byte}
    (hdata : (k + ids.length) * n ≤ data.length) :
    (syncBlocks n data k ids).length = ids.length * (n + 1) := by
  induction ids generalizing k with
  | nil => rw [syncBlocks, List.length_nil, Nat.zero_mul]
  | cons id ids ih =>
    rw [syncBlocks, List.length_append, List.length_cons, length_block hdata,
      ih (blocks_left hdata), List.length_cons, Nat.succ_mul]
    omega

theorem sync_write_accepts {ids : List Byte} {len : Byte} (hne : ids ≠ [])
    (hlen : len ≠ 0) (hsize : ids.length * (len.toNat + 1) + 8 ≤ 250) :
    syncWriteRefuses (BitVec.ofNat 64 ids.length) len = false := by
  have hpos := List.length_pos_iff.mpr hne
  have hcount : ids.length ≤ 242 := by
    have hmul : ids.length ≤ ids.length * (len.toNat + 1) :=
      Nat.le_mul_of_pos_right _ (Nat.succ_pos _)
    omega
  have hn : (BitVec.ofNat 64 ids.length).toNat = ids.length := by
    rw [BitVec.toNat_ofNat]
    omega
  have hblock : (len.setWidth 64 + 1).toNat = len.toNat + 1 := by
    have hlt := len.isLt
    rw [BitVec.toNat_add, BitVec.toNat_setWidth]
    change (len.toNat % 2 ^ 64 + 1) % 2 ^ 64 = _
    omega
  simp only [syncWriteRefuses, ftsMaxPkt, hlen, decide_false, Bool.or_false,
    Bool.or_eq_false_iff, decide_eq_false_iff_not, BitVec.lt_def]
  constructor
  · intro hzero
    rw [hzero] at hn
    change 0 = ids.length at hn
    omega
  · rw [BitVec.toNat_add, BitVec.toNat_add, BitVec.toNat_mul, hn, hblock]
    change ¬ 250 < ((2 + ids.length * (len.toNat + 1) % 2 ^ 64) % 2 ^ 64 + 6) % 2 ^ 64
    omega

/-- Each servo holds its block of `data`. -/
def Holds (regs : Regs) (a n : ℕ) (data ids : List Byte) : Prop :=
  ∀ j id, ids[j]? = some id →
    ∃ r, regs id = some r ∧ a + n ≤ r.length ∧ slice r a n = slice data (j * n) n

theorem holds_of_sync_write {sim : Sim} {a n : ℕ} {data ids : List Byte} (hidle : Idle sim)
    (hserved : ∀ id ∈ ids, sim.regs id ≠ none) (hnodup : ids.Nodup) (ha : a ≠ 42)
    (hfit : a + n ≤ 256) (hdata : data.length = ids.length * n) :
    Holds (syncWriteBody a n sim.regs (syncBlocks n data 0 ids)) a n data ids := by
  intro j id hj
  have hblocks : (0 + ids.length) * n ≤ data.length := by
    rw [Nat.zero_add, hdata]
  obtain ⟨r, hr⟩ := Option.ne_none_iff_exists'.mp (hserved id (List.mem_of_getElem? hj))
  have hlast : j * n + n ≤ data.length := by
    rw [← Nat.succ_mul, hdata]
    exact Nat.mul_le_mul_right _ (List.getElem?_eq_some_iff.mp hj).1
  have hblock := length_slice hlast
  have hroom : a + n ≤ r.length := by
    rw [hidle.length id r hr]
    exact hfit
  have hwritten := sync_write_body_at ha hnodup hblocks sim.regs hj
  rw [hr, Nat.zero_add] at hwritten
  refine ⟨_, hwritten, ?_, ?_⟩
  · rw [length_overwrite (by rwa [hblock])]
    exact hroom
  · have hself := slice_overwrite (show a ≤ r.length by omega) (slice data (j * n) n)
    rwa [hblock] at hself

theorem Holds.served {regs : Regs} {a n : ℕ} {data ids : List Byte} (h : Holds regs a n data ids) :
    ∀ id ∈ ids, ∃ r, regs id = some r ∧ a + n ≤ r.length := by
  intro id hid
  obtain ⟨j, hj⟩ := List.mem_iff_getElem?.mp hid
  obtain ⟨r, hr, hroom, _⟩ := h j id hj
  exact ⟨r, hr, hroom⟩

theorem replies_ids (regs : Regs) (a n : ℕ) (ids : List Byte) :
    (replies regs a n ids).map FtsPacket.id = ids := by
  simp [replies, Function.comp_def]

theorem Holds.replies_data {regs : Regs} {a n : ℕ} {data ids : List Byte}
    (h : Holds regs a n data ids) (hdata : data.length = ids.length * n) :
    ((replies regs a n ids).map FtsPacket.data).flatten = data := by
  have hflat := @flatten_blocks n 0 ids data (fun id => slice ((regs id).getD []) a n)
    (by rw [Nat.zero_add, hdata]) (by
      intro j id hj
      obtain ⟨r, hr, _, hslice⟩ := h j id hj
      rw [hr, Nat.zero_add]
      exact hslice)
  rw [Nat.zero_mul, List.drop_zero] at hflat
  rw [replies, List.map_map]
  exact hflat

theorem Holds.replies_length {regs : Regs} {a n : ℕ} {data ids : List Byte}
    (h : Holds regs a n data ids) :
    ∀ p ∈ replies regs a n ids, p.id ∈ ids ∧ p.data.length = n := by
  intro p hp
  obtain ⟨id, hid, rfl⟩ := List.mem_map.mp hp
  obtain ⟨r, hr, hroom⟩ := h.served id hid
  refine ⟨hid, ?_⟩
  simp only [hr, Option.getD_some]
  exact length_slice hroom

theorem hear_sync {sim : Sim} {addr len : Byte} {data ids : List Byte} (hidle : Idle sim)
    (hdata : (0 + ids.length) * len.toNat ≤ data.length)
    (hsize : ids.length * (len.toNat + 1) + 8 ≤ 250) (hids : ids.length ≤ 242)
    {regs : Regs} (hregs : regs =
      syncWriteBody addr.toNat len.toNat sim.regs (syncBlocks len.toNat data 0 ids))
    {reply : List Byte}
    (hreply : syncReadReplies regs addr.toNat len.toNat ids = some reply)
    {chunks : List (List Byte)} (hchunks : chunks.flatten =
      syncWritePacket ids addr len data ++ syncReadPacket ids addr len) :
    hear sim chunks = some (⟨regs, []⟩, reply) := by
  have hbody := length_sync_blocks hdata
  let qs : List (Byte × Byte × List Byte) := [
    (ftsBroadcastId, ftsInstSyncWrite, addr :: len :: syncBlocks len.toNat data 0 ids),
    (ftsBroadcastId, ftsInstSyncRead, addr :: len :: ids)]
  have hheard := @hear_requests sim hidle qs
    (by
      simp only [qs, List.mem_cons, List.not_mem_nil, or_false, forall_eq_or_imp, forall_eq,
        List.length_cons, hbody]
      omega)
    chunks (by rw [hchunks]; simp [qs, requestBytes, syncWritePacket, syncReadPacket])
  rw [hheard]
  simp [qs, executeAll, execute_sync_write, execute_sync_read, ← hregs, hreply]

theorem sync_write_read_succeeds {sim : Sim} {bus : FtsBus} {silent : Wire} {ids : List Byte}
    {addr len : Byte} {data out : List Byte} (hidle : Idle sim) (hecho : bus.echo = false)
    (hsilent : silent.writeFailsAfter = none) (hserved : ∀ id ∈ ids, sim.regs id ≠ none)
    (hnodup : ids.Nodup) (hne : ids ≠ []) (hlen : len ≠ 0) (haddr : addr ≠ 42)
    (hsize : ids.length * (len.toNat + 1) + 8 ≤ 250) (hfit : addr.toNat + len.toNat ≤ 256)
    (hdata : data.length = ids.length * len.toNat) (hout : data.length ≤ out.length) :
    Succeeds sim bus (syncWriteThenRead silent ids addr len data out) (fun sim' _ last =>
      last = data ++ out.drop data.length ∧ ∀ t, t ∉ ids → sim'.regs t = sim.regs t) := by
  have hpos := List.length_pos_iff.mpr hne
  have hn : len.toNat ≤ 244 := by
    have hmul := Nat.le_mul_of_pos_left (len.toNat + 1) hpos
    omega
  have hcount : ids.length ≤ 242 := by
    have hmul : ids.length ≤ ids.length * (len.toNat + 1) :=
      Nat.le_mul_of_pos_right _ (Nat.succ_pos _)
    omega
  have hblocks : (0 + ids.length) * len.toNat ≤ data.length := by
    rw [Nat.zero_add, hdata]
  have ha : addr.toNat ≠ 42 := fun heq => haddr (BitVec.eq_of_toNat_eq heq)
  have hholds := holds_of_sync_write hidle hserved hnodup ha hfit hdata
  refine ⟨syncWritePacket ids addr len data ++ syncReadPacket ids addr len, ?_⟩
  intro chunks hchunks
  refine ⟨_, _, hear_sync hidle hblocks hsize hcount rfl
    (sync_read_replies_eq hn hholds.served) hchunks, ?_⟩
  intro wire hwrite hprompt hbytes
  have hids := replies_ids (syncWriteBody addr.toNat len.toNat sim.regs
    (syncBlocks len.toNat data 0 ids)) addr.toNat len.toNat ids
  have hlength := congrArg List.length hids
  rw [List.length_map] at hlength
  have hgood : ∀ p ∈ replies (syncWriteBody addr.toNat len.toNat sim.regs
      (syncBlocks len.toNat data 0 ids)) addr.toNat len.toNat ids, WellFormed p := by
    intro p hp
    obtain ⟨hid, hsize⟩ := hholds.replies_length p hp
    obtain ⟨r, hr⟩ := Option.ne_none_iff_exists'.mp (hserved p.id hid)
    exact ⟨(hidle.id_ne hr).2, hsize.trans_le hn⟩
  obtain ⟨next, hok, _, _, hwritten⟩ := @sync_read_received
    (requested bus silent (syncWritePacket ids addr len data)) wire _ addr len out hecho hwrite
    (by rw [hlength]; exact hpos) (by rw [hlength]; exact hcount) hlen hgood
    (fun p hp => (hholds.replies_length p hp).2) hprompt hbytes
    (by rw [hlength, ← hdata]; exact hout)
  rw [hids, hholds.replies_data hdata, hlength, ← hdata] at hok
  refine ⟨next, _, ?_, ?_, rfl, fun t ht => sync_write_body_other ht hblocks sim.regs⟩
  · rw [syncWriteThenRead, ftsSyncWrite, sync_write_accepts hne hlen hsize, if_neg (by decide),
      tx_packet_quiet hecho hsilent]
    exact hok
  · rw [hwritten, hids, requested, List.append_assoc]

theorem write_read_succeeds {sim : Sim} {bus : FtsBus} {id addr : Byte} {data out : List Byte}
    (hidle : Idle sim) (hecho : bus.echo = false) (hserved : sim.regs id ≠ none)
    (hpos : 1 ≤ data.length) (hlen : data.length ≤ 243)
    (hfit : addr.toNat + data.length ≤ 256) :
    Succeeds sim bus (writeCall id addr data) (fun sim' bus' _ =>
      WrittenAt sim sim' id addr data ∧
      Succeeds sim' bus'
        (fun bus wire => ftsRead bus wire id addr (BitVec.ofNat 8 data.length) out)
        (fun _ _ last => last = data ++ out.drop data.length)) := by
  obtain ⟨r, hr⟩ := Option.ne_none_iff_exists'.mp hserved
  obtain ⟨request, hwrite⟩ := write_succeeds hidle hecho hr hpos hlen hfit
  refine ⟨request, ?_⟩
  intro chunks hchunks
  obtain ⟨sim', reply, hheard, hanswer⟩ := hwrite chunks hchunks
  refine ⟨sim', reply, hheard, ?_⟩
  intro wire hwire hprompt hbytes
  obtain ⟨bus', last, hok, hwritten, hat, hidle', hecho', hr'⟩ := hanswer wire hwire hprompt hbytes
  refine ⟨bus', last, hok, hwritten, hat, ?_⟩
  have hsize : (BitVec.ofNat 8 data.length).toNat = data.length := by
    rw [BitVec.toNat_ofNat]
    omega
  have hne : BitVec.ofNat 8 data.length ≠ 0 := by
    intro hzero
    rw [hzero] at hsize
    change 0 = data.length at hsize
    omega
  have hblock : slice (overwrite r addr.toNat data) addr.toNat data.length = data := by
    apply slice_overwrite
    rw [hidle.length id r hr]
    omega
  obtain ⟨query, hread⟩ := @read_succeeds sim' bus' id addr (BitVec.ofNat 8 data.length) _ out
    hidle' hecho' hr' (by rw [hsize]; exact hfit) hne (by rw [hsize]; omega)
  refine ⟨query, ?_⟩
  intro chunks' hchunks'
  obtain ⟨sim'', reply', hheard', hanswer'⟩ := hread chunks' hchunks'
  refine ⟨sim'', reply', hheard', ?_⟩
  intro wire' hwire' hprompt' hbytes'
  obtain ⟨bus'', last', hok', hwritten', _, hlast⟩ := hanswer' wire' hwire' hprompt' hbytes'
  refine ⟨bus'', last', hok', hwritten', ?_⟩
  rw [hlast, hsize, hblock, overwrite, Nat.zero_add]
  rfl

theorem register_protocol {sim : Sim} {bus : FtsBus} (hidle : Idle sim)
    (hecho : bus.echo = false) :
    (∀ (id addr : Byte) (data out : List Byte), sim.regs id ≠ none →
      1 ≤ data.length → data.length ≤ 243 → addr.toNat + data.length ≤ 256 →
      data.length ≤ out.length →
      Succeeds sim bus (writeCall id addr data) (fun sim' bus' _ =>
        WrittenAt sim sim' id addr data ∧
        Succeeds sim' bus'
          (fun bus wire => ftsRead bus wire id addr (BitVec.ofNat 8 data.length) out)
          (fun _ _ last => last = data ++ out.drop data.length))) ∧
    (∀ (silent : Wire) (ids : List Byte) (addr len : Byte) (data out : List Byte),
      silent.writeFailsAfter = none → (∀ id ∈ ids, sim.regs id ≠ none) → ids.Nodup →
      ids ≠ [] → len ≠ 0 → addr ≠ 42 → ids.length * (len.toNat + 1) + 8 ≤ 250 →
      addr.toNat + len.toNat ≤ 256 → data.length = ids.length * len.toNat →
      data.length ≤ out.length →
      Succeeds sim bus (syncWriteThenRead silent ids addr len data out) (fun sim' _ last =>
        last = data ++ out.drop data.length ∧ ∀ t, t ∉ ids → sim'.regs t = sim.regs t)) := by
  constructor
  · intro id addr data out hserved hpos hlen hfit _
    exact write_read_succeeds hidle hecho hserved hpos hlen hfit
  · intro silent ids addr len data out hsilent hserved hnodup hne hlen haddr hsize hfit hdata hout
    exact sync_write_read_succeeds hidle hecho hsilent hserved hnodup hne hlen haddr hsize hfit
      hdata hout

def twoServos : Sim where
  regs t := if t = 1 ∨ t = 2 then some (List.replicate 256 0) else none
  buf := []

def quietLine : Wire := ⟨none, []⟩

theorem two_servos_idle : Idle twoServos where
  buf := rfl
  length := by
    intro id r hr
    simp only [twoServos] at hr
    split at hr
    · cases hr
      exact List.length_replicate
    · cases hr
  ids := by
    intro id r hr
    simp only [twoServos] at hr
    split at hr
    · rename_i hid
      obtain rfl | rfl := hid
      · decide
      · decide
    · cases hr

theorem two_servos_served {id : Byte} (h : id ∈ ([2, 1] : List Byte)) :
    twoServos.regs id ≠ none := by
  have hid : id = 1 ∨ id = 2 := by
    simp only [List.mem_cons, List.not_mem_nil, or_false] at h
    exact h.symm
  have hregs : twoServos.regs id = some (List.replicate 256 0) := if_pos hid
  rw [hregs]
  exact Option.some_ne_none _

theorem register_protocol_two :
    Succeeds twoServos opened (writeCall 2 40 [7, 0xFF, 0xFF]) (fun sim' bus' _ =>
      WrittenAt twoServos sim' 2 40 [7, 0xFF, 0xFF] ∧
      Succeeds sim' bus' (fun bus wire => ftsRead bus wire 2 40 3 [0, 0, 0])
        (fun _ _ last => last = [7, 0xFF, 0xFF])) ∧
    Succeeds twoServos opened
      (syncWriteThenRead quietLine [2, 1] 41 2 [7, 0xFF, 0xFF, 8] [0, 0, 0, 0])
      (fun sim' _ last => last = [7, 0xFF, 0xFF, 8] ∧
        ∀ t, t ∉ [2, 1] → sim'.regs t = twoServos.regs t) :=
  ⟨(register_protocol two_servos_idle rfl).1 2 40 [7, 0xFF, 0xFF] [0, 0, 0]
      (two_servos_served (by decide)) (by decide) (by decide) (by decide) (by decide),
    (register_protocol two_servos_idle rfl).2 quietLine [2, 1] 41 2 [7, 0xFF, 0xFF, 8]
      [0, 0, 0, 0] rfl (fun id hid => two_servos_served hid) (by decide) (by decide) (by decide)
      (by decide) (by decide) (by decide) (by decide) (by decide)⟩

/-- A sync-write to no servo at all is an argument error. -/
theorem sync_write_nobody :
    Idle twoServos ∧ (∀ id ∈ ([] : List Byte), twoServos.regs id ≠ none) ∧
      ([] : List Byte).Nodup ∧ 0 * ((2 : Byte).toNat + 1) + 8 ≤ 250 ∧
      (41 : Byte).toNat + (2 : Byte).toNat ≤ 256 ∧
      (ftsSyncWrite opened quietLine [] 41 2 []).1 = .error .arg :=
  ⟨two_servos_idle, by simp, by simp, by decide, by decide, rfl⟩

end RegisterProtocol
