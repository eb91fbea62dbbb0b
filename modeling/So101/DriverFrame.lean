import So101.EchoMode
import So101.SyncRead

/-!
# What a request leaves on the line

A request writes its own packet, or the part of it that a failing write lets through, and
nothing else; the receive loops write nothing. What they read is a part of what has arrived
since the flush, with echo as without.
-/
namespace DriverFrame

open ServoBus (Byte)
open PacketCodec BusDriver ReceiveLoop SyncRead

def sentPart (wire : Wire) (pkt : List Byte) : List Byte :=
  match wire.writeFailsAfter with
  | none => pkt
  | some k => pkt.take k

theorem sent_part_prefix (wire : Wire) (pkt : List Byte) : sentPart wire pkt <+: pkt := by
  unfold sentPart
  split
  · exact List.prefix_rfl
  · exact List.take_prefix _ _

theorem sent_part_whole {wire : Wire} (h : wire.writeFailsAfter = none) (pkt : List Byte) :
    sentPart wire pkt = pkt := by
  simp only [sentPart, h]

/-- Bytes are only read: nothing is written, and they leave the stream from the front. -/
structure Listens (bus next : FtsBus) : Prop where
  written : next.written = bus.written
  echo : next.echo = bus.echo
  stream : stream next <:+ stream bus

theorem Listens.trans {bus mid next : FtsBus} (h : Listens bus mid) (k : Listens mid next) :
    Listens bus next where
  written := k.written.trans h.written
  echo := k.echo.trans h.echo
  stream := k.stream.trans h.stream

theorem Sheds.suffix {bus next : FtsBus} {lost : List Byte} (h : Sheds bus next lost) :
    stream next <:+ stream bus := ⟨lost, h.stream.symm⟩

theorem make_room_kept (bus : FtsBus) :
    (makeRoom bus).written = bus.written ∧ (makeRoom bus).echo = bus.echo := by
  unfold makeRoom
  split <;> exact ⟨rfl, rfl⟩

theorem fill_rx_listens (bus : FtsBus) : Listens bus (fillRx bus).2 := by
  obtain ⟨lost, hlost, _⟩ := fill_rx_sheds bus
  obtain ⟨hwritten, hecho⟩ := make_room_kept bus
  have hkept : (fillRx bus).2.written = bus.written ∧ (fillRx bus).2.echo = bus.echo := by
    simp only [fillRx]
    split
    · exact ⟨rfl, rfl⟩
    · exact ⟨rfl, rfl⟩
    · exact ⟨rfl, rfl⟩
    · exact ⟨rfl, rfl⟩
    · exact ⟨rfl, rfl⟩
    · exact ⟨hwritten, hecho⟩
    · split <;> exact ⟨hwritten, hecho⟩
  exact ⟨hkept.1, hkept.2, Sheds.suffix hlost⟩

theorem drop_rx_suffix (bus : FtsBus) (n : ℕ) : stream (dropRx bus n) <:+ stream bus := by
  refine ⟨bus.rxbuf.take n, ?_⟩
  simp only [stream, dropRx, ← List.append_assoc, List.take_append_drop]

theorem drop_rx_listens (bus : FtsBus) (n : ℕ) : Listens bus (dropRx bus n) :=
  ⟨rfl, rfl, drop_rx_suffix bus n⟩

theorem skip_corrupt_listens (bus : FtsBus) (e : FtsError) (n : ℕ) :
    Listens bus (skipCorrupt bus e n) := by
  refine ⟨?_, ?_, ⟨bus.rxbuf.take n, ?_⟩⟩
  · unfold skipCorrupt
    split <;> rfl
  · unfold skipCorrupt
    split <;> rfl
  · simp only [stream, skip_corrupt_arrivals, skip_corrupt_rxbuf, ← List.append_assoc,
      List.take_append_drop]

def turnBus : RxResult ⊕ FtsBus → FtsBus
  | .inl r => r.2
  | .inr bus => bus

theorem rx_turn_listens (bus : FtsBus) (expectId : Byte) (cap : ℕ) :
    Listens bus (turnBus (rxTurn bus expectId cap)) := by
  have hfill := fill_rx_listens bus
  have hself : Listens bus bus := ⟨rfl, rfl, List.suffix_rfl⟩
  unfold rxTurn
  split
  · rename_i pkt consumed hparse
    simp only
    split
    · exact ⟨rfl, rfl, drop_rx_suffix bus consumed⟩
    · exact ⟨rfl, rfl, drop_rx_suffix bus consumed⟩
  · exact skip_corrupt_listens bus _ _
  · split
    · rename_i hexpired
      refine ⟨rfl, rfl, ?_⟩
      cases harr : bus.arrivals with
      | nil => simp [harr] at hexpired
      | cons a rest =>
        obtain rfl : a = .expired := by simpa [harr] using hexpired
        simp [turnBus, stream, harr, incoming, FtsBus.countTimeout]
    · split <;> rename_i heq <;> rw [heq] at hfill
      · exact hfill
      · exact ⟨hfill.written, hfill.echo, hfill.stream⟩
      · exact hfill

theorem rx_status_listens (bus : FtsBus) (expectId : Byte) (cap : ℕ) :
    Listens bus (rxStatus bus expectId cap).2 := by
  fun_induction rxStatus bus expectId cap with
  | case1 bus result hturn =>
    have h := rx_turn_listens bus expectId cap
    rwa [hturn] at h
  | case2 bus mid hturn ih =>
    have h := rx_turn_listens bus expectId cap
    rw [hturn] at h
    exact h.trans ih

theorem swallow_echo_listens (len : ℕ) (bus : FtsBus) : Listens bus (swallowEcho len bus).2 := by
  fun_induction swallowEcho len bus with
  | case1 bus hshort mid hfill ih =>
    have h := fill_rx_listens bus
    rw [hfill] at h
    exact h.trans ih
  | case2 bus hshort mid hfill =>
    have h := fill_rx_listens bus
    rw [hfill] at h
    exact h.trans (drop_rx_listens mid len)
  | case3 bus hshort e mid _ hfill =>
    have h := fill_rx_listens bus
    rwa [hfill] at h
  | case4 bus hfull => exact drop_rx_listens bus len

theorem sync_read_loop_listens (len : ℕ) (ids : List Byte) (k : ℕ) (bus : FtsBus)
    (out : List Byte) (firstErr : Option FtsError) :
    Listens bus (syncReadLoop len ids k bus out firstErr).2.1 := by
  induction ids generalizing k bus out firstErr with
  | nil => exact ⟨rfl, rfl, List.suffix_rfl⟩
  | cons id ids ih =>
    have hrx := rx_status_listens bus id len
    simp only [syncReadLoop]
    split
    · rename_i heq
      rw [heq] at hrx
      exact hrx.trans (ih _ _ _ _)
    · rename_i heq
      rw [heq] at hrx
      split
      · exact hrx
      · exact hrx.trans (ih _ _ _ _)

/-- A request with the packet `pkt` has been made: what it leaves on the line, and what is
left of the bytes that have arrived since the flush. -/
structure Requests (bus next : FtsBus) (wire : Wire) (pkt : List Byte) (rc : Rc) : Prop where
  written : next.written = bus.written ++ sentPart wire pkt
  echo : next.echo = bus.echo
  stream : stream next <:+ incoming wire.arrivals
  whole : rc = .ok () → wire.writeFailsAfter = none

theorem tx_packet_requests (bus : FtsBus) (wire : Wire) (pkt : List Byte) :
    Requests bus (txPacket bus wire pkt).2 wire pkt (txPacket bus wire pkt).1 := by
  cases hw : wire.writeFailsAfter with
  | some k =>
    simp only [txPacket, writeAll, hw]
    refine ⟨?_, rfl, List.suffix_rfl, fun hok => by cases hok⟩
    simp only [sentPart, hw]
  | none =>
    have hpart := sent_part_whole hw pkt
    simp only [txPacket, writeAll, hw]
    split
    · have h := swallow_echo_listens pkt.length (requested bus wire pkt)
      exact ⟨h.written.trans (congrArg (bus.written ++ ·) hpart.symm), h.echo, h.stream,
        fun _ => hw⟩
    · exact ⟨congrArg (bus.written ++ ·) hpart.symm, rfl, List.suffix_rfl, fun _ => hw⟩

theorem Requests.listens {bus mid next : FtsBus} {wire : Wire} {pkt : List Byte} {rc : Rc}
    (h : Requests bus mid wire pkt (.ok ())) (hnext : Listens mid next) :
    Requests bus next wire pkt rc where
  written := hnext.written.trans h.written
  echo := hnext.echo.trans h.echo
  stream := hnext.stream.trans h.stream
  whole _ := h.whole rfl

theorem fts_sync_read_requests (bus : FtsBus) (wire : Wire) {ids : List Byte} {len : Byte}
    (haccepts : syncReadRefuses (BitVec.ofNat 64 ids.length) len = false) (addr : Byte)
    (out : List Byte) :
    Requests bus (ftsSyncRead bus wire ids addr len out).2.1 wire (syncReadPacket ids addr len)
      (ftsSyncRead bus wire ids addr len out).1 := by
  have htx := tx_packet_requests bus wire (syncReadPacket ids addr len)
  simp only [ftsSyncRead, haccepts, Bool.false_eq_true, if_false]
  cases hsent : txPacket bus wire (syncReadPacket ids addr len) with
  | mk rc mid =>
    rw [hsent] at htx
    cases rc with
    | error e => exact htx
    | ok u =>
      have hloop := sync_read_loop_listens len.toNat ids 0 mid out none
      simp only
      split <;> rename_i heq <;> rw [heq] at hloop <;> exact htx.listens hloop

theorem fts_sync_write_requests (bus : FtsBus) (wire : Wire) {ids : List Byte} {len : Byte}
    (haccepts : syncWriteRefuses (BitVec.ofNat 64 ids.length) len = false) (addr : Byte)
    (data : List Byte) :
    Requests bus (ftsSyncWrite bus wire ids addr len data).2 wire
      (syncWritePacket ids addr len data) (ftsSyncWrite bus wire ids addr len data).1 := by
  simp only [ftsSyncWrite, haccepts, Bool.false_eq_true, if_false]
  exact tx_packet_requests bus wire _

/-- Every block of a successful sync-read is the data of a packet of its own servo, and the
packets stand in this order in the bytes that arrived after the request. -/
theorem sync_read_taken {bus next : FtsBus} {wire : Wire} {ids : List Byte} {addr len : Byte}
    {out last : List Byte} (hout : ids.length * len.toNat ≤ out.length)
    (hok : ftsSyncRead bus wire ids addr len out = (.ok (), next, last)) :
    ∃ packets : List FtsPacket, InOrderBefore packets (incoming wire.arrivals) (stream next) ∧
      packets.map FtsPacket.id = ids ∧
      ∀ k p, packets[k]? = some p → Fills len.toNat last k p := by
  unfold ftsSyncRead at hok
  split at hok
  · cases hok
  split at hok
  · cases hok
  · rename_i mid htx
    split at hok
    · rename_i hloop
      cases hok
      have hsent := tx_packet_requests bus wire (syncReadPacket ids addr len)
      rw [htx] at hsent
      obtain ⟨_, _, ps, hps, hids, hfills⟩ := sync_read_loop_ok (by simpa using hout) hloop
      refine ⟨ps, hps.skip hsent.stream, hids, fun k p hp => ?_⟩
      have hfill := hfills k p hp
      rwa [Nat.zero_add] at hfill
    · cases hok

end DriverFrame
