import So101.ReceiveLoop

/-!
# Sync-reads

A successful sync-read filled every block from the packet of its own servo; packets that
come in the order of the request are all taken, however they are cut up.
-/
namespace SyncRead

open ServoBus (Byte)
open ByteRange PacketCodec BusDriver ReceiveLoop

/-- Well-formed packets one behind the other, with anything between them. -/
def InOrder : List FtsPacket → List Byte → Prop
  | [], _ => True
  | p :: ps, bytes => ∃ junk rest,
      bytes = junk ++ packetBytes p ++ rest ∧ WellFormed p ∧ InOrder ps rest

def InOrderBefore : List FtsPacket → List Byte → List Byte → Prop
  | [], bytes, last => last <:+ bytes
  | p :: ps, bytes, last => ∃ junk rest,
      bytes = junk ++ packetBytes p ++ rest ∧ WellFormed p ∧ InOrderBefore ps rest last

theorem InOrderBefore.suffix {ps : List FtsPacket} {bytes last : List Byte}
    (h : InOrderBefore ps bytes last) : last <:+ bytes := by
  induction ps generalizing bytes with
  | nil => exact h
  | cons p ps ih =>
    obtain ⟨junk, rest, rfl, _, hps⟩ := h
    exact (ih hps).trans (List.suffix_append _ _)

theorem InOrderBefore.skip {ps : List FtsPacket} {bytes rest last : List Byte}
    (h : InOrderBefore ps rest last) (hrest : rest <:+ bytes) : InOrderBefore ps bytes last := by
  cases ps with
  | nil => exact h.trans hrest
  | cons p ps =>
    obtain ⟨lost, rfl⟩ := hrest
    obtain ⟨junk, tail, rfl, hgood, hps⟩ := h
    exact ⟨lost ++ junk, tail, by simp only [List.append_assoc], hgood, hps⟩

theorem InOrderBefore.inOrder {ps : List FtsPacket} {bytes last unread : List Byte}
    (h : InOrderBefore ps (bytes ++ unread) last) (hlast : unread <:+ last) :
    InOrder ps bytes := by
  induction ps generalizing bytes with
  | nil => trivial
  | cons p ps ih =>
    obtain ⟨junk, rest, heq, hgood, hps⟩ := h
    obtain ⟨mid, rfl⟩ := hlast.trans hps.suffix
    rw [← List.append_assoc] at heq
    exact ⟨junk, mid, List.append_cancel_right heq, hgood, ih hps⟩

def Fills (len : ℕ) (out : List Byte) (k : ℕ) (p : FtsPacket) : Prop :=
  len ≤ p.data.length ∧ slice out (k * len) len = p.data.take len

theorem sync_read_loop_first {len : ℕ} {ids : List Byte} {k : ℕ} {bus : FtsBus} {out : List Byte}
    {firstErr : Option FtsError} (h : (syncReadLoop len ids k bus out firstErr).1 = none) :
    firstErr = none := by
  induction ids generalizing k bus out firstErr with
  | nil => exact h
  | cons id ids ih =>
    rw [syncReadLoop] at h
    split at h
    · exact (Option.or_eq_none_iff.mp (ih h)).1
    · split at h
      · exact (Option.or_eq_none_iff.mp h).1
      · exact (Option.or_eq_none_iff.mp (ih h)).1

theorem sync_read_loop_cons {len : ℕ} {id : Byte} {ids : List Byte} {k : ℕ} {bus next : FtsBus}
    {out last : List Byte} {firstErr : Option FtsError}
    (h : syncReadLoop len (id :: ids) k bus out firstErr = (none, next, last)) :
    ∃ got mid, rxStatus bus id len = (.ok got, mid) ∧ got.length = len ∧
      syncReadLoop len ids (k + 1) mid (overwrite out (k * len) got) firstErr =
        (none, next, last) := by
  rw [syncReadLoop] at h
  split at h
  · rename_i got mid hrx
    have hnone := sync_read_loop_first (congrArg Prod.fst h)
    have hfull : got.length = len := by
      by_contra hne
      rw [if_pos hne] at hnone
      cases (Option.or_eq_none_iff.mp hnone).2
    simp only [if_neg (not_not.mpr hfull), Option.or_none] at h
    exact ⟨got, mid, hrx, hfull, h⟩
  · exfalso
    split at h
    · cases (Option.or_eq_none_iff.mp (congrArg Prod.fst h)).2
    · cases (Option.or_eq_none_iff.mp (sync_read_loop_first (congrArg Prod.fst h))).2

theorem sync_read_loop_ok {len : ℕ} {ids : List Byte} {k : ℕ} {bus next : FtsBus}
    {out last : List Byte} {firstErr : Option FtsError}
    (hout : (k + ids.length) * len ≤ out.length)
    (hok : syncReadLoop len ids k bus out firstErr = (none, next, last)) :
    firstErr = none ∧
    (∀ i < k, slice last (i * len) len = slice out (i * len) len) ∧
    ∃ ps : List FtsPacket, InOrderBefore ps (stream bus) (stream next) ∧
      ps.map FtsPacket.id = ids ∧ ∀ j p, ps[j]? = some p → Fills len last (k + j) p := by
  have hnone := sync_read_loop_first (congrArg Prod.fst hok)
  induction ids generalizing k bus out with
  | nil =>
    cases hok
    refine ⟨rfl, fun i hi => rfl, [], List.suffix_rfl, rfl, ?_⟩
    intro j p hp
    cases hp
  | cons id ids ih =>
    have hcount : k + (id :: ids).length = k + 1 + ids.length := by
      rw [List.length_cons]
      omega
    rw [hcount] at hout
    have hend : k * len + len ≤ out.length := by
      rw [← Nat.succ_mul]
      apply le_trans _ hout
      apply Nat.mul_le_mul_right
      omega
    obtain ⟨got, mid, hrx, hfull, hrest⟩ := sync_read_loop_cons hok
    obtain ⟨p, junk, ⟨hstream, hgood, hid, _⟩, hgot⟩ := rx_status_packet hrx
    have hsize := length_overwrite (Nat.add_le_add_left hfull.le (k * len) |>.trans hend)
    obtain ⟨_, hkept, ps, hps, hids, hfills⟩ := ih (by rwa [hsize]) hrest
    have hblock : slice last (k * len) len = got := by
      rw [hkept k (Nat.lt_succ_self k)]
      conv_lhs => rw [← hfull]
      exact slice_overwrite (by rw [hfull]; omega) got
    refine ⟨hnone, ?_, p :: ps, ?_, by rw [List.map_cons, hid, hids], ?_⟩
    · intro i hi
      rw [hkept i (by omega)]
      apply slice_overwrite_of_disjoint (by omega)
      left
      rw [← Nat.succ_mul]
      exact Nat.mul_le_mul_right len hi
    · exact ⟨junk, stream mid, hstream, hgood, hps⟩
    · intro j q hq
      cases j with
      | zero =>
        cases hq
        refine ⟨?_, by rw [Nat.add_zero, hblock, hgot]⟩
        rw [← hfull, hgot, List.length_take]
        omega
      | succ j =>
        have hj := hfills j q hq
        rwa [Nat.add_assoc, Nat.add_comm 1 j] at hj

def requested (bus : FtsBus) (wire : Wire) (pkt : List Byte) : FtsBus :=
  { bus with
    rxbuf := []
    arrivals := wire.arrivals
    written := bus.written ++ pkt
    stats := { bus.stats with txPackets := bus.stats.txPackets + 1 } }

theorem tx_packet_quiet {bus : FtsBus} {wire : Wire} (hecho : bus.echo = false)
    (hwrite : wire.writeFailsAfter = none) (pkt : List Byte) :
    txPacket bus wire pkt = (.ok (), requested bus wire pkt) := by
  simp [txPacket, writeAll, hwrite, hecho, requested]

theorem tx_packet_sent {bus next : FtsBus} {wire : Wire} {pkt : List Byte}
    (hecho : bus.echo = false) (hok : txPacket bus wire pkt = (.ok (), next)) :
    next = requested bus wire pkt := by
  cases hw : wire.writeFailsAfter with
  | none =>
    rw [tx_packet_quiet hecho hw] at hok
    cases hok
    rfl
  | some k =>
    simp only [txPacket, writeAll, hw] at hok
    cases hok

theorem sync_read_attribution {bus next : FtsBus} {wire : Wire} {ids : List Byte}
    {addr len : Byte} {out last : List Byte} (hecho : bus.echo = false)
    (hout : ids.length * len.toNat ≤ out.length)
    (hok : ftsSyncRead bus wire ids addr len out = (.ok (), next, last)) :
    ∃ received packets, incoming wire.arrivals = received ++ incoming next.arrivals ∧
      InOrder packets received ∧ packets.length = ids.length ∧
      ∀ k p, packets[k]? = some p →
        ids[k]? = some p.id ∧ len.toNat ≤ p.data.length ∧
        slice last (k * len.toNat) len.toNat = p.data.take len.toNat := by
  unfold ftsSyncRead at hok
  split at hok
  · cases hok
  split at hok
  · cases hok
  · rename_i mid htx
    split at hok
    · rename_i hloop
      cases hok
      obtain rfl := tx_packet_sent hecho htx
      obtain ⟨_, _, ps, hps, hids, hfills⟩ := sync_read_loop_ok (by simpa using hout) hloop
      have hstream : stream (requested bus wire (syncReadPacket ids addr len)) =
          incoming wire.arrivals := rfl
      obtain ⟨read, hread⟩ := (List.suffix_append next.rxbuf _).trans hps.suffix
      rw [hstream] at hps hread
      refine ⟨read, ps, hread.symm, ?_, by rw [← hids, List.length_map], ?_⟩
      · rw [← hread] at hps
        exact hps.inOrder (List.suffix_append _ _)
      · intro k p hp
        have hfill := hfills k p hp
        rw [Nat.zero_add] at hfill
        refine ⟨?_, hfill.1, hfill.2⟩
        rw [← hids, List.getElem?_map, hp]
        rfl
    · cases hok

theorem sync_read_loop_received {len : ℕ} {ps : List FtsPacket} {k : ℕ} {bus : FtsBus}
    {out more : List Byte} (hgood : ∀ p ∈ ps, WellFormed p)
    (hdata : ∀ p ∈ ps, p.data.length = len)
    (hstream : stream bus = (ps.map packetBytes).flatten ++ more)
    (hprompt : ∀ a ∈ bus.arrivals, Prompt a) (hout : (k + ps.length) * len ≤ out.length) :
    ∃ next, syncReadLoop len (ps.map FtsPacket.id) k bus out none =
        (none, next, out.take (k * len) ++ (ps.map FtsPacket.data).flatten ++
          out.drop ((k + ps.length) * len)) ∧
      stream next = more ∧ next.stats.bytesDiscarded = bus.stats.bytesDiscarded ∧
      next.written = bus.written := by
  induction ps generalizing k bus out with
  | nil => exact ⟨bus, by simp [syncReadLoop], hstream, rfl, rfl⟩
  | cons p ps ih =>
    have hcount : k + (p :: ps).length = k + 1 + ps.length := by
      rw [List.length_cons]
      omega
    rw [hcount] at hout ⊢
    have hend : k * len + len ≤ out.length := by
      rw [← Nat.succ_mul]
      apply le_trans _ hout
      apply Nat.mul_le_mul_right
      omega
    rw [List.map_cons, List.flatten_cons, List.append_assoc] at hstream
    have hp := hdata p List.mem_cons_self
    obtain ⟨mid, hrx, hmid⟩ :=
      rx_status_received len (hgood p List.mem_cons_self) hstream hprompt
    rw [← hp, List.take_length, hp] at hrx
    have hsize : (overwrite out (k * len) p.data).length = out.length :=
      length_overwrite (by rwa [hp])
    obtain ⟨next, hloop, hnext, hdiscarded, hwritten⟩ :=
      ih (fun q hq => hgood q (List.mem_cons_of_mem p hq))
        (fun q hq => hdata q (List.mem_cons_of_mem p hq)) hmid.stream hmid.prompt
        (by rwa [hsize])
    refine ⟨next, ?_, hnext, by rw [hdiscarded, hmid.discarded],
      by rw [hwritten, hmid.written]⟩
    rw [List.map_cons, syncReadLoop, hrx]
    simp only [hp, ne_eq, not_true, if_false, Option.or_none]
    rw [hloop]
    have htake := take_overwrite (show k * len ≤ out.length by omega) p.data
    have hdrop := drop_overwrite (show k * len ≤ out.length by omega)
      (show k * len + p.data.length ≤ (k + 1 + ps.length) * len by
        rw [hp, ← Nat.succ_mul]
        apply Nat.mul_le_mul_right
        omega)
    rw [hp, ← Nat.succ_mul] at htake
    rw [htake, hdrop, List.map_cons, List.flatten_cons]
    simp only [List.append_assoc]

theorem sync_read_accepts {n : ℕ} {len : Byte} (hpos : 1 ≤ n) (hn : n ≤ 242) (hlen : len ≠ 0) :
    syncReadRefuses (BitVec.ofNat 64 n) len = false := by
  have htoNat : (BitVec.ofNat 64 n).toNat = n := by
    rw [BitVec.toNat_ofNat]
    omega
  simp only [syncReadRefuses, ftsMaxPkt, hlen, decide_false, Bool.or_false, Bool.or_eq_false_iff,
    decide_eq_false_iff_not, BitVec.lt_def]
  constructor
  · intro hzero
    rw [hzero] at htoNat
    change 0 = n at htoNat
    omega
  · rw [BitVec.toNat_add, htoNat]
    change ¬ 250 < (n + 8) % 2 ^ 64
    omega

theorem sync_read_received {bus : FtsBus} {wire : Wire} {ps : List FtsPacket}
    {addr len : Byte} {out : List Byte} (hecho : bus.echo = false)
    (hwrite : wire.writeFailsAfter = none) (hpos : 1 ≤ ps.length) (hn : ps.length ≤ 242)
    (hlen : len ≠ 0) (hgood : ∀ p ∈ ps, WellFormed p)
    (hdata : ∀ p ∈ ps, p.data.length = len.toNat) (hprompt : ∀ a ∈ wire.arrivals, Prompt a)
    (hbytes : incoming wire.arrivals = (ps.map packetBytes).flatten)
    (hout : ps.length * len.toNat ≤ out.length) :
    ∃ next, ftsSyncRead bus wire (ps.map FtsPacket.id) addr len out =
        (.ok (), next, (ps.map FtsPacket.data).flatten ++ out.drop (ps.length * len.toNat)) ∧
      next.rxbuf = [] ∧ next.stats.bytesDiscarded = bus.stats.bytesDiscarded ∧
      next.written = bus.written ++ syncReadPacket (ps.map FtsPacket.id) addr len := by
  let sent := requested bus wire (syncReadPacket (ps.map FtsPacket.id) addr len)
  have hstream : stream sent = (ps.map packetBytes).flatten ++ [] := by
    rw [List.append_nil]
    exact hbytes
  obtain ⟨next, hloop, hnext, hdiscarded, hwritten⟩ :=
    sync_read_loop_received (k := 0) hgood hdata hstream hprompt (by rwa [Nat.zero_add])
  refine ⟨next, ?_, ?_, hdiscarded, hwritten⟩
  · rw [ftsSyncRead, List.length_map, sync_read_accepts hpos hn hlen, if_neg (by decide),
      tx_packet_quiet hecho hwrite]
    simp only
    rw [hloop]
    simp
  · exact (List.append_eq_nil_iff.mp hnext).1

def opened : FtsBus where
  arrivals := []
  written := []
  echo := false
  lastServoError := 0
  stats := ⟨0, 0, 0, 0, 0⟩
  rxbuf := []

/-- The replies of servos 1 and 2, the second cut between the two bytes of its header. -/
def twoReplies : Wire where
  writeFailsAfter := none
  arrivals :=
    [.bytes (packetBytes ⟨1, 0, [5, 0xFF]⟩ ++ [0xFF]), .readInterrupted,
      .bytes ((packetBytes ⟨2, 4, [0xFF, 8]⟩).drop 1)]

theorem two_replies_prompt : ∀ a ∈ twoReplies.arrivals, Prompt a := by
  simp [twoReplies, Prompt, packetBytes, ftsBuildPacket, ftsMaxPkt]

theorem sync_read_attribution_two :
    ∃ next last, ftsSyncRead opened twoReplies [1, 2] 56 2 [0, 0, 0, 0] = (.ok (), next, last) ∧
      ∃ received packets,
        incoming twoReplies.arrivals = received ++ incoming next.arrivals ∧
        InOrder packets received ∧ packets.length = 2 ∧
        ∀ k p, packets[k]? = some p → [1, 2][k]? = some p.id ∧ 2 ≤ p.data.length ∧
          slice last (k * 2) 2 = p.data.take 2 := by
  obtain ⟨next, hok, _⟩ := @sync_read_received opened twoReplies
    [⟨1, 0, [5, 0xFF]⟩, ⟨2, 4, [0xFF, 8]⟩] 56 2 [0, 0, 0, 0] rfl rfl (by decide) (by decide)
    (by decide) (by simp [WellFormed]) (by simp) two_replies_prompt (by decide) (by decide)
  exact ⟨next, _, hok, sync_read_attribution rfl (by decide) hok⟩

theorem sync_read_complete {bus : FtsBus} {wire : Wire} {packets : List FtsPacket}
    {addr len : Byte} {out : List Byte} (hecho : bus.echo = false)
    (hwrite : wire.writeFailsAfter = none) (hpos : 1 ≤ packets.length)
    (hn : packets.length ≤ 242) (hlenpos : 1 ≤ len.toNat) (hlen : len.toNat ≤ 244)
    (hids : ∀ p ∈ packets, p.id ≠ 0xFF#8) (hdata : ∀ p ∈ packets, p.data.length = len.toNat)
    (hprompt : ∀ a ∈ wire.arrivals, Prompt a)
    (hbytes : incoming wire.arrivals = (packets.map packetBytes).flatten)
    (hout : packets.length * len.toNat ≤ out.length) :
    ∃ next, ftsSyncRead bus wire (packets.map FtsPacket.id) addr len out =
        (.ok (), next, (packets.map FtsPacket.data).flatten ++
          out.drop (packets.length * len.toNat)) ∧
      next.rxbuf = [] ∧ next.stats.bytesDiscarded = bus.stats.bytesDiscarded := by
  have hlenne : len ≠ 0 := by
    intro hzero
    rw [hzero] at hlenpos
    contradiction
  have hgood : ∀ p ∈ packets, WellFormed p := by
    intro p hp
    refine ⟨hids p hp, ?_⟩
    rw [hdata p hp]
    exact hlen
  obtain ⟨next, hok, hbuf, hdiscarded, _⟩ :=
    sync_read_received hecho hwrite hpos hn hlenne hgood hdata hprompt hbytes hout
  exact ⟨next, hok, hbuf, hdiscarded⟩

theorem sync_read_complete_two :
    ∃ next, ftsSyncRead opened twoReplies [1, 2] 56 2 [0, 0, 0, 0] =
        (.ok (), next, [5, 0xFF, 0xFF, 8]) ∧
      next.rxbuf = [] ∧ next.stats.bytesDiscarded = 0 :=
  @sync_read_complete opened twoReplies [⟨1, 0, [5, 0xFF]⟩, ⟨2, 4, [0xFF, 8]⟩] 56 2 [0, 0, 0, 0]
    rfl rfl (by decide) (by decide) (by decide) (by decide) (by decide) (by decide)
    two_replies_prompt (by decide) (by decide)

end SyncRead
