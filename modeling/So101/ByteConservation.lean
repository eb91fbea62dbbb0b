import So101.ReplyLength

/-!
# Where the received bytes go

Every byte that was buffered before a call of `rx_status` or read during it is still in the
buffer afterwards, is counted as discarded, or belongs to the packet that is taken out.
-/
namespace ByteConservation

open ServoBus (Byte)
open PacketCodec BusDriver ReceiveLoop ReplyLength

/-- What `read` delivers in one call of `fill_rx`. -/
def readOnce (bus : FtsBus) : List Byte :=
  match bus.arrivals with
  | .bytes bs :: _ => bs.take (ftsRxbufSize - (makeRoom bus).rxbuf.length)
  | _ => []

def readInTurn (bus : FtsBus) : List Byte :=
  if (ftsParseStatus bus.rxbuf).1 = none then readOnce bus else []

/-- What a call of `rx_status` reads, over all its turns. -/
def bytesRead (bus : FtsBus) (expectId : Byte) (cap : ℕ) : List Byte :=
  match _h : rxTurn bus expectId cap with
  | .inl _ => readInTurn bus
  | .inr next => readInTurn bus ++ bytesRead next expectId cap
termination_by (pending bus.arrivals, bus.rxbuf.length)
decreasing_by exact rx_turn_nearer _h

theorem read_once_incoming (bus : FtsBus) :
    incoming bus.arrivals = readOnce bus ++ incoming (fillRx bus).2.arrivals := by
  unfold readOnce
  cases harr : bus.arrivals with
  | nil => simp [fillRx, harr]
  | cons a rest =>
    cases a with
    | expired | silent | pollInterrupted | pollFailed | readInterrupted =>
      simp [fillRx, harr, incoming]
    | bytes bs =>
      by_cases hbs : bs = []
      · simp [fillRx, harr, incoming, hbs]
      · simp only [fillRx, harr, if_neg hbs]
        rw [incoming_read, incoming]

/-- What leaves the buffer: bytes that are counted as discarded, then a packet. -/
structure Accounts (bus next : FtsBus) (read lost packet : List Byte) : Prop where
  bytes : bus.rxbuf ++ read = lost ++ packet ++ next.rxbuf
  discarded : next.stats.bytesDiscarded =
    bus.stats.bytesDiscarded + BitVec.ofNat 32 lost.length
  incoming : incoming bus.arrivals = read ++ incoming next.arrivals

theorem Accounts.of_sheds {bus next : FtsBus} {read lost : List Byte} (h : Sheds bus next lost)
    (hread : BusDriver.incoming bus.arrivals = read ++ BusDriver.incoming next.arrivals) :
    Accounts bus next read lost [] where
  bytes := by
    have hstream := h.stream
    rw [stream, stream, hread, ← List.append_assoc, ← List.append_assoc] at hstream
    rw [List.append_nil]
    exact List.append_cancel_right hstream
  discarded := h.discarded
  incoming := hread

theorem Accounts.trans {bus mid next : FtsBus} {read read' lost lost' packet : List Byte}
    (h : Accounts bus mid read lost []) (h' : Accounts mid next read' lost' packet) :
    Accounts bus next (read ++ read') (lost ++ lost') packet where
  bytes := by
    have hbytes := h.bytes
    rw [List.append_nil] at hbytes
    rw [← List.append_assoc, hbytes, List.append_assoc, h'.bytes]
    simp only [List.append_assoc]
  discarded := by
    rw [h'.discarded, h.discarded, List.length_append, BitVec.ofNat_add, BitVec.add_assoc]
  incoming := by rw [h.incoming, h'.incoming, List.append_assoc]

theorem read_in_turn_of_emit {bus : FtsBus} {e : Except FtsError FtsPacket}
    (h : (ftsParseStatus bus.rxbuf).1 = some e) : readInTurn bus = [] := by
  rw [readInTurn, h]
  exact if_neg (Option.some_ne_none e)

theorem read_in_turn_of_wait {bus : FtsBus} (h : (ftsParseStatus bus.rxbuf).1 = none) :
    readInTurn bus = readOnce bus :=
  if_pos h

theorem fill_accounts {bus : FtsBus} (h : (ftsParseStatus bus.rxbuf).1 = none) :
    ∃ lost, Accounts bus (fillRx bus).2 (readInTurn bus) lost [] := by
  obtain ⟨lost, hlost, _⟩ := fill_rx_sheds bus
  rw [read_in_turn_of_wait h]
  exact ⟨lost, Accounts.of_sheds hlost (read_once_incoming bus)⟩

theorem turn_accounts {bus next : FtsBus} {expectId : Byte} {cap : ℕ}
    (h : rxTurn bus expectId cap = .inr next) :
    ∃ lost, Accounts bus next (readInTurn bus) lost [] := by
  cases hparse : (ftsParseStatus bus.rxbuf).1 with
  | none =>
    rw [rx_turn_wait hparse] at h
    obtain ⟨lost, hfill⟩ := fill_accounts hparse
    split_ifs at h
    split at h
    · rename_i hok
      cases h
      rw [hok] at hfill
      exact ⟨lost, hfill⟩
    · cases h
    · cases h
  | some e =>
    -- an error of the parser, which reads nothing
    obtain ⟨lost, hlost⟩ := rx_turn_sheds h
    rw [read_in_turn_of_emit hparse]
    refine ⟨lost, Accounts.of_sheds hlost ?_⟩
    obtain ⟨n, hemit⟩ := parse_with hparse
    cases e with
    | error e =>
      simp only [rxTurn, hemit] at h
      cases h
      rw [skip_corrupt_arrivals]
      rfl
    | ok pkt => exact absurd hparse (parse_of_turn h pkt)

/-- The ways in which a call returns, each with the bytes of the packet it takes out: the
data and six more. -/
inductive Takes (bus : FtsBus) : Except FtsError (List Byte) → ℕ → Prop where
  | ok {pkt} (got) (h : firstPacket bus = some pkt) : Takes bus (.ok got) (pkt.data.length + 6)
  | id {pkt} (h : firstPacket bus = some pkt) : Takes bus (.error .id) (pkt.data.length + 6)
  | timeout : Takes bus (.error .timeout) 0
  | io : Takes bus (.error .io) 0

theorem Takes.of_turn {bus mid : FtsBus} {result : Except FtsError (List Byte)} {taken : ℕ}
    (hfirst : firstPacket bus = firstPacket mid) (h : Takes mid result taken) :
    Takes bus result taken := by
  cases h with
  | ok got h => exact .ok got (hfirst.trans h)
  | id h => exact .id (hfirst.trans h)
  | timeout => exact .timeout
  | io => exact .io

theorem fill_rx_error {bus next : FtsBus} {e : FtsError} (h : fillRx bus = (.error e, next)) :
    e = .timeout ∨ e = .io := by
  unfold fillRx at h
  split at h
  · exact Or.inl (by cases h; rfl)
  · exact Or.inl (by cases h; rfl)
  · exact Or.inl (by cases h; rfl)
  · cases h
  · exact Or.inr (by cases h; rfl)
  · cases h
  · simp only at h
    split at h
    · exact Or.inr (by cases h; rfl)
    · cases h

theorem packet_accounts {bus next : FtsBus} {expectId : Byte} {cap n : ℕ} {pkt : FtsPacket}
    {result : Except FtsError (List Byte)}
    (hparse : ftsParseStatus bus.rxbuf = (some (.ok pkt), n))
    (h : rxTurn bus expectId cap = .inl (result, next)) :
    ∃ lost, Accounts bus next (readInTurn bus) lost (packetBytes pkt) ∧
      Takes bus result (packetBytes pkt).length := by
  obtain ⟨junk, more, hbuf, rfl, _, hid, hlen⟩ := build_of_parse hparse
  have hdrop : bus.rxbuf.drop (junk.length + (pkt.data.length + 6)) = more := by
    rw [hbuf, List.append_assoc, ← List.drop_drop, List.drop_left,
      ← @length_build_packet pkt.id pkt.error pkt.data hlen, List.drop_left]
  have hbytes : bus.rxbuf ++ [] = junk ++ packetBytes pkt ++
      bus.rxbuf.drop (junk.length + (pkt.data.length + 6)) := by
    rw [hdrop, List.append_nil, hbuf]
    rfl
  have hfirst := first_packet_of_parse hparse
  rw [read_in_turn_of_emit (congrArg Prod.fst hparse), length_packet_bytes ⟨hid, hlen⟩]
  simp only [rxTurn, hparse, Nat.add_sub_cancel] at h
  by_cases hid : pkt.id = expectId
  · rw [if_neg (not_not.mpr hid)] at h
    cases h
    exact ⟨junk, ⟨hbytes, rfl, rfl⟩, .ok _ hfirst⟩
  · rw [if_pos hid] at h
    cases h
    exact ⟨junk, ⟨hbytes, rfl, rfl⟩, .id hfirst⟩

theorem end_accounts {bus next : FtsBus} {expectId : Byte} {cap : ℕ}
    {result : Except FtsError (List Byte)} (h : rxTurn bus expectId cap = .inl (result, next)) :
    ∃ lost packet, Accounts bus next (readInTurn bus) lost packet ∧
      Takes bus result packet.length := by
  cases hparse : (ftsParseStatus bus.rxbuf).1 with
  | none =>
    rw [rx_turn_wait hparse] at h
    obtain ⟨lost, hfill⟩ := fill_accounts hparse
    split_ifs at h with hexpired
    · -- the deadline is past: nothing is read
      cases h
      obtain ⟨rest, harr⟩ : ∃ rest, bus.arrivals = .expired :: rest :=
        ⟨_, List.eq_cons_of_mem_head? hexpired⟩
      have hread : readInTurn bus = [] := by
        rw [read_in_turn_of_wait hparse, readOnce, harr]
      refine ⟨[], [], ⟨?_, ?_, ?_⟩, .timeout⟩
      · rw [hread, List.append_nil]
        rfl
      · simp [FtsBus.countTimeout]
      · rw [hread, harr]
        rfl
    · split at h
      · cases h
      · rename_i htimeout
        cases h
        rw [htimeout] at hfill
        exact ⟨lost, [], ⟨hfill.bytes, hfill.discarded, hfill.incoming⟩, .timeout⟩
      · rename_i e _ herror
        cases h
        rw [herror] at hfill
        rcases fill_rx_error herror with rfl | rfl
        · exact ⟨lost, [], hfill, .timeout⟩
        · exact ⟨lost, [], hfill, .io⟩
  | some e =>
    obtain ⟨n, hemit⟩ := parse_with hparse
    cases e with
    | error e =>
      simp only [rxTurn, hemit] at h
      cases h
    | ok pkt =>
      obtain ⟨lost, haccounts, htakes⟩ := packet_accounts hemit h
      exact ⟨lost, packetBytes pkt, haccounts, htakes⟩

theorem bytes_read_of_end {bus : FtsBus} {expectId : Byte} {cap : ℕ} {r : RxResult}
    (h : rxTurn bus expectId cap = .inl r) : bytesRead bus expectId cap = readInTurn bus := by
  rw [bytesRead]
  split
  · rfl
  · rename_i hturn
    rw [h] at hturn
    cases hturn

theorem bytes_read_of_turn {bus next : FtsBus} {expectId : Byte} {cap : ℕ}
    (h : rxTurn bus expectId cap = .inr next) :
    bytesRead bus expectId cap = readInTurn bus ++ bytesRead next expectId cap := by
  rw [bytesRead]
  split
  · rename_i hturn
    rw [h] at hturn
    cases hturn
  · rename_i hturn
    rw [h] at hturn
    rw [Sum.inr.inj hturn]

theorem rx_status_accounts (bus : FtsBus) (expectId : Byte) (cap : ℕ) :
    ∃ lost packet, Accounts bus (rxStatus bus expectId cap).2 (bytesRead bus expectId cap) lost
        packet ∧ Takes bus (rxStatus bus expectId cap).1 packet.length := by
  fun_induction rxStatus bus expectId cap with
  | case1 bus result h =>
    rw [bytes_read_of_end h]
    exact end_accounts h
  | case2 bus mid h ih =>
    obtain ⟨lost, hturn⟩ := turn_accounts h
    obtain ⟨lost', packet, haccounts, htakes⟩ := ih
    rw [bytes_read_of_turn h]
    exact ⟨lost ++ lost', packet, hturn.trans haccounts, htakes.of_turn (first_packet_of_turn h)⟩

/-- The balance of a call; the packet never has more bytes than the parser has consumed. -/
theorem byte_conservation (bus : FtsBus) (expectId : Byte) (cap : ℕ) :
    let result := (rxStatus bus expectId cap).1
    let next := (rxStatus bus expectId cap).2
    let read := bytesRead bus expectId cap
    incoming bus.arrivals = read ++ incoming next.arrivals ∧
      (∃ lost taken, Takes bus result taken ∧
        bus.rxbuf.length + read.length = next.rxbuf.length + lost + taken ∧
        next.stats.bytesDiscarded = bus.stats.bytesDiscarded + BitVec.ofNat 32 lost) ∧
      ∀ buf pkt consumed, ftsParseStatus buf = (some (.ok pkt), consumed) →
        pkt.data.length + 6 ≤ consumed := by
  intro result next read
  obtain ⟨lost, packet, haccounts, htakes⟩ := rx_status_accounts bus expectId cap
  refine ⟨haccounts.incoming, ⟨lost.length, packet.length, htakes, ?_, haccounts.discarded⟩, ?_⟩
  · have hlength := congrArg List.length haccounts.bytes
    simp only [List.length_append] at hlength
    change bus.rxbuf.length + (bytesRead bus expectId cap).length =
      (rxStatus bus expectId cap).2.rxbuf.length + lost.length + packet.length
    omega
  · intro buf pkt consumed hparse
    obtain ⟨junk, more, _, rfl, _⟩ := build_of_parse hparse
    exact Nat.le_add_left _ _

end ByteConservation
