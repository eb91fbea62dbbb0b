import So101.BusDriver

/-!
# What the receive loop takes off the line

The stream of a bus is its buffer and the bytes still to come. A turn of the receive loop
only drops bytes from the front of the stream, and a packet it returns stood there. A packet
that is next in the stream and comes without a pause is returned.
-/
namespace ReceiveLoop

open ServoBus (Byte)
open PacketCodec BusDriver StreamDecoder

def stream (bus : FtsBus) : List Byte := bus.rxbuf ++ incoming bus.arrivals

/-- The packet could have been sent: its ID and length are those the parser accepts. -/
def WellFormed (pkt : FtsPacket) : Prop := pkt.id ≠ 0xFF#8 ∧ pkt.data.length ≤ 244

def packetBytes (pkt : FtsPacket) : List Byte := ftsBuildPacket pkt.id pkt.error pkt.data

theorem length_packet_bytes {pkt : FtsPacket} (h : WellFormed pkt) :
    (packetBytes pkt).length = pkt.data.length + 6 := length_build_packet h.2

/-- Bytes go from the front of the stream and are counted as discarded. -/
structure Sheds (bus next : FtsBus) (lost : List Byte) : Prop where
  stream : stream bus = lost ++ stream next
  discarded : next.stats.bytesDiscarded =
    bus.stats.bytesDiscarded + BitVec.ofNat 32 lost.length

theorem Sheds.trans {bus mid next : FtsBus} {lost lost' : List Byte} (h : Sheds bus mid lost)
    (h' : Sheds mid next lost') : Sheds bus next (lost ++ lost') where
  stream := by rw [h.stream, h'.stream, List.append_assoc]
  discarded := by
    rw [h'.discarded, h.discarded, List.length_append, BitVec.ofNat_add, BitVec.add_assoc]

theorem sheds_nothing {bus next : FtsBus} (hstream : stream next = stream bus)
    (hstats : next.stats = bus.stats) : Sheds bus next [] where
  stream := hstream.symm
  discarded := by simp [hstats]

theorem make_room_of_lt {bus : FtsBus} (h : bus.rxbuf.length < ftsRxbufSize) :
    makeRoom bus = bus := by
  rw [makeRoom, if_neg (by omega)]

/-- A full buffer goes as a whole, or nothing does. -/
def Flushes (bus : FtsBus) (lost : List Byte) : Prop :=
  lost = [] ∨ ftsRxbufSize ≤ bus.rxbuf.length ∧ lost = bus.rxbuf

theorem Flushes.eq_nil {bus : FtsBus} {lost : List Byte} (h : Flushes bus lost)
    (hroom : bus.rxbuf.length < ftsRxbufSize) : lost = [] := by
  rcases h with hnil | ⟨hfull, _⟩
  · exact hnil
  · exact absurd hroom (not_lt.mpr hfull)

theorem make_room_sheds (bus : FtsBus) :
    ∃ lost, Sheds bus (makeRoom bus) lost ∧ Flushes bus lost := by
  by_cases hfull : bus.rxbuf.length ≥ ftsRxbufSize
  · rw [makeRoom, if_pos hfull]
    exact ⟨bus.rxbuf, ⟨rfl, rfl⟩, Or.inr ⟨hfull, rfl⟩⟩
  · rw [makeRoom, if_neg hfull]
    exact ⟨[], sheds_nothing rfl rfl, Or.inl rfl⟩

theorem incoming_read (bs : List Byte) (room : ℕ) (rest : List Arrival) :
    bs.take room ++
        incoming (if bs.length ≤ room then rest else .bytes (bs.drop room) :: rest) =
      bs ++ incoming rest := by
  by_cases hfits : bs.length ≤ room
  · rw [if_pos hfits, List.take_of_length_le hfits]
  · rw [if_neg hfits, incoming, ← List.append_assoc, List.take_append_drop]

theorem fill_rx_sheds (bus : FtsBus) :
    ∃ lost, Sheds bus (fillRx bus).2 lost ∧ Flushes bus lost := by
  obtain ⟨lost, hlost, hflush⟩ := make_room_sheds bus
  unfold fillRx
  split
  · exact ⟨[], sheds_nothing rfl rfl, Or.inl rfl⟩
  · rename_i rest heq
    exact ⟨[], sheds_nothing (by simp [stream, heq, incoming]) rfl, Or.inl rfl⟩
  · rename_i rest heq
    exact ⟨[], sheds_nothing (by simp [stream, heq, incoming]) rfl, Or.inl rfl⟩
  · rename_i rest heq
    exact ⟨[], sheds_nothing (by simp [stream, heq, incoming]) rfl, Or.inl rfl⟩
  · rename_i rest heq
    exact ⟨[], sheds_nothing (by simp [stream, heq, incoming]) rfl, Or.inl rfl⟩
  · rename_i rest heq
    refine ⟨lost, ⟨?_, hlost.discarded⟩, hflush⟩
    rw [hlost.stream]
    simp [stream, heq, incoming]
  · rename_i bs rest heq
    simp only
    by_cases hbs : bs = []
    · rw [if_pos hbs]
      refine ⟨lost, ⟨?_, hlost.discarded⟩, hflush⟩
      rw [hlost.stream]
      simp [stream, heq, incoming, hbs]
    · rw [if_neg hbs]
      refine ⟨lost, ⟨?_, hlost.discarded⟩, hflush⟩
      rw [hlost.stream, stream, stream, make_room_arrivals, heq, List.append_assoc,
        incoming_read]
      rfl

theorem fill_rx_stream_eq {bus next : FtsBus} (h : fillRx bus = (.ok (), next))
    (hroom : bus.rxbuf.length < ftsRxbufSize) : stream next = stream bus := by
  obtain ⟨lost, hlost, hflush⟩ := fill_rx_sheds bus
  rw [h] at hlost
  obtain rfl := hflush.eq_nil hroom
  exact hlost.stream.symm

theorem skip_corrupt_sheds {bus : FtsBus} {n : ℕ} (h : n ≤ bus.rxbuf.length) (e : FtsError) :
    Sheds bus (skipCorrupt bus e n) (bus.rxbuf.take n) where
  stream := by
    rw [stream, stream, skip_corrupt_arrivals, skip_corrupt_rxbuf, ← List.append_assoc,
      List.take_append_drop]
  discarded := by
    rw [List.length_take, Nat.min_eq_left h]
    unfold skipCorrupt
    split <;> rfl

theorem rx_turn_sheds {bus next : FtsBus} {expectId : Byte} {cap : ℕ}
    (h : rxTurn bus expectId cap = .inr next) : ∃ lost, Sheds bus next lost := by
  unfold rxTurn at h
  split at h
  · simp only at h
    split at h
    · cases h
    · cases h
  · rename_i e n hparse
    cases h
    have hle := parse_consumed_le bus.rxbuf
    rw [hparse] at hle
    exact ⟨_, skip_corrupt_sheds hle e⟩
  · split at h
    · cases h
    · obtain ⟨lost, hfill, _⟩ := fill_rx_sheds bus
      split at h
      · rename_i heq
        cases h
        rw [heq] at hfill
        exact ⟨lost, hfill⟩
      · cases h
      · cases h

/-- A packet from the asked servo that stood in the stream, behind junk that is counted. -/
structure TakenFrom (bus next : FtsBus) (expectId : Byte) (pkt : FtsPacket)
    (junk : List Byte) : Prop where
  stream : stream bus = junk ++ packetBytes pkt ++ stream next
  good : WellFormed pkt
  id : pkt.id = expectId
  discarded : next.stats.bytesDiscarded =
    bus.stats.bytesDiscarded + BitVec.ofNat 32 junk.length

theorem rx_turn_packet {bus next : FtsBus} {expectId : Byte} {cap : ℕ} {got : List Byte}
    (h : rxTurn bus expectId cap = .inl (.ok got, next)) :
    ∃ pkt junk, TakenFrom bus next expectId pkt junk ∧ got = pkt.data.take cap := by
  unfold rxTurn at h
  split at h
  · rename_i pkt consumed hparse
    simp only at h
    split at h
    · cases h
    · rename_i hid
      cases h
      obtain ⟨junk, more, hbuf, rfl, _, hgood, hlen⟩ := build_of_parse hparse
      refine ⟨pkt, junk, ⟨?_, ⟨hgood, hlen⟩, not_not.mp hid, ?_⟩, rfl⟩
      rotate_left
      · change _ + BitVec.ofNat 32 (junk.length + _ - _) = _
        rw [Nat.add_sub_cancel]
      have hdrop : bus.rxbuf.drop (junk.length + (pkt.data.length + 6)) = more := by
        rw [hbuf, List.append_assoc, ← List.drop_drop, List.drop_left,
          ← @length_build_packet pkt.id pkt.error pkt.data hlen, List.drop_left]
      change bus.rxbuf ++ _ = _ ++ (bus.rxbuf.drop _ ++ _)
      rw [hdrop, hbuf, List.append_assoc]
      rfl
  · cases h
  · split at h
    · cases h
    · split at h
      · cases h
      · cases h
      · cases h

theorem rx_status_packet {bus next : FtsBus} {expectId : Byte} {cap : ℕ} {got : List Byte}
    (h : rxStatus bus expectId cap = (.ok got, next)) :
    ∃ pkt junk, TakenFrom bus next expectId pkt junk ∧ got = pkt.data.take cap := by
  fun_induction rxStatus bus expectId cap with
  | case1 bus result hturn =>
    subst h
    exact rx_turn_packet hturn
  | case2 bus mid hturn ih =>
    obtain ⟨lost, hlost⟩ := rx_turn_sheds hturn
    obtain ⟨pkt, junk, htaken, hgot⟩ := ih h
    refine ⟨pkt, lost ++ junk, ⟨?_, htaken.good, htaken.id, ?_⟩, hgot⟩
    · rw [hlost.stream, htaken.stream]
      simp only [List.append_assoc]
    · rw [htaken.discarded, hlost.discarded, List.length_append, BitVec.ofNat_add,
        BitVec.add_assoc]

theorem parse_with {buf : List Byte} {e : Option (Except FtsError FtsPacket)}
    (h : (ftsParseStatus buf).1 = e) : ∃ n, ftsParseStatus buf = (e, n) :=
  ⟨_, Prod.ext h rfl⟩

theorem rx_turn_wait {bus : FtsBus} (h : (ftsParseStatus bus.rxbuf).1 = none) (expectId : Byte)
    (cap : ℕ) :
    rxTurn bus expectId cap =
      if bus.arrivals.head? = some .expired then
        .inl (.error .timeout, { bus.countTimeout with arrivals := bus.arrivals.tail })
      else
        match fillRx bus with
        | (.ok (), bus) => .inr bus
        | (.error .timeout, bus) => .inl (.error .timeout, bus.countTimeout)
        | (.error e, bus) => .inl (.error e, bus) := by
  obtain ⟨n, hparse⟩ := parse_with h
  unfold rxTurn
  split
  · rename_i hok
    rw [hparse] at hok
    cases hok
  · rename_i herror
    rw [hparse] at herror
    cases herror
  · rfl

theorem rx_status_of_end {bus : FtsBus} {expectId : Byte} {cap : ℕ} {r : RxResult}
    (h : rxTurn bus expectId cap = .inl r) : rxStatus bus expectId cap = r := by
  rw [rxStatus]
  split
  · rename_i hturn
    rw [h] at hturn
    exact (Sum.inl.inj hturn).symm
  · rename_i hturn
    rw [h] at hturn
    cases hturn

theorem rx_status_of_turn {bus next : FtsBus} {expectId : Byte} {cap : ℕ}
    (h : rxTurn bus expectId cap = .inr next) :
    rxStatus bus expectId cap = rxStatus next expectId cap := by
  rw [rxStatus]
  split
  · rename_i hturn
    rw [h] at hturn
    cases hturn
  · rename_i hturn
    rw [h] at hturn
    rw [Sum.inr.inj hturn]

def Prompt : Arrival → Prop
  | .bytes bs => bs ≠ []
  | .pollInterrupted | .readInterrupted => True
  | .expired | .silent | .pollFailed => False

structure Continues (bus next : FtsBus) : Prop where
  stream : stream next = stream bus
  prompt : ∀ a ∈ next.arrivals, Prompt a
  stats : next.stats = bus.stats
  written : next.written = bus.written
  echo : next.echo = bus.echo

theorem fill_rx_goes {bus : FtsBus} (hprompt : ∀ a ∈ bus.arrivals, Prompt a)
    (hmore : incoming bus.arrivals ≠ []) :
    ∃ next, fillRx bus = (.ok (), next) ∧ ∀ a ∈ next.arrivals, Prompt a := by
  cases harr : bus.arrivals with
  | nil =>
    rw [harr] at hmore
    exact absurd rfl hmore
  | cons a rest =>
    rw [harr] at hprompt
    have hhead := hprompt a List.mem_cons_self
    have hrest : ∀ b ∈ rest, Prompt b := fun b hb => hprompt b (List.mem_cons_of_mem a hb)
    cases a with
    | expired => exact hhead.elim
    | silent => exact hhead.elim
    | pollFailed => exact hhead.elim
    | pollInterrupted => exact ⟨_, by rw [fillRx, harr], hrest⟩
    | readInterrupted => exact ⟨_, by rw [fillRx, harr], hrest⟩
    | bytes bs =>
      have hbs : bs ≠ [] := hhead
      simp only [fillRx, harr, if_neg hbs]
      refine ⟨_, rfl, fun b hb => ?_⟩
      simp only at hb
      split at hb
      · exact hrest b hb
      · rename_i hover
        rcases List.mem_cons.mp hb with rfl | hb
        · intro hnil
          have hlen := List.drop_eq_nil_iff.mp hnil
          omega
        · exact hrest b hb

theorem fill_rx_kept {bus : FtsBus} (hroom : bus.rxbuf.length < ftsRxbufSize) :
    (fillRx bus).2.stats = bus.stats ∧ (fillRx bus).2.written = bus.written ∧
      (fillRx bus).2.echo = bus.echo := by
  simp only [fillRx, make_room_of_lt hroom]
  split
  · exact ⟨rfl, rfl, rfl⟩
  · exact ⟨rfl, rfl, rfl⟩
  · exact ⟨rfl, rfl, rfl⟩
  · exact ⟨rfl, rfl, rfl⟩
  · exact ⟨rfl, rfl, rfl⟩
  · exact ⟨rfl, rfl, rfl⟩
  · split
    · exact ⟨rfl, rfl, rfl⟩
    · exact ⟨rfl, rfl, rfl⟩

theorem fill_rx_prompt {bus : FtsBus} (hroom : bus.rxbuf.length < ftsRxbufSize)
    (hprompt : ∀ a ∈ bus.arrivals, Prompt a) (hmore : incoming bus.arrivals ≠ []) :
    ∃ next, fillRx bus = (.ok (), next) ∧ Continues bus next := by
  obtain ⟨next, hfill, hnext⟩ := fill_rx_goes hprompt hmore
  obtain ⟨hstats, hwritten, hecho⟩ := fill_rx_kept hroom
  rw [hfill] at hstats hwritten hecho
  exact ⟨next, hfill, fill_rx_stream_eq hfill hroom, hnext, hstats, hwritten, hecho⟩

/-- The next packet of the stream is in the buffer, or it is not yet whole. -/
theorem parse_next {buf rest more : List Byte} {pkt : FtsPacket} (hgood : WellFormed pkt)
    (hstream : buf ++ rest = packetBytes pkt ++ more) :
    (ftsParseStatus buf = (some (.ok pkt), pkt.data.length + 6) ∧
      buf.drop (pkt.data.length + 6) ++ rest = more) ∨
    ((ftsParseStatus buf).1 = none ∧ buf.length < pkt.data.length + 6) := by
  have hparse := @parse_build pkt.id pkt.error pkt.data hgood.1 hgood.2 more
  have hsize := length_packet_bytes hgood
  change ftsParseStatus (packetBytes pkt ++ more) = _ at hparse
  rw [← hstream] at hparse
  by_cases hwhole : pkt.data.length + 6 ≤ buf.length
  · left
    obtain ⟨tail, hbuf⟩ : packetBytes pkt <+: buf := by
      apply List.prefix_of_prefix_length_le (List.prefix_append _ more) _ (by omega)
      rw [← hstream]
      exact List.prefix_append _ _
    subst hbuf
    constructor
    · exact parse_build hgood.1 hgood.2 tail
    · rw [List.append_assoc] at hstream
      rw [← hsize, List.drop_left]
      exact List.append_cancel_left hstream
  · right
    refine ⟨?_, by omega⟩
    cases hbuf : ftsParseStatus buf with
    | mk a n =>
      cases a with
      | none => rfl
      | some e =>
        have hle := parse_consumed_le buf
        rw [parse_emit_append rest hbuf] at hparse
        rw [hbuf] at hle
        simp only [Prod.mk.injEq] at hparse hle
        omega

theorem room_of_short {bus : FtsBus} {pkt : FtsPacket} (hgood : WellFormed pkt)
    (hshort : bus.rxbuf.length < pkt.data.length + 6) :
    bus.rxbuf.length < ftsRxbufSize := by
  have hlen := hgood.2
  unfold ftsRxbufSize
  omega

theorem more_of_short {bus : FtsBus} {pkt : FtsPacket} {more : List Byte}
    (hgood : WellFormed pkt) (hstream : stream bus = packetBytes pkt ++ more)
    (hshort : bus.rxbuf.length < pkt.data.length + 6) : incoming bus.arrivals ≠ [] := by
  intro hnil
  have hlen := congrArg List.length hstream
  rw [stream, hnil, List.append_nil, List.length_append, length_packet_bytes hgood] at hlen
  omega

theorem rx_turn_prompt {bus : FtsBus} {expectId : Byte} {cap : ℕ}
    (hwait : (ftsParseStatus bus.rxbuf).1 = none) (hroom : bus.rxbuf.length < ftsRxbufSize)
    (hprompt : ∀ a ∈ bus.arrivals, Prompt a) (hmore : incoming bus.arrivals ≠ []) :
    ∃ next, rxTurn bus expectId cap = .inr next ∧ Continues bus next := by
  obtain ⟨next, hfill, hnext⟩ := fill_rx_prompt hroom hprompt hmore
  refine ⟨next, ?_, hnext⟩
  have hhead : bus.arrivals.head? ≠ some .expired := by
    intro h
    exact hprompt .expired (List.mem_of_head? h)
  rw [rx_turn_wait hwait, if_neg hhead, hfill]

structure Received (bus next : FtsBus) (pkt : FtsPacket) (more : List Byte) : Prop where
  stream : stream next = more
  prompt : ∀ a ∈ next.arrivals, Prompt a
  discarded : next.stats.bytesDiscarded = bus.stats.bytesDiscarded
  error : next.lastServoError = pkt.error
  written : next.written = bus.written
  echo : next.echo = bus.echo

theorem Received.of_continues {bus mid next : FtsBus} {pkt : FtsPacket} {more : List Byte}
    (h : Continues bus mid) (hnext : Received mid next pkt more) :
    Received bus next pkt more where
  stream := hnext.stream
  prompt := hnext.prompt
  discarded := by rw [hnext.discarded, h.stats]
  error := hnext.error
  written := by rw [hnext.written, h.written]
  echo := by rw [hnext.echo, h.echo]

/-- The next packet of a stream that comes without a pause is returned, and only its bytes
leave the stream. -/
theorem rx_status_received {bus : FtsBus} {pkt : FtsPacket} {more : List Byte} (cap : ℕ)
    (hgood : WellFormed pkt) (hstream : stream bus = packetBytes pkt ++ more)
    (hprompt : ∀ a ∈ bus.arrivals, Prompt a) :
    ∃ next, rxStatus bus pkt.id cap = (.ok (pkt.data.take cap), next) ∧
      Received bus next pkt more := by
  fun_induction rxStatus bus pkt.id cap with
  | case1 bus result h =>
    obtain ⟨hparse, hrest⟩ | ⟨hwait, hshort⟩ := parse_next hgood hstream
    · simp only [rxTurn, hparse, ne_eq, not_true, if_false, Nat.sub_self] at h
      cases h
      refine ⟨_, rfl, hrest, hprompt, ?_, rfl, rfl, rfl⟩
      simp [dropRx, FtsBus.discard]
    · obtain ⟨next, hgo, _⟩ := rx_turn_prompt hwait (room_of_short hgood hshort) hprompt
        (more_of_short hgood hstream hshort)
      rw [hgo] at h
      cases h
  | case2 bus mid h ih =>
    obtain ⟨hparse, _⟩ | ⟨hwait, hshort⟩ := parse_next hgood hstream
    · simp [rxTurn, hparse] at h
    · obtain ⟨next, hgo, hnext⟩ := rx_turn_prompt hwait (room_of_short hgood hshort) hprompt
        (more_of_short hgood hstream hshort)
      rw [hgo] at h
      cases h
      obtain ⟨last, hlast, hreceived⟩ := ih (hnext.stream.trans hstream) hnext.prompt
      exact ⟨last, hlast, hreceived.of_continues hnext⟩

end ReceiveLoop
