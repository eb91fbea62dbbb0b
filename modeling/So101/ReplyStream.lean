import So101.EchoMode

/-!
# What the receive loop is given

The bytes that arrive before a call has to give up, and the packets that the parser finds in
them through a window of the buffer's size. How the bytes are cut up makes no difference.
-/
namespace ReplyStream

open ServoBus (Byte)
open PacketCodec BusDriver ReceiveLoop

/-- The bytes that arrive before a wait or a read fails. -/
def heard : List Arrival → List Byte
  | .bytes bs :: rest => if bs = [] then [] else bs ++ heard rest
  | .pollInterrupted :: rest | .readInterrupted :: rest => heard rest
  | .expired :: _ | .silent :: _ | .pollFailed :: _ | [] => []

def ahead (bus : FtsBus) : List Byte := bus.rxbuf ++ heard bus.arrivals

/-- The first packet that the parser finds, and the bytes behind it. A full window without
one is thrown away if more bytes come. -/
def nextPacket (bytes : List Byte) : Option (FtsPacket × List Byte) :=
  match _h : ftsParseStatus (bytes.take ftsRxbufSize) with
  | (some (.ok pkt), n) => some (pkt, bytes.drop n)
  | (some (.error _), n) => nextPacket (bytes.drop n)
  | (none, _) =>
    if ftsRxbufSize < bytes.length then nextPacket (bytes.drop ftsRxbufSize) else none
termination_by bytes.length
decreasing_by
  · have hpos := parse_emit_pos _h
    have hle := parse_consumed_le (bytes.take ftsRxbufSize)
    rw [_h, List.length_take] at hle
    simp only at hle
    rw [List.length_drop]
    omega
  · rw [List.length_drop, ftsRxbufSize]
    omega

/-- The first `n` packets, one behind the other. -/
def packetsIn : ℕ → List Byte → List FtsPacket
  | 0, _ => []
  | n + 1, bytes =>
    match nextPacket bytes with
    | some (pkt, rest) => pkt :: packetsIn n rest
    | none => []

/-- What is heard after `n` echoed bytes, or after the wait for them has timed out. -/
def afterEcho : ℕ → List Arrival → Option (List Byte)
  | 0, arrivals => some (heard arrivals)
  | n + 1, .bytes bs :: rest =>
    if bs = [] then none
    else if n + 1 ≤ bs.length then some (bs.drop (n + 1) ++ heard rest)
    else afterEcho (n + 1 - bs.length) rest
  | n + 1, .pollInterrupted :: rest | n + 1, .readInterrupted :: rest => afterEcho (n + 1) rest
  | _ + 1, .expired :: rest | _ + 1, .silent :: rest => some (heard rest)
  | _ + 1, .pollFailed :: _ => none
  | _ + 1, [] => some []

/-- The bytes that are there for the replies to a request of `n` bytes, if it gets out. -/
def replyBytes (echo : Bool) (wire : Wire) (n : ℕ) : Option (List Byte) :=
  if wire.writeFailsAfter.isSome then none
  else if echo then afterEcho n wire.arrivals
  else some (heard wire.arrivals)

theorem packets_in_succ {n : ℕ} {bytes rest : List Byte} {pkt : FtsPacket}
    (h : nextPacket bytes = some (pkt, rest)) :
    packetsIn (n + 1) bytes = pkt :: packetsIn n rest := by
  rw [packetsIn, h]

theorem packets_in_none {bytes : List Byte} (n : ℕ) (h : nextPacket bytes = none) :
    packetsIn n bytes = [] := by
  cases n with
  | zero => rfl
  | succ n => rw [packetsIn, h]

section Windows

variable {buf more : List Byte} {n : ℕ}

theorem take_window (h : buf.length ≤ ftsRxbufSize) :
    (buf ++ more).take ftsRxbufSize = buf ++ more.take (ftsRxbufSize - buf.length) := by
  rw [List.take_append, List.take_of_length_le h]

theorem next_packet_of_ok {pkt : FtsPacket} (h : buf.length ≤ ftsRxbufSize)
    (hparse : ftsParseStatus buf = (some (.ok pkt), n)) (more : List Byte) :
    nextPacket (buf ++ more) = some (pkt, buf.drop n ++ more) := by
  have hle := parse_consumed_le buf
  rw [hparse] at hle
  have hwhole : ftsParseStatus ((buf ++ more).take ftsRxbufSize) = (some (.ok pkt), n) := by
    rw [take_window h]
    exact parse_emit_append _ hparse
  rw [nextPacket]
  split
  · rename_i hok
    rw [hwhole] at hok
    cases hok
    rw [List.drop_append_of_le_length hle]
  · rename_i herror
    rw [hwhole] at herror
    cases herror
  · rename_i hwait
    rw [hwhole] at hwait
    cases hwait

theorem next_packet_of_error {e : FtsError} (h : buf.length ≤ ftsRxbufSize)
    (hparse : ftsParseStatus buf = (some (.error e), n)) (more : List Byte) :
    nextPacket (buf ++ more) = nextPacket (buf.drop n ++ more) := by
  have hle := parse_consumed_le buf
  rw [hparse] at hle
  have hwhole : ftsParseStatus ((buf ++ more).take ftsRxbufSize) = (some (.error e), n) := by
    rw [take_window h]
    exact parse_emit_append _ hparse
  rw [nextPacket]
  split
  · rename_i hok
    rw [hwhole] at hok
    cases hok
  · rename_i herror
    rw [hwhole] at herror
    cases herror
    rw [List.drop_append_of_le_length hle]
  · rename_i hwait
    rw [hwhole] at hwait
    cases hwait

theorem next_packet_of_wait {bytes : List Byte}
    (hwait : (ftsParseStatus (bytes.take ftsRxbufSize)).1 = none) : nextPacket bytes =
      if ftsRxbufSize < bytes.length then nextPacket (bytes.drop ftsRxbufSize) else none := by
  obtain ⟨n, hparse⟩ := parse_with hwait
  rw [nextPacket]
  split
  · rename_i hok
    rw [hparse] at hok
    cases hok
  · rename_i herror
    rw [hparse] at herror
    cases herror
  · rfl

theorem next_packet_none (h : buf.length ≤ ftsRxbufSize)
    (hwait : (ftsParseStatus buf).1 = none) : nextPacket buf = none := by
  rw [next_packet_of_wait (by rwa [List.take_of_length_le h]), if_neg (not_lt.mpr h)]

theorem next_packet_full (h : buf.length = ftsRxbufSize) (hwait : (ftsParseStatus buf).1 = none)
    (more : List Byte) : nextPacket (buf ++ more) = nextPacket more := by
  have htake : (buf ++ more).take ftsRxbufSize = buf := by
    rw [← h]
    exact List.take_left
  have hdrop : (buf ++ more).drop ftsRxbufSize = more := by
    rw [← h]
    exact List.drop_left
  rw [next_packet_of_wait (by rwa [htake]), hdrop, List.length_append, h]
  split_ifs with hmore
  · rfl
  · obtain rfl : more = [] := List.eq_nil_of_length_eq_zero (by omega)
    exact (next_packet_none (Nat.zero_le _) (by rw [parse_nil])).symm

end Windows

section Turns

variable {bus next : FtsBus} {expectId : Byte} {cap : ℕ}

theorem heard_read (bs : List Byte) (room : ℕ) (rest : List Arrival) :
    bs.take room ++
        heard (if bs.length ≤ room then rest else .bytes (bs.drop room) :: rest) =
      bs ++ heard rest := by
  by_cases hfits : bs.length ≤ room
  · rw [if_pos hfits, List.take_of_length_le hfits]
  · have hleft : bs.drop room ≠ [] := fun hnil => hfits (List.drop_eq_nil_iff.mp hnil)
    rw [if_neg hfits, heard, if_neg hleft, ← List.append_assoc, List.take_append_drop]

theorem make_room_le (h : bus.rxbuf.length ≤ ftsRxbufSize) :
    (makeRoom bus).rxbuf = bus.rxbuf ∧ bus.rxbuf.length < ftsRxbufSize ∨
      (makeRoom bus).rxbuf = [] ∧ bus.rxbuf.length = ftsRxbufSize := by
  by_cases hfull : bus.rxbuf.length ≥ ftsRxbufSize
  · right
    rw [makeRoom, if_pos hfull]
    exact ⟨rfl, le_antisymm h hfull⟩
  · left
    rw [makeRoom, if_neg hfull]
    exact ⟨rfl, not_le.mp hfull⟩

theorem fill_rx_ahead (h : bus.rxbuf.length ≤ ftsRxbufSize)
    (hwait : (ftsParseStatus bus.rxbuf).1 = none) (hfill : fillRx bus = (.ok (), next)) :
    next.rxbuf.length ≤ ftsRxbufSize ∧ nextPacket (ahead next) = nextPacket (ahead bus) := by
  have hdropped : ∀ more, nextPacket ((makeRoom bus).rxbuf ++ more) =
      nextPacket (bus.rxbuf ++ more) := by
    intro more
    rcases make_room_le h with ⟨hsame, _⟩ | ⟨hnone, hfull⟩
    · rw [hsame]
    · rw [hnone, next_packet_full hfull hwait]
      rfl
  have hroom := make_room_lt bus
  unfold fillRx at hfill
  split at hfill
  · cases hfill
  · cases hfill
  · cases hfill
  · rename_i rest heq
    cases hfill
    exact ⟨h, by rw [ahead, ahead, heq, heard]⟩
  · cases hfill
  · rename_i rest heq
    cases hfill
    refine ⟨hroom.le, ?_⟩
    rw [ahead, ahead, heq, heard]
    exact hdropped _
  · rename_i bs rest heq
    simp only at hfill
    split at hfill
    · cases hfill
    · rename_i hbs
      cases hfill
      constructor
      · rw [List.length_append, List.length_take]
        omega
      · rw [ahead, ahead, heq, heard, if_neg hbs, List.append_assoc, heard_read]
        exact hdropped _

theorem fill_rx_failed {e : FtsError} (hfill : fillRx bus = (.error e, next)) :
    heard bus.arrivals = [] := by
  unfold fillRx at hfill
  split at hfill
  · rename_i heq
    rw [heq, heard]
  · rename_i heq
    rw [heq, heard]
  · rename_i heq
    rw [heq, heard]
  · cases hfill
  · rename_i heq
    rw [heq, heard]
  · cases hfill
  · rename_i bs rest heq
    simp only at hfill
    split at hfill
    · rename_i hbs
      rw [heq, heard, if_pos hbs]
    · cases hfill

/-- A turn of the loop leaves the next packet where it is. -/
theorem rx_turn_ahead (h : bus.rxbuf.length ≤ ftsRxbufSize)
    (hturn : rxTurn bus expectId cap = .inr next) :
    next.rxbuf.length ≤ ftsRxbufSize ∧ nextPacket (ahead next) = nextPacket (ahead bus) := by
  unfold rxTurn at hturn
  split at hturn
  · simp only at hturn
    split at hturn
    · cases hturn
    · cases hturn
  · rename_i e n hparse
    cases hturn
    constructor
    · rw [skip_corrupt_rxbuf, List.length_drop]
      omega
    · rw [ahead, ahead, skip_corrupt_rxbuf, skip_corrupt_arrivals]
      exact (next_packet_of_error h hparse _).symm
  · rename_i n hparse
    split at hturn
    · cases hturn
    · split at hturn
      · rename_i hfill
        cases hturn
        exact fill_rx_ahead h (by rw [hparse]) hfill
      · cases hturn
      · cases hturn

/-- The call returns what the next packet says, or an error where there is none. -/
def Tells (expectId : Byte) (cap : ℕ) (found : Option (FtsPacket × List Byte)) (r : RxResult) :
    Prop :=
  match found with
  | some (pkt, rest) =>
    r.1 = (if pkt.id = expectId then .ok (pkt.data.take cap) else .error .id) ∧
      ahead r.2 = rest ∧ r.2.rxbuf.length ≤ ftsRxbufSize
  | none => ∃ e, r.1 = .error e

theorem next_packet_of_end {r : RxResult} (h : bus.rxbuf.length ≤ ftsRxbufSize)
    (hnone : ∀ pkt, (ftsParseStatus bus.rxbuf).1 ≠ some (.ok pkt))
    (hturn : rxTurn bus expectId cap = .inl r) :
    nextPacket (ahead bus) = none ∧ ∃ e, r.1 = .error e := by
  have hlate : (ftsParseStatus bus.rxbuf).1 = none → heard bus.arrivals = [] →
      nextPacket (ahead bus) = none := by
    intro hwait hquiet
    rw [ahead, hquiet, List.append_nil, next_packet_none h hwait]
  unfold rxTurn at hturn
  split at hturn
  · rename_i pkt n hparse
    exact absurd (by rw [hparse]) (hnone pkt)
  · cases hturn
  · rename_i n hparse
    have hwait : (ftsParseStatus bus.rxbuf).1 = none := by rw [hparse]
    split at hturn
    · rename_i hexpired
      cases hturn
      obtain ⟨rest, heq⟩ := List.head?_eq_some_iff.mp hexpired
      exact ⟨hlate hwait (by rw [heq, heard]), .timeout, rfl⟩
    · split at hturn
      · cases hturn
      · rename_i hfill
        cases hturn
        exact ⟨hlate hwait (fill_rx_failed hfill), .timeout, rfl⟩
      · rename_i hfill
        cases hturn
        exact ⟨hlate hwait (fill_rx_failed hfill), _, rfl⟩

theorem rx_turn_tells {r : RxResult} (h : bus.rxbuf.length ≤ ftsRxbufSize)
    (hturn : rxTurn bus expectId cap = .inl r) :
    Tells expectId cap (nextPacket (ahead bus)) r := by
  by_cases hok : ∃ pkt, (ftsParseStatus bus.rxbuf).1 = some (.ok pkt)
  · obtain ⟨pkt, hpkt⟩ := hok
    obtain ⟨n, hparse⟩ := parse_with hpkt
    have hkept : (bus.rxbuf.drop n).length ≤ ftsRxbufSize := by
      rw [List.length_drop]
      omega
    rw [ahead, next_packet_of_ok h hparse]
    simp only [rxTurn, hparse] at hturn
    by_cases hid : pkt.id = expectId
    · rw [if_neg (not_not.mpr hid)] at hturn
      cases hturn
      exact ⟨(if_pos hid).symm, rfl, hkept⟩
    · rw [if_pos hid] at hturn
      cases hturn
      exact ⟨(if_neg hid).symm, rfl, hkept⟩
  · obtain ⟨hnone, herror⟩ := next_packet_of_end h (fun pkt hpkt => hok ⟨pkt, hpkt⟩) hturn
    rw [hnone]
    exact herror

theorem rx_status_tells (h : bus.rxbuf.length ≤ ftsRxbufSize) :
    Tells expectId cap (nextPacket (ahead bus)) (rxStatus bus expectId cap) := by
  fun_induction rxStatus bus expectId cap with
  | case1 bus r hturn => exact rx_turn_tells h hturn
  | case2 bus mid hturn ih =>
    obtain ⟨hmid, hahead⟩ := rx_turn_ahead h hturn
    rw [← hahead]
    exact ih hmid

end Turns

section Echo

variable {bus next : FtsBus} {len : ℕ}

def echoLeft (len : ℕ) (bus : FtsBus) : Option (List Byte) :=
  (afterEcho (len - bus.rxbuf.length) bus.arrivals).map (bus.rxbuf.drop len ++ ·)

theorem echo_left_fill (hlen : len ≤ ftsRxbufSize) (hshort : bus.rxbuf.length < len)
    (hfill : fillRx bus = (.ok (), next)) :
    next.rxbuf.length ≤ ftsRxbufSize ∧ echoLeft len next = echoLeft len bus := by
  have hroom : makeRoom bus = bus := make_room_of_lt (hshort.trans_le hlen)
  obtain ⟨n, hn⟩ : ∃ n, len - bus.rxbuf.length = n + 1 :=
    Nat.exists_eq_succ_of_ne_zero (by omega)
  have hdrop : bus.rxbuf.drop len = [] := List.drop_eq_nil_of_le hshort.le
  unfold fillRx at hfill
  split at hfill
  · cases hfill
  · cases hfill
  · cases hfill
  · rename_i rest heq
    cases hfill
    refine ⟨(hshort.trans_le hlen).le, ?_⟩
    simp only [echoLeft, heq, hn, afterEcho]
  · cases hfill
  · rename_i rest heq
    cases hfill
    rw [hroom]
    refine ⟨(hshort.trans_le hlen).le, ?_⟩
    simp only [echoLeft, heq, hn, afterEcho]
  · rename_i bs rest heq
    simp only [hroom] at hfill
    split at hfill
    · cases hfill
    · rename_i hbs
      cases hfill
      refine ⟨by rw [List.length_append, List.length_take]; omega, ?_⟩
      simp only [echoLeft, heq, hn, afterEcho, if_neg hbs, hdrop, List.nil_append,
        List.length_append, List.length_take]
      by_cases hwhole : n + 1 ≤ bs.length
      · -- the echo is complete; what was read beyond it stays in the buffer
        have hdone : len - (bus.rxbuf.length +
            min (ftsRxbufSize - bus.rxbuf.length) bs.length) = 0 := by omega
        have hleft : (bus.rxbuf ++ bs.take (ftsRxbufSize - bus.rxbuf.length)).drop len =
            (bs.take (ftsRxbufSize - bus.rxbuf.length)).drop (n + 1) := by
          rw [List.drop_append, hdrop, List.nil_append, hn]
        have hread := congrArg (List.drop (n + 1))
          (heard_read bs (ftsRxbufSize - bus.rxbuf.length) rest)
        rw [List.drop_append_of_le_length (by rw [List.length_take]; omega),
          List.drop_append_of_le_length hwhole] at hread
        rw [hdone, if_pos hwhole, afterEcho, hleft, Option.map_some, hread, Option.map_some]
      · have hfits : bs.length ≤ ftsRxbufSize - bus.rxbuf.length := by omega
        have hmore : len - (bus.rxbuf.length +
            min (ftsRxbufSize - bus.rxbuf.length) bs.length) = n + 1 - bs.length := by omega
        have hnone : (bus.rxbuf ++ bs.take (ftsRxbufSize - bus.rxbuf.length)).drop len = [] := by
          apply List.drop_eq_nil_of_le
          rw [List.length_append, List.length_take]
          omega
        rw [hmore, if_neg hwhole, if_pos hfits, hnone]
        rfl

/-- The request is out and the echo is gone, or the request has failed. -/
def Leaves (left : Option (List Byte)) (r : Rc × FtsBus) : Prop :=
  match left with
  | some bytes => r.1 = .ok () ∧ ahead r.2 = bytes ∧ r.2.rxbuf.length ≤ ftsRxbufSize
  | none => ∃ e, r.1 = .error e

theorem echo_left_timeout (hshort : bus.rxbuf.length < len)
    (hfill : fillRx bus = (.error .timeout, next)) :
    echoLeft len bus = some (heard next.arrivals) ∧ next.rxbuf = bus.rxbuf := by
  obtain ⟨n, hn⟩ : ∃ n, len - bus.rxbuf.length = n + 1 :=
    Nat.exists_eq_succ_of_ne_zero (by omega)
  have hdrop : bus.rxbuf.drop len = [] := List.drop_eq_nil_of_le hshort.le
  unfold fillRx at hfill
  split at hfill
  · rename_i heq
    cases hfill
    simp [echoLeft, heq, hn, afterEcho, hdrop, heard]
  · rename_i heq
    cases hfill
    simp [echoLeft, heq, hn, afterEcho, hdrop]
  · rename_i heq
    cases hfill
    simp [echoLeft, heq, hn, afterEcho, hdrop]
  · cases hfill
  · cases hfill
  · cases hfill
  · simp only at hfill
    split at hfill
    · cases hfill
    · cases hfill

theorem echo_left_failed (hshort : bus.rxbuf.length < len) {e : FtsError} (he : e ≠ .timeout)
    (hfill : fillRx bus = (.error e, next)) : echoLeft len bus = none := by
  obtain ⟨n, hn⟩ : ∃ n, len - bus.rxbuf.length = n + 1 :=
    Nat.exists_eq_succ_of_ne_zero (by omega)
  unfold fillRx at hfill
  split at hfill
  · cases hfill
    exact absurd rfl he
  · cases hfill
    exact absurd rfl he
  · cases hfill
    exact absurd rfl he
  · cases hfill
  · rename_i heq
    simp [echoLeft, heq, hn, afterEcho]
  · cases hfill
  · rename_i bs rest heq
    simp only at hfill
    split at hfill
    · rename_i hbs
      simp [echoLeft, heq, hn, afterEcho, hbs]
    · cases hfill

theorem swallow_echo_leaves (hlen : len ≤ ftsRxbufSize) (h : bus.rxbuf.length ≤ ftsRxbufSize) :
    Leaves (echoLeft len bus) (swallowEcho len bus) := by
  fun_induction swallowEcho len bus with
  | case1 bus hshort mid hfill ih =>
    obtain ⟨hmid, hleft⟩ := echo_left_fill hlen hshort hfill
    rw [← hleft]
    exact ih hmid
  | case2 bus hshort mid hfill =>
    obtain ⟨hleft, hkept⟩ := echo_left_timeout hshort hfill
    rw [hleft]
    have hnone : (dropRx mid len).rxbuf = [] := by
      rw [dropRx, hkept]
      exact List.drop_eq_nil_of_le hshort.le
    refine ⟨rfl, ?_, ?_⟩
    · rw [ahead, hnone]
      rfl
    · rw [hnone]
      exact Nat.zero_le _
  | case3 bus hshort e mid he hfill =>
    rw [echo_left_failed hshort he hfill]
    exact ⟨e, rfl⟩
  | case4 bus hlong =>
    have hzero : len - bus.rxbuf.length = 0 := by omega
    rw [echoLeft, hzero, afterEcho]
    refine ⟨rfl, rfl, ?_⟩
    rw [dropRx, List.length_drop]
    omega

theorem tx_packet_leaves (bus : FtsBus) (wire : Wire) {pkt : List Byte}
    (hlen : pkt.length ≤ ftsRxbufSize) :
    Leaves (replyBytes bus.echo wire pkt.length) (txPacket bus wire pkt) := by
  cases hwrite : wire.writeFailsAfter with
  | some k =>
    rw [replyBytes, txPacket, hwrite]
    exact ⟨.io, rfl⟩
  | none =>
    let sent : FtsBus := { bus with
      arrivals := wire.arrivals
      rxbuf := []
      written := bus.written ++ pkt
      stats := { bus.stats with txPackets := bus.stats.txPackets + 1 } }
    have hsent : txPacket bus wire pkt =
        if bus.echo then swallowEcho pkt.length sent else (.ok (), sent) := by
      simp only [txPacket, writeAll, hwrite]
      rfl
    have hleft : echoLeft pkt.length sent = afterEcho pkt.length wire.arrivals := by
      have hid : ((([] : List Byte).drop pkt.length) ++ ·) = id := by
        funext bytes
        simp
      change (afterEcho pkt.length wire.arrivals).map ((([] : List Byte).drop pkt.length) ++ ·) = _
      rw [hid, Option.map_id]
      rfl
    rw [hsent, replyBytes, hwrite]
    cases bus.echo with
    | true =>
      have hgone : Leaves (echoLeft pkt.length sent) (swallowEcho pkt.length sent) :=
        swallow_echo_leaves hlen (Nat.zero_le _)
      rw [hleft] at hgone
      exact hgone
    | false => exact ⟨rfl, rfl, Nat.zero_le _⟩

end Echo

end ReplyStream
