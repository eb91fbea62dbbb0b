import So101.ReceiveLoop

/-!
# Echo mode

As long as everything that arrives fits into the buffer, the receive loop answers with what
the parser makes of the whole stream. The echo is taken from its front, so both modes see
the same stream.
-/
namespace EchoMode

open ServoBus (Byte)
open ByteRange PacketCodec BusDriver ReceiveLoop

/-- The bytes arrive, cut up and interrupted in any way, before the line falls silent. -/
def Delivers : List Arrival → List Byte → Prop
  | [], s => s = []
  | .expired :: _, s => s = []
  | .silent :: _, s => s = []
  | .pollInterrupted :: rest, s => Delivers rest s
  | .pollFailed :: _, _ => False
  | .readInterrupted :: rest, s => Delivers rest s
  | .bytes bs :: rest, s => bs ≠ [] ∧ ∃ more, s = bs ++ more ∧ Delivers rest more

def Holds (bus : FtsBus) (s : List Byte) : Prop :=
  ∃ more, bus.rxbuf ++ more = s ∧ Delivers bus.arrivals more ∧ s.length ≤ ftsRxbufSize

structure Reads (bus next : FtsBus) (s : List Byte) : Prop where
  holds : Holds next s
  error : next.lastServoError = bus.lastServoError

theorem fill_rx_delivers {bus : FtsBus} {more : List Byte} (hmore : more ≠ [])
    (harr : Delivers bus.arrivals more) (hfits : (bus.rxbuf ++ more).length ≤ ftsRxbufSize) :
    ∃ next, fillRx bus = (.ok (), next) ∧ Reads bus next (bus.rxbuf ++ more) := by
  have hlen := List.length_pos_iff.mpr hmore
  rw [List.length_append] at hfits
  have hroom : makeRoom bus = bus := make_room_of_lt (by omega)
  rw [← List.length_append] at hfits
  cases harrivals : bus.arrivals with
  | nil =>
    rw [harrivals] at harr
    exact absurd harr hmore
  | cons a rest =>
    rw [harrivals] at harr
    cases a with
    | expired => exact absurd harr hmore
    | silent => exact absurd harr hmore
    | pollFailed => exact harr.elim
    | pollInterrupted =>
      refine ⟨{ bus with arrivals := rest }, ?_, ⟨more, rfl, harr, hfits⟩, rfl⟩
      simp [fillRx, harrivals]
    | readInterrupted =>
      refine ⟨{ bus with arrivals := rest }, ?_, ⟨more, rfl, harr, hfits⟩, rfl⟩
      simp [fillRx, harrivals, hroom]
    | bytes bs =>
      obtain ⟨hbs, later, rfl, hlater⟩ := harr
      have hwhole : bs.length ≤ ftsRxbufSize - bus.rxbuf.length := by
        simp only [List.length_append] at hfits
        omega
      refine ⟨{ bus with rxbuf := bus.rxbuf ++ bs, arrivals := rest }, ?_,
        ⟨later, List.append_assoc _ _ _, hlater, hfits⟩, rfl⟩
      simp [fillRx, harrivals, hroom, hbs, hwhole, List.take_of_length_le hwhole]

def nextPacket (s : List Byte) : Option (FtsPacket × List Byte) :=
  match _h : ftsParseStatus s with
  | (some (.ok pkt), n) => some (pkt, s.drop n)
  | (some (.error _), n) => nextPacket (s.drop n)
  | (none, _) => none
termination_by s.length
decreasing_by
  have hpos := parse_emit_pos _h
  have hle := parse_consumed_le s
  rw [_h] at hle
  simp only at hle
  rw [List.length_drop]
  omega

theorem next_packet_ok {s : List Byte} {pkt : FtsPacket} {n : ℕ}
    (h : ftsParseStatus s = (some (.ok pkt), n)) : nextPacket s = some (pkt, s.drop n) := by
  rw [nextPacket]
  split <;> simp_all

theorem next_packet_error {s : List Byte} {e : FtsError} {n : ℕ}
    (h : ftsParseStatus s = (some (.error e), n)) : nextPacket s = nextPacket (s.drop n) := by
  rw [nextPacket]
  split <;> simp_all

theorem next_packet_none {s : List Byte} (h : (ftsParseStatus s).1 = none) :
    nextPacket s = none := by
  rw [nextPacket]
  split <;> simp_all

/-- The result for the caller, the error byte kept and the stream left. -/
def answer (s : List Byte) (error expectId : Byte) (cap : ℕ) :
    Except FtsError (List Byte) × Byte × List Byte :=
  match nextPacket s with
  | some (pkt, rest) =>
    if pkt.id = expectId then (.ok (pkt.data.take cap), pkt.error, rest)
    else (.error .id, error, rest)
  | none => (.error .timeout, error, [])

theorem make_room_waits {bus : FtsBus} (h : (ftsParseStatus bus.rxbuf).1 = none) :
    (ftsParseStatus (makeRoom bus).rxbuf).1 = none ∧
      (makeRoom bus).lastServoError = bus.lastServoError := by
  unfold makeRoom
  split
  · exact ⟨congrArg Prod.fst parse_nil, rfl⟩
  · exact ⟨h, rfl⟩

theorem rx_status_silent {bus : FtsBus} (hwait : (ftsParseStatus bus.rxbuf).1 = none)
    (hsilent : Delivers bus.arrivals []) (expectId : Byte) (cap : ℕ) :
    (rxStatus bus expectId cap).1 = .error .timeout ∧
      (rxStatus bus expectId cap).2.lastServoError = bus.lastServoError := by
  have hturn := rx_turn_wait hwait expectId cap
  induction harr : bus.arrivals generalizing bus with
  | nil =>
    simp only [harr, fillRx, List.head?_nil, reduceCtorEq, if_false] at hturn
    rw [rx_status_of_end hturn]
    exact ⟨rfl, rfl⟩
  | cons a rest ih =>
    rw [harr] at hsilent
    cases a with
    | expired =>
      simp only [harr, List.head?_cons, if_true] at hturn
      rw [rx_status_of_end hturn]
      exact ⟨rfl, rfl⟩
    | silent =>
      simp only [harr, fillRx, List.head?_cons, Option.some.injEq, reduceCtorEq, if_false] at hturn
      rw [rx_status_of_end hturn]
      exact ⟨rfl, rfl⟩
    | pollFailed => exact hsilent.elim
    | pollInterrupted =>
      simp only [harr, fillRx, List.head?_cons, Option.some.injEq, reduceCtorEq, if_false] at hturn
      rw [rx_status_of_turn hturn]
      exact ih hwait hsilent (rx_turn_wait (by exact hwait) expectId cap) rfl
    | readInterrupted =>
      obtain ⟨hroom, herror⟩ := make_room_waits hwait
      simp only [harr, fillRx, List.head?_cons, Option.some.injEq, reduceCtorEq, if_false] at hturn
      rw [rx_status_of_turn hturn, ← herror]
      exact ih hroom hsilent (rx_turn_wait (by exact hroom) expectId cap) rfl
    | bytes bs =>
      obtain ⟨hbs, more, hnil, _⟩ := hsilent
      exact absurd (List.append_eq_nil_iff.mp hnil.symm).1 hbs

/-- The result, the error byte and the stream left are those of the stream. -/
structure Answers (r : RxResult) (a : Except FtsError (List Byte) × Byte × List Byte) : Prop where
  result : r.1 = a.1
  error : r.2.lastServoError = a.2.1
  rest : a.1 ≠ .error .timeout → Holds r.2 a.2.2

theorem answer_packet {s : List Byte} {pkt : FtsPacket} {rest : List Byte}
    (h : nextPacket s = some (pkt, rest)) (error expectId : Byte) (cap : ℕ) :
    answer s error expectId cap =
      if pkt.id = expectId then (.ok (pkt.data.take cap), pkt.error, rest)
      else (.error .id, error, rest) := by
  rw [answer, h]

/-- What a turn does to the stream: it ends with the packet in front, goes on with the same
packet to find, or has all there is and waits. -/
inductive TurnOn (s : List Byte) (expectId : Byte) (cap : ℕ) (bus : FtsBus) : Prop where
  | done (r : RxResult) (hturn : rxTurn bus expectId cap = .inl r)
      (h : Answers r (answer s bus.lastServoError expectId cap))
  | further (next : FtsBus) (s' : List Byte) (hturn : rxTurn bus expectId cap = .inr next)
      (h : Reads bus next s') (hsame : nextPacket s' = nextPacket s)
  | waits (hs : bus.rxbuf = s) (hwait : (ftsParseStatus s).1 = none)
      (hsilent : Delivers bus.arrivals [])

theorem turn_on {bus : FtsBus} {s : List Byte} (h : Holds bus s) (expectId : Byte) (cap : ℕ) :
    TurnOn s expectId cap bus := by
  obtain ⟨more, rfl, harr, hfits⟩ := h
  have hle := parse_consumed_le bus.rxbuf
  cases hparse : ftsParseStatus bus.rxbuf with
  | mk e n =>
    rw [hparse] at hle
    have hdrop : bus.rxbuf.drop n ++ more = (bus.rxbuf ++ more).drop n :=
      (List.drop_append_of_le_length hle).symm
    have hrest : ((bus.rxbuf ++ more).drop n).length ≤ ftsRxbufSize := by
      rw [List.length_drop]
      omega
    rcases e with _ | e | pkt
    · have hwait : (ftsParseStatus bus.rxbuf).1 = none := by rw [hparse]
      by_cases hmore : more = []
      · subst hmore
        apply TurnOn.waits (List.append_nil _).symm _ harr
        rwa [List.append_nil]
      · obtain ⟨next, hfill, hreads⟩ := fill_rx_delivers hmore harr hfits
        have hhead : bus.arrivals.head? ≠ some .expired := by
          intro hexpired
          obtain ⟨rest, hrest⟩ := List.head?_eq_some_iff.mp hexpired
          rw [hrest] at harr
          exact hmore harr
        apply TurnOn.further next _ _ hreads rfl
        rw [rx_turn_wait hwait, if_neg hhead, hfill]
    · apply TurnOn.further (skipCorrupt bus e n) ((bus.rxbuf ++ more).drop n)
      · rw [rxTurn, hparse]
      · refine ⟨⟨more, ?_, ?_, hrest⟩, ?_⟩
        · rw [skip_corrupt_rxbuf, hdrop]
        · rwa [skip_corrupt_arrivals]
        · unfold skipCorrupt
          split <;> rfl
      · exact (next_packet_error (parse_emit_append more hparse)).symm
    · have hnext := next_packet_ok (parse_emit_append more hparse)
      by_cases hid : pkt.id = expectId
      · apply TurnOn.done
        · rw [rxTurn, hparse]
          simp only [hid, ne_eq, not_true, if_false]
          rfl
        · rw [answer_packet hnext, if_pos hid]
          exact ⟨rfl, rfl, fun _ => ⟨more, hdrop, harr, hrest⟩⟩
      · apply TurnOn.done
        · rw [rxTurn, hparse]
          simp only [hid, ne_eq, not_false_eq_true, if_true]
          rfl
        · rw [answer_packet hnext, if_neg hid]
          exact ⟨rfl, rfl, fun _ => ⟨more, hdrop, harr, hrest⟩⟩

/-- The loop answers with what the parser makes of the stream. -/
theorem rx_status_answer {bus : FtsBus} {s : List Byte} (h : Holds bus s) (expectId : Byte)
    (cap : ℕ) :
    Answers (rxStatus bus expectId cap) (answer s bus.lastServoError expectId cap) := by
  fun_induction rxStatus bus expectId cap generalizing s with
  | case1 bus r hend =>
    cases turn_on h expectId cap with
    | done r' hturn hanswers =>
      rw [hend] at hturn
      cases hturn
      exact hanswers
    | further next s' hturn _ _ =>
      rw [hend] at hturn
      cases hturn
    | waits hs hwait hsilent =>
      obtain ⟨hrc, herror⟩ := rx_status_silent (by rwa [hs]) hsilent expectId cap
      rw [rx_status_of_end hend] at hrc herror
      rw [answer, next_packet_none hwait]
      exact ⟨hrc, herror, fun hno => absurd rfl hno⟩
  | case2 bus next hgo ih =>
    cases turn_on h expectId cap with
    | done r hturn _ =>
      rw [hgo] at hturn
      cases hturn
    | further next' s' hturn hreads hsame =>
      rw [hgo] at hturn
      cases hturn
      have hanswers := ih hreads.holds
      rw [answer, hsame, hreads.error] at hanswers
      exact hanswers
    | waits hs hwait hsilent =>
      obtain ⟨hrc, herror⟩ := rx_status_silent (by rwa [hs]) hsilent expectId cap
      rw [rx_status_of_turn hgo] at hrc herror
      rw [answer, next_packet_none hwait]
      exact ⟨hrc, herror, fun hno => absurd rfl hno⟩

def Alike (b₁ b₂ : FtsBus) : Prop :=
  b₁.lastServoError = b₂.lastServoError ∧ ∃ s, Holds b₁ s ∧ Holds b₂ s

theorem rx_status_alike {b₁ b₂ : FtsBus} (h : Alike b₁ b₂) (expectId : Byte) (cap : ℕ) :
    (rxStatus b₁ expectId cap).1 = (rxStatus b₂ expectId cap).1 ∧
      (rxStatus b₁ expectId cap).2.lastServoError = (rxStatus b₂ expectId cap).2.lastServoError ∧
      ((rxStatus b₁ expectId cap).1 ≠ .error .timeout →
        Alike (rxStatus b₁ expectId cap).2 (rxStatus b₂ expectId cap).2) := by
  obtain ⟨herror, s, hs₁, hs₂⟩ := h
  have h₁ := rx_status_answer hs₁ expectId cap
  have h₂ := rx_status_answer hs₂ expectId cap
  rw [← herror] at h₂
  have hlast := h₁.error.trans h₂.error.symm
  refine ⟨h₁.result.trans h₂.result.symm, hlast, fun hno => ?_⟩
  rw [h₁.result] at hno
  exact ⟨hlast, _, h₁.rest hno, h₂.rest hno⟩

theorem sync_read_loop_alike {b₁ b₂ : FtsBus} (h : Alike b₁ b₂) (len : ℕ) (ids : List Byte)
    (k : ℕ) (out : List Byte) (firstErr : Option FtsError) :
    let r₁ := syncReadLoop len ids k b₁ out firstErr
    let r₂ := syncReadLoop len ids k b₂ out firstErr
    r₁.1 = r₂.1 ∧ r₁.2.2 = r₂.2.2 ∧ r₁.2.1.lastServoError = r₂.2.1.lastServoError := by
  induction ids generalizing k b₁ b₂ out firstErr with
  | nil => exact ⟨rfl, rfl, h.1⟩
  | cons id ids ih =>
    obtain ⟨hrc, herror, hnext⟩ := rx_status_alike h id len
    unfold syncReadLoop
    cases h₁ : rxStatus b₁ id len with
    | mk rc₁ n₁ =>
      cases h₂ : rxStatus b₂ id len with
      | mk rc₂ n₂ =>
        rw [h₁, h₂] at hrc herror hnext
        obtain rfl : rc₁ = rc₂ := hrc
        rcases rc₁ with e | got
        · by_cases htimeout : e = .timeout
          · simp only [if_pos htimeout, true_and]
            exact herror
          · simp only [if_neg htimeout]
            exact ih (hnext (by simpa using htimeout)) _ _ _
        · exact ih (hnext (by simp)) _ _ _

theorem fill_rx_echo {bus : FtsBus} {sent reply : List Byte} (h : Holds bus (sent ++ reply))
    (hshort : bus.rxbuf.length < sent.length) :
    ∃ next, fillRx bus = (.ok (), next) ∧ Reads bus next (sent ++ reply) := by
  obtain ⟨more, hs, harr, hfits⟩ := h
  rw [← hs] at hfits ⊢
  apply fill_rx_delivers _ harr hfits
  intro hmore
  have hlen := congrArg List.length hs
  rw [hmore, List.append_nil, List.length_append] at hlen
  omega

theorem swallow_echo {bus : FtsBus} {sent reply : List Byte} (h : Holds bus (sent ++ reply)) :
    ∃ next, swallowEcho sent.length bus = (.ok (), next) ∧ Reads bus next reply := by
  fun_induction swallowEcho sent.length bus with
  | case1 bus hshort next hfill ih =>
    obtain ⟨next', hfill', hreads⟩ := fill_rx_echo h hshort
    rw [hfill] at hfill'
    cases hfill'
    obtain ⟨last, hlast, hreads'⟩ := ih hreads.holds
    exact ⟨last, hlast, hreads'.holds, hreads'.error.trans hreads.error⟩
  | case2 bus hshort next hfill =>
    obtain ⟨next', hfill', _⟩ := fill_rx_echo h hshort
    rw [hfill] at hfill'
    cases hfill'
  | case3 bus hshort e next hne hfill =>
    obtain ⟨next', hfill', _⟩ := fill_rx_echo h hshort
    rw [hfill] at hfill'
    cases hfill'
  | case4 bus hwhole =>
    obtain ⟨more, hs, harr, hfits⟩ := h
    refine ⟨dropRx bus sent.length, rfl, ⟨more, ?_, harr, ?_⟩, rfl⟩
    · have hdrop := congrArg (List.drop sent.length) hs
      rwa [List.drop_append_of_le_length (not_lt.mp hwhole), List.drop_left] at hdrop
    · rw [List.length_append] at hfits
      omega

/-- What has to be true of the line for the request `sent` and its `reply`. -/
structure Answered (bus : FtsBus) (wire : Wire) (sent reply : List Byte) : Prop where
  written : wire.writeFailsAfter = none
  arrives : Delivers wire.arrivals (if bus.echo then sent ++ reply else reply)
  fits : sent.length + reply.length ≤ ftsRxbufSize

theorem tx_packet_holds {bus : FtsBus} {wire : Wire} {sent reply : List Byte}
    (h : Answered bus wire sent reply) :
    ∃ next, txPacket bus wire sent = (.ok (), next) ∧ Reads bus next reply := by
  obtain ⟨hwritten, harr, hfits⟩ := h
  cases hecho : bus.echo with
  | true =>
    rw [hecho, if_pos rfl] at harr
    have hholds : Holds
        { bus with
          arrivals := wire.arrivals
          rxbuf := []
          written := bus.written ++ sent
          stats := { bus.stats with txPackets := bus.stats.txPackets + 1 } } (sent ++ reply) :=
      ⟨sent ++ reply, rfl, harr, by rwa [List.length_append]⟩
    obtain ⟨next, hswallow, hreads⟩ := swallow_echo hholds
    refine ⟨next, ?_, hreads.holds, hreads.error⟩
    simp only [txPacket, writeAll, hwritten]
    rw [← hswallow, if_pos hecho]
  | false =>
    rw [hecho] at harr
    refine ⟨{ bus with
        arrivals := wire.arrivals
        rxbuf := []
        written := bus.written ++ sent
        stats := { bus.stats with txPackets := bus.stats.txPackets + 1 } },
      ?_, ⟨reply, rfl, harr, by omega⟩, rfl⟩
    simp only [txPacket, writeAll, hwritten]
    rw [if_neg (by simp [hecho])]

inductive Request where
  | ping (id : Byte)
  | read (id addr len : Byte)
  | write (id addr : Byte) (data : List Byte)
  | syncRead (ids : List Byte) (addr len : Byte)

def Request.packet : Request → List Byte
  | .ping id => ftsBuildPacket id ftsInstPing []
  | .read id addr len => ftsBuildPacket id ftsInstRead [addr, len]
  | .write id addr data => ftsBuildPacket id ftsInstWrite (addr :: data)
  | .syncRead ids addr len => syncReadPacket ids addr len

def Request.perform (bus : FtsBus) (wire : Wire) (out : List Byte) :
    Request → Rc × FtsBus × List Byte
  | .ping id => ((ftsPing bus wire id).1, (ftsPing bus wire id).2, out)
  | .read id addr len => ftsRead bus wire id addr len out
  | .write id addr data =>
    ((ftsWrite bus wire id addr data).1, (ftsWrite bus wire id addr data).2, out)
  | .syncRead ids addr len => ftsSyncRead bus wire ids addr len out

def Request.outcome (bus : FtsBus) (wire : Wire) (out : List Byte) (req : Request) :
    Rc × List Byte × Byte :=
  let (rc, bus, out) := req.perform bus wire out
  (rc, out, bus.lastServoError)

section Requests

variable {b₁ b₂ : FtsBus} {w₁ w₂ : Wire} {sent reply : List Byte}

theorem tx_packet_alike (h₁ : Answered b₁ w₁ sent reply) (h₂ : Answered b₂ w₂ sent reply)
    (herror : b₁.lastServoError = b₂.lastServoError) :
    ∃ n₁ n₂, txPacket b₁ w₁ sent = (.ok (), n₁) ∧ txPacket b₂ w₂ sent = (.ok (), n₂) ∧
      Alike n₁ n₂ := by
  obtain ⟨n₁, htx₁, hreads₁⟩ := tx_packet_holds h₁
  obtain ⟨n₂, htx₂, hreads₂⟩ := tx_packet_holds h₂
  exact ⟨n₁, n₂, htx₁, htx₂, by rw [hreads₁.error, hreads₂.error, herror], reply, hreads₁.holds,
    hreads₂.holds⟩

section Alike

variable {n₁ n₂ : FtsBus}

theorem ping_alike {id : Byte} (htx₁ : txPacket b₁ w₁ (Request.ping id).packet = (.ok (), n₁))
    (htx₂ : txPacket b₂ w₂ (Request.ping id).packet = (.ok (), n₂)) (halike : Alike n₁ n₂)
    (out : List Byte) :
    (Request.ping id).outcome b₁ w₁ out = (Request.ping id).outcome b₂ w₂ out := by
  obtain ⟨hrc, hlast, _⟩ := rx_status_alike halike id 0
  simp only [Request.packet] at htx₁ htx₂
  simp only [Request.outcome, Request.perform, ftsPing, htx₁, htx₂, hrc, hlast]

theorem read_alike {id addr len : Byte}
    (htx₁ : txPacket b₁ w₁ (Request.read id addr len).packet = (.ok (), n₁))
    (htx₂ : txPacket b₂ w₂ (Request.read id addr len).packet = (.ok (), n₂))
    (halike : Alike n₁ n₂) (herror : b₁.lastServoError = b₂.lastServoError) (out : List Byte) :
    (Request.read id addr len).outcome b₁ w₁ out =
      (Request.read id addr len).outcome b₂ w₂ out := by
  obtain ⟨hrc, hlast, _⟩ := rx_status_alike halike id len.toNat
  simp only [Request.packet] at htx₁ htx₂
  simp only [Request.outcome, Request.perform, ftsRead]
  by_cases hlen : len = 0
  · rw [if_pos hlen, if_pos hlen, herror]
  · rw [if_neg hlen, if_neg hlen, htx₁, htx₂]
    simp only
    cases hr₁ : rxStatus n₁ id len.toNat with
    | mk rc₁ m₁ =>
      cases hr₂ : rxStatus n₂ id len.toNat with
      | mk rc₂ m₂ =>
        rw [hr₁, hr₂] at hrc hlast
        obtain rfl : rc₁ = rc₂ := hrc
        rcases rc₁ with e | got
        · simpa using hlast
        · simpa using hlast

theorem write_alike {id addr : Byte} {data : List Byte}
    (htx₁ : txPacket b₁ w₁ (Request.write id addr data).packet = (.ok (), n₁))
    (htx₂ : txPacket b₂ w₂ (Request.write id addr data).packet = (.ok (), n₂))
    (halike : Alike n₁ n₂) (herror : b₁.lastServoError = b₂.lastServoError) (out : List Byte) :
    (Request.write id addr data).outcome b₁ w₁ out =
      (Request.write id addr data).outcome b₂ w₂ out := by
  obtain ⟨hrc, hlast, _⟩ := rx_status_alike halike id 0
  simp only [Request.packet] at htx₁ htx₂
  simp only [Request.outcome, Request.perform, ftsWrite]
  by_cases hargs : data.length = 0 ∨ data.length + 7 > ftsMaxPkt
  · rw [if_pos hargs, if_pos hargs, herror]
  · rw [if_neg hargs, if_neg hargs, htx₁, htx₂]
    by_cases hall : id = ftsBroadcastId
    · simp only [if_pos hall, halike.1]
    · simp only [if_neg hall, hrc, hlast]

theorem sync_read_alike {ids : List Byte} {addr len : Byte}
    (htx₁ : txPacket b₁ w₁ (Request.syncRead ids addr len).packet = (.ok (), n₁))
    (htx₂ : txPacket b₂ w₂ (Request.syncRead ids addr len).packet = (.ok (), n₂))
    (halike : Alike n₁ n₂) (herror : b₁.lastServoError = b₂.lastServoError) (out : List Byte) :
    (Request.syncRead ids addr len).outcome b₁ w₁ out =
      (Request.syncRead ids addr len).outcome b₂ w₂ out := by
  obtain ⟨hrc, hout, hlast⟩ := sync_read_loop_alike halike len.toNat ids 0 out none
  simp only [Request.packet] at htx₁ htx₂
  simp only [Request.outcome, Request.perform, ftsSyncRead]
  by_cases hargs : syncReadRefuses (BitVec.ofNat 64 ids.length) len = true
  · rw [if_pos hargs, if_pos hargs, herror]
  · rw [if_neg hargs, if_neg hargs, htx₁, htx₂]
    simp only
    cases hr₁ : syncReadLoop len.toNat ids 0 n₁ out none with
    | mk e₁ r₁ =>
      cases hr₂ : syncReadLoop len.toNat ids 0 n₂ out none with
      | mk e₂ r₂ =>
        rw [hr₁, hr₂] at hrc hout hlast
        obtain rfl : e₁ = e₂ := hrc
        rcases e₁ with _ | e
        · simp only [Prod.mk.injEq, true_and]
          exact ⟨hout, hlast⟩
        · simp only [Prod.mk.injEq, true_and]
          exact ⟨hout, hlast⟩

end Alike

theorem outcome_alike {req : Request} (h₁ : Answered b₁ w₁ req.packet reply)
    (h₂ : Answered b₂ w₂ req.packet reply) (herror : b₁.lastServoError = b₂.lastServoError)
    (out : List Byte) : req.outcome b₁ w₁ out = req.outcome b₂ w₂ out := by
  obtain ⟨n₁, n₂, htx₁, htx₂, halike⟩ := tx_packet_alike h₁ h₂ herror
  cases req with
  | ping id => exact ping_alike htx₁ htx₂ halike out
  | read id addr len => exact read_alike htx₁ htx₂ halike herror out
  | write id addr data => exact write_alike htx₁ htx₂ halike herror out
  | syncRead ids addr len => exact sync_read_alike htx₁ htx₂ halike herror out

end Requests

/-- An adapter that delivers the request and then the reply is seen as one that delivers the
reply alone. -/
theorem echo_transparent {echoing plain : FtsBus} (hon : echoing.echo = true)
    (hoff : plain.echo = false) (herror : echoing.lastServoError = plain.lastServoError)
    {w₁ w₂ : Wire} (hw₁ : w₁.writeFailsAfter = none) (hw₂ : w₂.writeFailsAfter = none)
    (req : Request) {reply : List Byte}
    (hfits : req.packet.length + reply.length ≤ ftsRxbufSize)
    (harr₁ : Delivers w₁.arrivals (req.packet ++ reply)) (harr₂ : Delivers w₂.arrivals reply)
    (out : List Byte) : req.outcome echoing w₁ out = req.outcome plain w₂ out := by
  have hquiet : ¬ plain.echo = true := by simp [hoff]
  have h₁ : Answered echoing w₁ req.packet reply := ⟨hw₁, by rwa [if_pos hon], hfits⟩
  have h₂ : Answered plain w₂ req.packet reply := ⟨hw₂, by rwa [if_neg hquiet], hfits⟩
  exact outcome_alike h₁ h₂ herror out

def idleBus (echo : Bool) : FtsBus where
  arrivals := []
  written := []
  echo := echo
  lastServoError := 0
  stats := ⟨0, 0, 0, 0, 0⟩
  rxbuf := []

/-- Servo 1 reports error 4; with the echo in front, the first chunk ends within the reply. -/
theorem echo_transparent_ping :
    let reply := packetBytes ⟨1, 4, []⟩
    let sent := (Request.ping 1).packet
    (Request.ping 1).outcome (idleBus true)
        ⟨none, [.bytes (sent ++ reply.take 2), .readInterrupted, .bytes (reply.drop 2)]⟩ [] =
      (Request.ping 1).outcome (idleBus false) ⟨none, [.bytes reply, .silent]⟩ [] := by
  intro reply sent
  have hfits : sent.length + reply.length ≤ ftsRxbufSize := by decide
  have hecho : Delivers
      [.bytes (sent ++ reply.take 2), .readInterrupted, .bytes (reply.drop 2)]
      (sent ++ reply) := by
    refine ⟨by decide, reply.drop 2, ?_, by decide, [], (List.append_nil _).symm, rfl⟩
    rw [List.append_assoc, List.take_append_drop]
  have hreply : Delivers [.bytes reply, .silent] reply :=
    ⟨by decide, [], (List.append_nil _).symm, rfl⟩
  exact @echo_transparent (idleBus true) (idleBus false) rfl rfl rfl
    ⟨none, [.bytes (sent ++ reply.take 2), .readInterrupted, .bytes (reply.drop 2)]⟩
    ⟨none, [.bytes reply, .silent]⟩ rfl rfl (Request.ping 1) reply hfits hecho hreply []

end EchoMode
