import So101.Lib.ByteRange
import So101.PacketCodec

/-!
# The bus driver

Requests of the driver and the receive loop around the parser. What the calls of `poll`,
`read` and the clock will meet is a list of arrivals, one for each turn of a receive loop;
a read takes no more than the buffer has room for and leaves the rest.
-/
namespace BusDriver

open ServoBus (Byte)
open ByteRange PacketCodec

def ftsRxbufSize : ℕ := 1024
def ftsBroadcastId : Byte := 0xFE

def ftsInstPing : Byte := 0x01
def ftsInstRead : Byte := 0x02
def ftsInstWrite : Byte := 0x03
def ftsInstSyncRead : Byte := 0x82
def ftsInstSyncWrite : Byte := 0x83

/-- What one turn of a receive loop meets. -/
inductive Arrival where
  /-- `now_ms()` is past the deadline when it is looked at. -/
  | expired
  /-- `poll` times out. -/
  | silent
  | pollInterrupted
  /-- `poll` fails or reports only a hangup. -/
  | pollFailed
  | readInterrupted
  /-- `read` finds these bytes; without any it fails or reports the end of the file. -/
  | bytes (bs : List Byte)
  deriving DecidableEq, Repr

structure FtsStats where
  txPackets : BitVec 32
  rxOk : BitVec 32
  timeouts : BitVec 32
  checksumErrors : BitVec 32
  bytesDiscarded : BitVec 32
  deriving DecidableEq, Repr

/-- `fts_bus`; the descriptor is what it will deliver and what was written to it, and
`rxlen` is the length of `rxbuf`. -/
structure FtsBus where
  arrivals : List Arrival
  written : List Byte
  echo : Bool
  lastServoError : Byte
  stats : FtsStats
  rxbuf : List Byte
  deriving DecidableEq, Repr

/-- What happens on the line during one request: how many bytes a failing write lets
through, and what arrives after the flush. -/
structure Wire where
  writeFailsAfter : Option ℕ
  arrivals : List Arrival
  deriving DecidableEq, Repr

/-- A return code; `ok` is `FTS_OK`. -/
abbrev Rc := Except FtsError Unit

def incoming : List Arrival → List Byte
  | [] => []
  | .bytes bs :: rest => bs ++ incoming rest
  | _ :: rest => incoming rest

def pending : List Arrival → ℕ
  | [] => 0
  | .bytes bs :: rest => bs.length + 1 + pending rest
  | _ :: rest => 1 + pending rest

def FtsBus.discard (bus : FtsBus) (n : ℕ) : FtsBus :=
  { bus with
    stats := { bus.stats with
      bytesDiscarded := bus.stats.bytesDiscarded + BitVec.ofNat 32 n } }

def FtsBus.countTimeout (bus : FtsBus) : FtsBus :=
  { bus with stats := { bus.stats with timeouts := bus.stats.timeouts + 1 } }

def writeAll (bus : FtsBus) (failsAfter : Option ℕ) (buf : List Byte) : Rc × FtsBus :=
  match failsAfter with
  | none => (.ok (), { bus with written := bus.written ++ buf })
  | some k => (.error .io, { bus with written := bus.written ++ buf.take k })

/-- A full buffer is thrown away before a read. -/
def makeRoom (bus : FtsBus) : FtsBus :=
  if bus.rxbuf.length ≥ ftsRxbufSize then
    { bus.discard bus.rxbuf.length with rxbuf := [] }
  else bus

def fillRx (bus : FtsBus) : Rc × FtsBus :=
  match bus.arrivals with
  | [] => (.error .timeout, bus)
  | .expired :: rest => (.error .timeout, { bus with arrivals := rest })
  | .silent :: rest => (.error .timeout, { bus with arrivals := rest })
  | .pollInterrupted :: rest => (.ok (), { bus with arrivals := rest })
  | .pollFailed :: rest => (.error .io, { bus with arrivals := rest })
  | .readInterrupted :: rest => (.ok (), { makeRoom bus with arrivals := rest })
  | .bytes bs :: rest =>
    let bus := makeRoom bus
    let room := ftsRxbufSize - bus.rxbuf.length
    if bs = [] then (.error .io, { bus with arrivals := rest })
    else
      (.ok (), { bus with
        rxbuf := bus.rxbuf ++ bs.take room
        arrivals := if bs.length ≤ room then rest else .bytes (bs.drop room) :: rest })

def dropRx (bus : FtsBus) (n : ℕ) : FtsBus := { bus with rxbuf := bus.rxbuf.drop n }

@[simp] theorem make_room_arrivals (bus : FtsBus) : (makeRoom bus).arrivals = bus.arrivals := by
  unfold makeRoom
  split <;> rfl

theorem make_room_lt (bus : FtsBus) : (makeRoom bus).rxbuf.length < ftsRxbufSize := by
  unfold makeRoom
  by_cases hfull : bus.rxbuf.length ≥ ftsRxbufSize
  · rw [if_pos hfull]
    exact Nat.zero_lt_succ 1023
  · rw [if_neg hfull]
    omega

/-- A turn that does not end the loop brings its end nearer. -/
theorem fill_rx_pending {bus next : FtsBus} (h : fillRx bus = (.ok (), next)) :
    pending next.arrivals < pending bus.arrivals := by
  unfold fillRx at h
  split at h
  · cases h
  · cases h
  · cases h
  · rename_i rest heq
    cases h
    simp [heq, pending]
  · cases h
  · rename_i rest heq
    cases h
    simp [heq, pending]
  · rename_i bs rest heq
    have hroom := make_room_lt bus
    simp only at h
    split at h
    · cases h
    · rename_i hbs
      cases h
      have hpos := List.length_pos_iff.mpr hbs
      rw [heq]
      simp only
      split
      · simp only [pending]
        omega
      · simp only [pending, List.length_drop]
        omega

/-- Echoed bytes are read until there are `len`, or nothing comes. -/
def swallowEcho (len : ℕ) (bus : FtsBus) : Rc × FtsBus :=
  if bus.rxbuf.length < len then
    match _h : fillRx bus with
    | (.ok (), bus) => swallowEcho len bus
    | (.error .timeout, bus) => (.ok (), dropRx bus len)
    | (.error e, bus) => (.error e, bus)
  else (.ok (), dropRx bus len)
termination_by pending bus.arrivals
decreasing_by exact fill_rx_pending _h

def txPacket (bus : FtsBus) (wire : Wire) (pkt : List Byte) : Rc × FtsBus :=
  let bus := { bus with arrivals := wire.arrivals, rxbuf := [] }
  match writeAll bus wire.writeFailsAfter pkt with
  | (.error e, bus) => (.error e, bus)
  | (.ok (), bus) =>
    let bus := { bus with stats := { bus.stats with txPackets := bus.stats.txPackets + 1 } }
    if bus.echo then swallowEcho pkt.length bus else (.ok (), bus)

/-- Bytes that are no packet are dropped; a wrong checksum is counted. -/
def skipCorrupt (bus : FtsBus) (e : FtsError) (consumed : ℕ) : FtsBus :=
  let bus := if e = .checksum then
      { bus with stats := { bus.stats with checksumErrors := bus.stats.checksumErrors + 1 } }
    else bus
  dropRx (bus.discard consumed) consumed

abbrev RxResult := Except FtsError (List Byte) × FtsBus

/-- One turn of the loop of `rxStatus`: it returns, or goes on with the bus as it is then. -/
def rxTurn (bus : FtsBus) (expectId : Byte) (cap : ℕ) : RxResult ⊕ FtsBus :=
  match ftsParseStatus bus.rxbuf with
  | (some (.ok pkt), consumed) =>
    let bus := bus.discard (consumed - (pkt.data.length + 6))
    if pkt.id ≠ expectId then .inl (.error .id, dropRx bus consumed)
    else
      let bus := dropRx { bus with lastServoError := pkt.error } consumed
      .inl (.ok (pkt.data.take cap),
        { bus with stats := { bus.stats with rxOk := bus.stats.rxOk + 1 } })
  | (some (.error e), consumed) => .inr (skipCorrupt bus e consumed)
  | (none, _) =>
    if bus.arrivals.head? = some .expired then
      .inl (.error .timeout, { bus.countTimeout with arrivals := bus.arrivals.tail })
    else
      match fillRx bus with
      | (.ok (), bus) => .inr bus
      | (.error .timeout, bus) => .inl (.error .timeout, bus.countTimeout)
      | (.error e, bus) => .inl (.error e, bus)

/-- Nearer to the end of the loop: less to wait for, or less in the buffer. -/
def Nearer (next bus : FtsBus) : Prop :=
  Prod.Lex (· < ·) (· < ·) (pending next.arrivals, next.rxbuf.length)
    (pending bus.arrivals, bus.rxbuf.length)

theorem skip_corrupt_arrivals (bus : FtsBus) (e : FtsError) (n : ℕ) :
    (skipCorrupt bus e n).arrivals = bus.arrivals := by
  unfold skipCorrupt
  split <;> rfl

theorem skip_corrupt_rxbuf (bus : FtsBus) (e : FtsError) (n : ℕ) :
    (skipCorrupt bus e n).rxbuf = bus.rxbuf.drop n := by
  unfold skipCorrupt
  split <;> rfl

theorem rx_turn_nearer {bus next : FtsBus} {expectId : Byte} {cap : ℕ}
    (h : rxTurn bus expectId cap = .inr next) : Nearer next bus := by
  unfold rxTurn at h
  split at h
  · simp only at h
    split at h
    · cases h
    · cases h
  · rename_i e consumed hparse
    cases h
    have hpos := parse_emit_pos hparse
    have hle := parse_consumed_le bus.rxbuf
    rw [hparse] at hle
    simp only at hle
    rw [Nearer, skip_corrupt_arrivals, skip_corrupt_rxbuf, List.length_drop]
    apply Prod.Lex.right
    omega
  · split at h
    · cases h
    · split at h
      · rename_i hfill
        cases h
        exact Prod.Lex.left _ _ (fill_rx_pending hfill)
      · cases h
      · cases h

/-- A status packet from `expectId`; `ok` carries the bytes copied to the caller. -/
def rxStatus (bus : FtsBus) (expectId : Byte) (cap : ℕ) : RxResult :=
  match _h : rxTurn bus expectId cap with
  | .inl result => result
  | .inr bus => rxStatus bus expectId cap
termination_by (pending bus.arrivals, bus.rxbuf.length)
decreasing_by exact rx_turn_nearer _h

def ftsPing (bus : FtsBus) (wire : Wire) (id : Byte) : Rc × FtsBus :=
  match txPacket bus wire (ftsBuildPacket id ftsInstPing []) with
  | (.error e, bus) => (.error e, bus)
  | (.ok (), bus) =>
    let (r, bus) := rxStatus bus id 0
    (r.map fun _ => (), bus)

/-- The third component is the caller's `out`. -/
def ftsRead (bus : FtsBus) (wire : Wire) (id addr len : Byte) (out : List Byte) :
    Rc × FtsBus × List Byte :=
  if len = 0 then (.error .arg, bus, out)
  else
    match txPacket bus wire (ftsBuildPacket id ftsInstRead [addr, len]) with
    | (.error e, bus) => (.error e, bus, out)
    | (.ok (), bus) =>
      match rxStatus bus id len.toNat with
      | (.error e, bus) => (.error e, bus, out)
      | (.ok got, bus) =>
        (if got.length = len.toNat then .ok () else .error .badPkt, bus, overwrite out 0 got)

/-- `len` is the length of `data`. -/
def ftsWrite (bus : FtsBus) (wire : Wire) (id addr : Byte) (data : List Byte) : Rc × FtsBus :=
  if data.length = 0 ∨ data.length + 7 > ftsMaxPkt then (.error .arg, bus)
  else
    match txPacket bus wire (ftsBuildPacket id ftsInstWrite (addr :: data)) with
    | (.error e, bus) => (.error e, bus)
    | (.ok (), bus) =>
      if id = ftsBroadcastId then (.ok (), bus)
      else
        let (r, bus) := rxStatus bus id 0
        (r.map fun _ => (), bus)

/-- The check of the arguments; `n` is a `size_t`. -/
def syncReadRefuses (n : BitVec 64) (len : Byte) : Bool :=
  n = 0 || len = 0 || BitVec.ofNat 64 ftsMaxPkt < n + 8

def syncReadPacket (ids : List Byte) (addr len : Byte) : List Byte :=
  ftsBuildPacket ftsBroadcastId ftsInstSyncRead (addr :: len :: ids)

/-- The loop over the servos that are left, from the `k`-th; `firstErr` is `none` for
`FTS_OK`. -/
def syncReadLoop (len : ℕ) : List Byte → ℕ → FtsBus → List Byte → Option FtsError →
    Option FtsError × FtsBus × List Byte
  | [], _, bus, out, firstErr => (firstErr, bus, out)
  | id :: ids, k, bus, out, firstErr =>
    match rxStatus bus id len with
    | (.ok got, bus) =>
      let out := overwrite out (k * len) got
      let rc := if got.length ≠ len then some .badPkt else none
      syncReadLoop len ids (k + 1) bus out (firstErr.or rc)
    | (.error e, bus) =>
      if e = .timeout then (firstErr.or (some e), bus, out)
      else syncReadLoop len ids (k + 1) bus out (firstErr.or (some e))

def ftsSyncRead (bus : FtsBus) (wire : Wire) (ids : List Byte) (addr len : Byte)
    (out : List Byte) : Rc × FtsBus × List Byte :=
  if syncReadRefuses (BitVec.ofNat 64 ids.length) len then (.error .arg, bus, out)
  else
    match txPacket bus wire (syncReadPacket ids addr len) with
    | (.error e, bus) => (.error e, bus, out)
    | (.ok (), bus) =>
      match syncReadLoop len.toNat ids 0 bus out none with
      | (none, bus, out) => (.ok (), bus, out)
      | (some e, bus, out) => (.error e, bus, out)

/-- Each id before its `len` bytes of `data`, from the `k`-th servo. -/
def syncBlocks (len : ℕ) (data : List Byte) : ℕ → List Byte → List Byte
  | _, [] => []
  | k, id :: ids => id :: slice data (k * len) len ++ syncBlocks len data (k + 1) ids

def syncWriteRefuses (n : BitVec 64) (len : Byte) : Bool :=
  n = 0 || len = 0 || BitVec.ofNat 64 ftsMaxPkt < 2 + n * (len.setWidth 64 + 1) + 6

def syncWritePacket (ids : List Byte) (addr len : Byte) (data : List Byte) : List Byte :=
  ftsBuildPacket ftsBroadcastId ftsInstSyncWrite
    (addr :: len :: syncBlocks len.toNat data 0 ids)

def ftsSyncWrite (bus : FtsBus) (wire : Wire) (ids : List Byte) (addr len : Byte)
    (data : List Byte) : Rc × FtsBus :=
  if syncWriteRefuses (BitVec.ofNat 64 ids.length) len then (.error .arg, bus)
  else txPacket bus wire (syncWritePacket ids addr len data)

end BusDriver
