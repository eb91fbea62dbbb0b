import So101.DriverFrame
import So101.RegisterProtocol

/-!
# The diagnostic tool of the bus

`fts_tool` with its four commands. It asks and never sets anything: a simulator that hears it
is left as it was. What it says about the echo of an adapter is right but for one servo status.
-/
namespace FtsTool

open ServoBus (Byte)
open ByteRange PacketCodec BusDriver ReceiveLoop DriverFrame FakeBus RegisterProtocol

/-- The loop of `fts_raw_ping`: it reads until it has `cap` bytes or a wait or a read does not
succeed. -/
def readRaw (cap : ℕ) (got : List Byte) : List Arrival → List Byte × List Arrival
  | [] => (got, [])
  | .bytes bs :: rest =>
    if got.length < cap then
      if bs = [] then (got, rest)
      else if bs.length ≤ cap - got.length then readRaw cap (got ++ bs) rest
      else (got ++ bs.take (cap - got.length), .bytes (bs.drop (cap - got.length)) :: rest)
    else (got, .bytes bs :: rest)
  | a :: rest => if got.length < cap then (got, rest) else (got, a :: rest)

/-- The buffer of the driver has no part in it. -/
def ftsRawPing (bus : FtsBus) (wire : Wire) (id : Byte) (cap : ℕ) :
    Except FtsError (List Byte) × FtsBus :=
  match writeAll { bus with arrivals := wire.arrivals } wire.writeFailsAfter
      (ftsBuildPacket id ftsInstPing []) with
  | (.error e, bus) => (.error e, bus)
  | (.ok (), bus) =>
    let (raw, rest) := readRaw cap [] bus.arrivals
    (.ok raw, { bus with arrivals := rest })

inductive Verdict where
  | failed (e : FtsError)
  | echoes
  | noEcho
  | nothing
  deriving DecidableEq, Repr

def verdict (tx rx : List Byte) : Verdict :=
  if tx.length ≤ rx.length ∧ rx.take tx.length = tx then .echoes
  else if 0 < rx.length then .noEcho
  else .nothing

structure Session where
  bus : FtsBus
  call : ℕ

section Commands

variable (line : ℕ → Wire)

def cmdRaw (s : Session) (id : Byte) : Verdict × Session :=
  match ftsRawPing s.bus (line s.call) id 256 with
  | (.error e, bus) => (.failed e, ⟨bus, s.call + 1⟩)
  | (.ok rx, bus) => (verdict (ftsBuildPacket id ftsInstPing []) rx, ⟨bus, s.call + 1⟩)

/-- A servo that answers the ping is asked for its model number. -/
def scanId (s : Session) (id : Byte) : Bool × Session :=
  match ftsPing s.bus (line s.call) id with
  | (.ok (), bus) => (true, ⟨(ftsRead bus (line (s.call + 1)) id 3 2 [0, 0]).2.1, s.call + 2⟩)
  | (.error _, bus) => (false, ⟨bus, s.call + 1⟩)

def scanIds : List Byte → ℕ → Session → ℕ × Session
  | [], found, s => (found, s)
  | id :: ids, found, s =>
    let (ok, s) := scanId line s id
    scanIds ids (if ok then found + 1 else found) s

def cmdScan (maxId : ℕ) (s : Session) : ℕ × Session :=
  scanIds line ((List.range maxId).map fun k => BitVec.ofNat 8 (k + 1)) 0 s

def cmdState (n : ℕ) (s : Session) : Rc × Session :=
  let ids := (List.range n).map fun k => BitVec.ofNat 8 (k + 1)
  let (rc, bus, _) := ftsSyncRead s.bus (line s.call) ids 56 8 (List.replicate 128 0)
  (rc, ⟨bus, s.call + 1⟩)

def benchIds : List Byte := [1, 2, 3, 4, 5, 6]

/-- The reads of `cmd_bench`, and how many have succeeded. -/
def benchReads : ℕ → ℕ → Session → ℕ × Session
  | 0, ok, s => (ok, s)
  | iters + 1, ok, s =>
    let (rc, bus, _) := ftsSyncRead s.bus (line s.call) benchIds 56 2 (List.replicate 12 0)
    benchReads iters (if rc.isOk then ok + 1 else ok) ⟨bus, s.call + 1⟩

inductive Command where
  | raw
  | scan
  | state
  | bench
  deriving DecidableEq, Repr

/-- The commands on `arg`, which is -1 if it is not given; `MAX_IDS` is 16. -/
def run (s : Session) (arg : ℤ) : Command → Session
  | .raw => (cmdRaw line s (BitVec.ofInt 8 (if arg > 0 then arg else 1))).2
  | .scan => (cmdScan line (if arg > 0 then arg.toNat else 10) s).2
  | .state => (cmdState line (if arg > 0 ∧ arg ≤ 16 then arg.toNat else 6) s).2
  | .bench => (benchReads line (if arg > 0 then arg.toNat else 1000) 0 s).2

end Commands

/-- A request as the simulator takes it: its ID, instruction and parameters. -/
abbrev Request := Byte × Byte × List Byte

inductive Asks : Request → Prop where
  | ping (id : Byte) : Asks (id, ftsInstPing, [])
  | read (id addr : Byte) {len : Byte} (h : len.toNat ≤ 8) : Asks (id, ftsInstRead, [addr, len])
  | syncRead (addr : Byte) {len : Byte} {ids : List Byte} (h : len.toNat ≤ 8)
      (hids : ids.length ≤ 16) : Asks (ftsBroadcastId, ftsInstSyncRead, addr :: len :: ids)

theorem Asks.params {q : Request} (h : Asks q) : q.2.2.length ≤ 244 := by
  cases h with
  | ping | read => simp
  | syncRead _ _ hids =>
    simp only [List.length_cons]
    omega

def sent (line : ℕ → Wire) : ℕ → List Request → List Byte
  | _, [] => []
  | k, q :: qs => sentPart (line k) (requestBytes q) ++ sent line (k + 1) qs

theorem sent_append (line : ℕ → Wire) (k : ℕ) (qs rs : List Request) :
    sent line k (qs ++ rs) = sent line k qs ++ sent line (k + qs.length) rs := by
  induction qs generalizing k with
  | nil => rfl
  | cons q qs ih =>
    rw [List.cons_append, sent, ih, sent, List.append_assoc, List.length_cons,
      Nat.add_right_comm, Nat.add_assoc]

/-- From `s` to `next` these requests were made, all of which only ask. -/
structure Made (line : ℕ → Wire) (s next : Session) (qs : List Request) : Prop where
  call : next.call = s.call + qs.length
  written : next.bus.written = s.bus.written ++ sent line s.call qs
  asks : ∀ q ∈ qs, Asks q

section Requests

variable {line : ℕ → Wire} {s mid next : Session}

theorem Made.trans {qs rs : List Request} (h : Made line s mid qs) (k : Made line mid next rs) :
    Made line s next (qs ++ rs) where
  call := by rw [k.call, h.call, List.length_append, Nat.add_assoc]
  written := by rw [k.written, h.written, h.call, sent_append, List.append_assoc]
  asks q hq := (List.mem_append.mp hq).elim (h.asks q) (k.asks q)

end Requests

section Simulator

variable {sim : Sim}

end Simulator

def burst : List Arrival → List Byte
  | .bytes bs :: rest => if bs = [] then [] else bs ++ burst rest
  | _ => []

theorem read_raw_burst {cap : ℕ} {got : List Byte} {arrivals : List Arrival}
    (h : (got ++ burst arrivals).length ≤ cap) :
    (readRaw cap got arrivals).1 = got ++ burst arrivals := by
  induction arrivals generalizing got with
  | nil => exact (List.append_nil got).symm
  | cons a rest ih =>
    cases a with
    | bytes bs =>
      by_cases hbs : bs = []
      · simp only [readRaw, burst, hbs, if_true, List.append_nil]
        split <;> rfl
      · have hpos := List.length_pos_iff.mpr hbs
        simp only [burst, if_neg hbs, ← List.append_assoc] at h ⊢
        have hsize := h
        simp only [List.length_append] at hsize
        have hroom : got.length < cap := by omega
        have hfits : bs.length ≤ cap - got.length := by omega
        rw [readRaw, if_pos hroom, if_neg hbs, if_pos hfits]
        exact ih h
    | _ =>
      simp only [readRaw, burst, List.append_nil]
      split <;> rfl

theorem verdict_echoes_iff {tx rx : List Byte} : verdict tx rx = .echoes ↔ tx <+: rx := by
  have hfront : tx <+: rx ↔ tx.length ≤ rx.length ∧ rx.take tx.length = tx := by
    rw [List.prefix_iff_eq_take]
    constructor
    · intro h
      have hlen := congrArg List.length h
      rw [List.length_take] at hlen
      exact ⟨by omega, h.symm⟩
    · exact fun h => h.2.symm
  unfold verdict
  rw [hfront]
  split_ifs with h h'
  · simp [h]
  · simp [h]
  · simp [h]

theorem verdict_nothing_iff {tx rx : List Byte} (htx : tx ≠ []) :
    verdict tx rx = .nothing ↔ rx = [] := by
  unfold verdict
  split_ifs with h h'
  · have hne : rx ≠ [] := by
      rintro rfl
      exact htx (by simpa using h.1)
    simpa using hne
  · simpa using List.length_pos_iff.mp h'
  · simpa using h'

theorem cmd_raw_verdict {line : ℕ → Wire} {s : Session}
    (hwrite : (line s.call).writeFailsAfter = none)
    (hfits : (burst (line s.call).arrivals).length ≤ 256) (id : Byte) :
    (cmdRaw line s id).1 =
      verdict (ftsBuildPacket id ftsInstPing []) (burst (line s.call).arrivals) := by
  have hread : (readRaw 256 [] (line s.call).arrivals).1 = [] ++ burst (line s.call).arrivals :=
    read_raw_burst hfits
  simp only [cmdRaw, ftsRawPing, writeAll, hwrite]
  rw [hread, List.nil_append]

theorem ping_prefix_iff (id error : Byte) (more : List Byte) :
    ftsBuildPacket id ftsInstPing [] <+: packetBytes ⟨id, error, []⟩ ++ more ↔ error = 1 := by
  rw [packetBytes, build_packet_eq (by simp), build_packet_eq (by simp)]
  constructor
  · rintro ⟨rest, h⟩
    simp only [List.cons_append, List.cons.injEq] at h
    exact h.2.2.2.2.1.symm
  · rintro rfl
    exact ⟨more, rfl⟩

/-- Of what comes before the line falls silent the tool says: an echo, if it begins with the
request; nothing, if nothing comes. The one answer of a servo that it takes for an echo is a
status with error 1, which is the request byte by byte. -/
theorem raw_verdict (line : ℕ → Wire) {s : Session}
    (hwrite : (line s.call).writeFailsAfter = none)
    (hfits : (burst (line s.call).arrivals).length ≤ 256) (id : Byte) :
    ((cmdRaw line s id).1 = .echoes ↔
      ftsBuildPacket id ftsInstPing [] <+: burst (line s.call).arrivals) ∧
    ((cmdRaw line s id).1 = .nothing ↔ burst (line s.call).arrivals = []) ∧
    ∀ error more, burst (line s.call).arrivals = packetBytes ⟨id, error, []⟩ ++ more →
      (cmdRaw line s id).1 = if error = 1 then .echoes else .noEcho := by
  have hne : ftsBuildPacket id ftsInstPing [] ≠ [] := by
    rw [build_packet_eq (by simp)]
    simp
  rw [cmd_raw_verdict hwrite hfits id]
  refine ⟨verdict_echoes_iff, verdict_nothing_iff hne, fun error more hcame => ?_⟩
  have hiff := @ping_prefix_iff id error more
  rw [hcame]
  by_cases herr : error = 1
  · rw [if_pos herr]
    exact verdict_echoes_iff.mpr (hiff.mpr herr)
  · rw [if_neg herr]
    have hecho := mt verdict_echoes_iff.mp (mt hiff.mp herr)
    have hsome : packetBytes ⟨id, error, []⟩ ++ more ≠ [] := by
      rw [packetBytes, build_packet_eq (by simp)]
      simp
    have hnothing := mt (verdict_nothing_iff hne).mp hsome
    unfold verdict at hecho hnothing ⊢
    split_ifs at hecho hnothing ⊢
    · exact absurd rfl hecho
    · rfl
    · exact absurd rfl hnothing

/-- A servo answers with error 1 on a line without echo. -/
theorem raw_verdict_error :
    (cmdRaw (fun _ => ⟨none, [.bytes [0xFF, 0xFF, 3], .bytes [2, 1, 0xF9], .silent]⟩)
      ⟨SyncRead.opened, 0⟩ 3).1 = .echoes :=
  (raw_verdict (fun _ => ⟨none, [.bytes [0xFF, 0xFF, 3], .bytes [2, 1, 0xF9], .silent]⟩)
    rfl (by decide) 3).2.2 1 [] (by decide)

end FtsTool
