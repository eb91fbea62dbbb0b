import Mathlib.Logic.Function.Basic
import So101.BusDriver

/-!
# The simulated bus

`fake_bus.py` without echo, corruption and wiggle: the framing of its main loop as a decoder
and the five instructions on a table of registers for each servo. An exception of Python that
would end the program is `none`.
-/
namespace FakeBus

open ServoBus (Byte)
open ByteRange StreamDecoder PacketCodec

/-- `(~sum(b)) & 0xFF`, on the unbounded integers of Python. -/
def checksum (b : List Byte) : Byte := BitVec.ofInt 8 (~~~((b.map BitVec.toNat).sum : ℤ))

/-- `bytes` raises on a length that is no byte. -/
def status (sid : Byte) (data : List Byte) (err : Byte) : Option (List Byte) :=
  if data.length + 2 > 255 then none
  else
    let body := sid :: BitVec.ofNat 8 (data.length + 2) :: err :: data
    some (0xFF#8 :: 0xFF#8 :: (body ++ [checksum body]))

def setSlice (r : List Byte) (a n : ℕ) (data : List Byte) : List Byte :=
  r.take a ++ data ++ r.drop (a + n)

abbrev Regs := Byte → Option (List Byte)

structure Sim where
  regs : Regs
  buf : List Byte

def find : List Byte → Option ℕ
  | b₀ :: b₁ :: rest =>
    if b₀ = 0xFF#8 ∧ b₁ = 0xFF#8 then some 0 else (find (b₁ :: rest)).map (· + 1)
  | _ => none

def nextPacket (buf : List Byte) : Answer (List Byte) :=
  match find buf with
  | none => (none, 0)
  | some i =>
    if buf.length - i < 4 then (none, 0)
    else
      let n := (buf.getD (i + 3) 0).toNat + 4
      if buf.length - i < n then (none, 0) else (some (slice buf i n), i + n)

theorem find_append {buf : List Byte} {i : ℕ} (h : find buf = some i) (ys : List Byte) :
    find (buf ++ ys) = some i := by
  induction buf using find.induct generalizing i with
  | case1 b₀ b₁ rest hpair =>
    rw [find, if_pos hpair] at h
    rw [List.cons_append, List.cons_append, find, if_pos hpair, h]
  | case2 b₀ b₁ rest hpair ih =>
    rw [find, if_neg hpair] at h
    obtain ⟨j, hj, rfl⟩ := Option.map_eq_some_iff.mp h
    rw [List.cons_append, List.cons_append, find, if_neg hpair, ← List.cons_append, ih hj]
    rfl
  | case3 buf hshort =>
    exfalso
    unfold find at h
    split at h
    · rename_i b₀ b₁ rest
      exact hshort b₀ b₁ rest rfl
    · cases h

theorem find_lt {buf : List Byte} {i : ℕ} (h : find buf = some i) : i < buf.length := by
  induction buf using find.induct generalizing i with
  | case1 b₀ b₁ rest hpair =>
    rw [find, if_pos hpair] at h
    cases h
    exact Nat.succ_pos _
  | case2 b₀ b₁ rest hpair ih =>
    rw [find, if_neg hpair] at h
    obtain ⟨j, hj, rfl⟩ := Option.map_eq_some_iff.mp h
    have hlt := ih hj
    simp only [List.length_cons] at hlt ⊢
    omega
  | case3 buf hshort =>
    exfalso
    unfold find at h
    split at h
    · rename_i b₀ b₁ rest
      exact hshort b₀ b₁ rest rfl
    · cases h

theorem next_packet_some {buf pkt : List Byte} {m : ℕ} (h : nextPacket buf = (some pkt, m)) :
    ∃ i n, find buf = some i ∧ n = (buf.getD (i + 3) 0).toNat + 4 ∧ i + n ≤ buf.length ∧
      pkt = slice buf i n ∧ m = i + n := by
  unfold nextPacket at h
  split at h
  · cases h
  · rename_i i hfind
    simp only at h
    split at h
    · cases h
    split at h
    · cases h
    · cases h
      have hlt := find_lt hfind
      exact ⟨i, _, hfind, rfl, by omega, rfl, rfl⟩

theorem next_packet_none {buf : List Byte} {m : ℕ} (h : nextPacket buf = (none, m)) : m = 0 := by
  unfold nextPacket at h
  split at h
  · cases h
    rfl
  · simp only at h
    split at h
    · cases h
      rfl
    split at h
    · cases h
      rfl
    · cases h

theorem next_packet_of {buf : List Byte} {i n : ℕ} (hfind : find buf = some i)
    (hn : n = (buf.getD (i + 3) 0).toNat + 4) (hle : i + n ≤ buf.length) :
    nextPacket buf = (some (slice buf i n), i + n) := by
  rw [nextPacket, hfind]
  simp only
  rw [if_neg (by omega), ← hn, if_neg (by omega)]

theorem next_packet_le (buf : List Byte) : (nextPacket buf).2 ≤ buf.length := by
  cases h : nextPacket buf with
  | mk a m =>
    cases a with
    | none =>
      rw [next_packet_none h]
      exact Nat.zero_le _
    | some pkt =>
      obtain ⟨i, n, _, _, hle, _, rfl⟩ := next_packet_some h
      exact hle

theorem next_packet_pos {buf pkt : List Byte} {m : ℕ} (h : nextPacket buf = (some pkt, m)) :
    0 < m := by
  obtain ⟨i, n, _, rfl, _, _, rfl⟩ := next_packet_some h
  omega

theorem next_packet_append {buf pkt : List Byte} {m : ℕ} (ys : List Byte)
    (h : nextPacket buf = (some pkt, m)) : nextPacket (buf ++ ys) = (some pkt, m) := by
  obtain ⟨i, n, hfind, hn, hle, rfl, rfl⟩ := next_packet_some h
  have hget : (buf ++ ys).getD (i + 3) 0 = buf.getD (i + 3) 0 := by
    apply List.getD_append
    omega
  rw [next_packet_of (find_append hfind ys) (hn.trans (by rw [hget]))
    (hle.trans (by rw [List.length_append]; omega))]
  rw [slice, slice, List.drop_append_of_le_length (by omega), List.take_append_of_le_length
    (by rw [List.length_drop]; omega)]

theorem next_packet_wait {buf : List Byte} {m : ℕ} (ys : List Byte)
    (h : nextPacket buf = (none, m)) :
    nextPacket (buf ++ ys) = (nextPacket (buf.drop m ++ ys)).shift m := by
  rw [next_packet_none h, List.drop_zero]
  simp [Answer.shift]

def framing : Decoder Byte (List Byte) where
  decode := nextPacket
  consumed_le := next_packet_le
  emit_pos := next_packet_pos
  emit_append := next_packet_append
  wait_append := next_packet_wait

/-- A WRITE goes to the servo it names or, as a broadcast, to all. -/
def writeRegs (regs : Regs) (sid : Byte) (a : ℕ) (data : List Byte) : Regs := fun t =>
  if sid = 0xFE#8 ∨ t = sid then (regs t).map (setSlice · a data.length data) else regs t

/-- The replies of a SYNC_READ, joined; ids that are not served answer nothing. -/
def syncReadReplies (regs : Regs) (a n : ℕ) : List Byte → Option (List Byte)
  | [] => some []
  | t :: ids =>
    match regs t with
    | none => syncReadReplies regs a n ids
    | some r => do
      let pkt ← status t (slice r a n) 0
      let rest ← syncReadReplies regs a n ids
      some (pkt ++ rest)

def syncWriteTable (a n : ℕ) (data r : List Byte) : List Byte :=
  let r := setSlice r a n data
  if a = 42 then setSlice r 56 2 (slice r 42 2) else r

def syncWriteServo (regs : Regs) (a n : ℕ) (t : Byte) (data : List Byte) : Regs :=
  match regs t with
  | none => regs
  | some r => Function.update regs t (some (syncWriteTable a n data r))

def syncWriteBody (a n : ℕ) : Regs → List Byte → Regs
  | regs, [] => regs
  | regs, t :: rest => syncWriteBody a n (syncWriteServo regs a n t (rest.take n)) (rest.drop n)
termination_by _ body => body.length
decreasing_by
  rw [List.length_drop, List.length_cons]
  omega

/-- The branches on the instruction: the registers after it and what is sent. -/
def execute (regs : Regs) (sid inst : Byte) (params : List Byte) : Option (Regs × List Byte) :=
  if inst = 0x01 ∧ regs sid ≠ none then (status sid [] 0).map fun out => (regs, out)
  else if inst = 0x02 ∧ regs sid ≠ none then
    match params, regs sid with
    | a :: n :: _, some r => (status sid (slice r a.toNat n.toNat) 0).map fun out => (regs, out)
    | _, _ => none
  else if inst = 0x03 then
    match params with
    | a :: data =>
      let regs' := writeRegs regs sid a.toNat data
      if regs' sid ≠ none then (status sid [] 0).map fun out => (regs', out)
      else some (regs', [])
    | _ => none
  else if inst = 0x82 then
    match params with
    | a :: n :: ids => (syncReadReplies regs a.toNat n.toNat ids).map fun out => (regs, out)
    | _ => none
  else if inst = 0x83 then
    match params with
    | a :: n :: body => some (syncWriteBody a.toNat n.toNat regs body, [])
    | _ => none
  else some (regs, [])

/-- A packet with a wrong checksum is skipped. -/
def serve (regs : Regs) (pkt : List Byte) : Option (Regs × List Byte) :=
  match pkt[2]?, pkt[4]?, pkt.getLast? with
  | some sid, some inst, some last =>
    if checksum (pkt.drop 2).dropLast ≠ last then some (regs, [])
    else execute regs sid inst (pkt.drop 5).dropLast
  | _, _, _ => none

def serveAll : Regs → List (List Byte) → Option (Regs × List Byte)
  | regs, [] => some (regs, [])
  | regs, pkt :: pkts => do
    let (regs, out) ← serve regs pkt
    let (regs, more) ← serveAll regs pkts
    some (regs, out ++ more)

/-- One turn of the outer loop: a chunk is read and all whole packets are served. -/
def readChunk (sim : Sim) (chunk : List Byte) : Option (Sim × List Byte) :=
  let (pkts, rest) := framing.drain (sim.buf ++ chunk)
  (serveAll sim.regs pkts).map fun (regs, out) => (⟨regs, rest⟩, out)

def hear : Sim → List (List Byte) → Option (Sim × List Byte)
  | sim, [] => some (sim, [])
  | sim, chunk :: chunks => do
    let (sim, out) ← readChunk sim chunk
    let (sim, more) ← hear sim chunks
    some (sim, out ++ more)

theorem serve_all_append (regs : Regs) (pkts more : List (List Byte)) :
    serveAll regs (pkts ++ more) = (do
      let (regs, out) ← serveAll regs pkts
      let (regs, rest) ← serveAll regs more
      some (regs, out ++ rest)) := by
  induction pkts generalizing regs with
  | nil => simp [serveAll]
  | cons pkt pkts ih =>
    rw [List.cons_append, serveAll, serveAll]
    cases serve regs pkt with
    | none => rfl
    | some r =>
      simp only [Option.bind_eq_bind, Option.bind_some, ih]
      cases serveAll r.1 pkts with
      | none => rfl
      | some q =>
        simp only [Option.bind_some]
        cases serveAll q.1 more with
        | none => rfl
        | some t => simp

theorem read_chunk_eq (sim : Sim) (chunk : List Byte) :
    readChunk sim chunk = (serveAll sim.regs (framing.drain (sim.buf ++ chunk)).1).map fun r =>
      (⟨r.1, (framing.drain (sim.buf ++ chunk)).2⟩, r.2) := rfl

/-- However a stream is cut, the simulator serves its packets one after another. -/
theorem hear_eq {sim : Sim} (h : (nextPacket sim.buf).1 = none) (chunks : List (List Byte)) :
    hear sim chunks =
      (serveAll sim.regs (framing.drain (sim.buf ++ chunks.flatten)).1).map fun r =>
        (⟨r.1, (framing.drain (sim.buf ++ chunks.flatten)).2⟩, r.2) := by
  induction chunks generalizing sim with
  | nil =>
    have hwait : framing.drain sim.buf = ([], sim.buf) := drain_wait h
    rw [List.flatten_nil, List.append_nil, hwait]
    rfl
  | cons chunk chunks ih =>
    have hsplit := drain_append (D := framing) (sim.buf ++ chunk) chunks.flatten
    have hrest : (nextPacket (framing.drain (sim.buf ++ chunk)).2).1 = none :=
      drain_rest_waits (D := framing) _
    have hnext := fun regs => @ih ⟨regs, (framing.drain (sim.buf ++ chunk)).2⟩ hrest
    rw [hear, read_chunk_eq, List.flatten_cons, ← List.append_assoc, hsplit, serve_all_append]
    cases serveAll sim.regs (framing.drain (sim.buf ++ chunk)).1 with
    | none => rfl
    | some r =>
      simp only [Option.map_some, Option.bind_eq_bind, Option.bind_some, hnext]
      cases serveAll r.1 (framing.drain ((framing.drain (sim.buf ++ chunk)).2 ++ chunks.flatten)).1
        with
      | none => rfl
      | some q => rfl

theorem sum_bytes (bytes : List Byte) (acc : BitVec 32) :
    bytes.foldl (fun s b => s + b.setWidth 32) acc =
      acc + BitVec.ofNat 32 (bytes.map BitVec.toNat).sum := by
  induction bytes generalizing acc with
  | nil => simp
  | cons b bytes ih =>
    have hb : b.setWidth 32 = BitVec.ofNat 32 b.toNat := by simp
    rw [List.foldl_cons, ih, List.map_cons, List.sum_cons, BitVec.ofNat_add, BitVec.add_assoc, hb]

theorem fts_checksum_eq (bytes : List Byte) :
    ftsChecksum bytes = ~~~BitVec.ofNat 8 (bytes.map BitVec.toNat).sum := by
  have hmask : ∀ (i : ℕ) (h : i < 8), (0xFF#8)[i] = true := by decide
  have hzero : ∀ x : BitVec 32, 0 + x = x := BitVec.zero_add
  rw [ftsChecksum, sum_bytes, hzero]
  ext i hi
  simp [hmask i hi]

theorem checksum_eq (bytes : List Byte) : checksum bytes = ftsChecksum bytes := by
  rw [fts_checksum_eq, BitVec.not_eq_neg_add, checksum]
  generalize (bytes.map BitVec.toNat).sum = n
  have hnot : (~~~(n : ℤ)) = -(n : ℤ) + -1 := by
    change Int.negSucc n = _
    rw [Int.negSucc_eq]
    omega
  rw [hnot, BitVec.ofInt_add, BitVec.ofInt_neg, BitVec.ofInt_natCast, BitVec.sub_eq_add_neg]
  rfl

theorem status_eq {data : List Byte} (h : data.length ≤ 244) (sid err : Byte) :
    status sid data err = some (ftsBuildPacket sid err data) := by
  rw [status, if_neg (by omega), build_packet_eq h]
  simp only [checksum_eq]
  rfl

theorem next_packet_build {params : List Byte} (h : params.length ≤ 244) (id inst : Byte)
    (more : List Byte) :
    nextPacket (ftsBuildPacket id inst params ++ more) =
      (some (ftsBuildPacket id inst params), params.length + 6) := by
  have hsize := @length_build_packet id inst params h
  have hplen : (BitVec.ofNat 8 (params.length + 2)).toNat + 4 = params.length + 6 := by
    rw [BitVec.toNat_ofNat]
    omega
  have hnext := @next_packet_of (ftsBuildPacket id inst params ++ more) 0 (params.length + 6)
    (by rw [build_packet_eq h]; rfl) (by rw [build_packet_eq h, ← hplen]; rfl)
    (by rw [List.length_append, hsize]; omega)
  rw [hnext, slice, List.drop_zero, ← hsize, List.take_left, Nat.zero_add]

theorem serve_build {params : List Byte} (h : params.length ≤ 244) (regs : Regs)
    (id inst : Byte) :
    serve regs (ftsBuildPacket id inst params) = execute regs id inst params := by
  have hbody : (ftsBuildPacket id inst params).getLast? = some (ftsChecksum
      (id :: BitVec.ofNat 8 (params.length + 2) :: inst :: params)) := by
    rw [build_packet_eq h, List.getLast?_append]
    rfl
  have htail : ((ftsBuildPacket id inst params).drop 2).dropLast =
      id :: BitVec.ofNat 8 (params.length + 2) :: inst :: params := by
    rw [build_packet_eq h]
    exact List.dropLast_concat
  have hparams : ((ftsBuildPacket id inst params).drop 5).dropLast = params := by
    rw [build_packet_eq h]
    exact List.dropLast_concat
  have hid : (ftsBuildPacket id inst params)[2]? = some id := by
    rw [build_packet_eq h]
    rfl
  have hinst : (ftsBuildPacket id inst params)[4]? = some inst := by
    rw [build_packet_eq h]
    rfl
  rw [serve, hid, hinst, hbody]
  simp only [htail, hparams, checksum_eq, ne_eq, not_true, if_false]

end FakeBus
