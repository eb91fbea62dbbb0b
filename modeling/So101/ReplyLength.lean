import So101.ReplyStream
import So101.SyncRead

/-!
# Replies of the wrong length

The copy is capped inside `rx_status` and the length is compared by its callers, with what was
copied: a reply that is too short is an error, one that is too long passes for a good one.
-/
namespace ReplyLength

open ServoBus (Byte)
open ByteRange PacketCodec BusDriver ReceiveLoop ReplyStream

def firstPacket (bus : FtsBus) : Option FtsPacket :=
  match ftsParseStatus bus.rxbuf with
  | (some (.ok pkt), _) => some pkt
  | _ =>
    match _h : rxTurn bus 0 0 with
    | .inl _ => none
    | .inr bus => firstPacket bus
termination_by (pending bus.arrivals, bus.rxbuf.length)
decreasing_by exact rx_turn_nearer _h

def acceptedPacket (bus : FtsBus) (expectId : Byte) : Option FtsPacket :=
  (firstPacket bus).filter fun pkt => pkt.id = expectId

theorem first_packet_of_parse {bus : FtsBus} {pkt : FtsPacket} {n : ℕ}
    (h : ftsParseStatus bus.rxbuf = (some (.ok pkt), n)) : firstPacket bus = some pkt := by
  rw [firstPacket, h]

theorem rx_turn_any {bus : FtsBus} (h : ∀ pkt, (ftsParseStatus bus.rxbuf).1 ≠ some (.ok pkt))
    (expectId : Byte) (cap : ℕ) : rxTurn bus expectId cap = rxTurn bus 0 0 := by
  unfold rxTurn
  split
  · rename_i pkt n hparse
    exact absurd (by rw [hparse]) (h pkt)
  · rfl
  · rfl

theorem parse_of_turn {bus next : FtsBus} {expectId : Byte} {cap : ℕ}
    (h : rxTurn bus expectId cap = .inr next) (pkt : FtsPacket) :
    (ftsParseStatus bus.rxbuf).1 ≠ some (.ok pkt) := by
  intro hok
  obtain ⟨n, hparse⟩ := parse_with hok
  simp only [rxTurn, hparse] at h
  split_ifs at h

theorem parse_of_ok {bus next : FtsBus} {expectId : Byte} {cap : ℕ} {got : List Byte}
    (h : rxTurn bus expectId cap = .inl (.ok got, next)) :
    ∃ pkt, (ftsParseStatus bus.rxbuf).1 = some (.ok pkt) := by
  unfold rxTurn at h
  split at h
  · rename_i pkt n hparse
    exact ⟨pkt, by rw [hparse]⟩
  · cases h
  · split at h
    · cases h
    · split at h
      · cases h
      · cases h
      · cases h

theorem first_packet_of_turn {bus next : FtsBus} {expectId : Byte} {cap : ℕ}
    (h : rxTurn bus expectId cap = .inr next) : firstPacket bus = firstPacket next := by
  have hnone := parse_of_turn h
  rw [rx_turn_any hnone] at h
  rw [firstPacket]
  split
  · rename_i hparse
    exact absurd (by rw [hparse]) (hnone _)
  · split
    · rename_i hturn
      rw [h] at hturn
      cases hturn
    · rename_i hturn
      rw [h] at hturn
      cases hturn
      rfl

theorem first_packet_of_end {bus : FtsBus} {expectId : Byte} {cap : ℕ} {r : RxResult}
    (hnone : ∀ pkt, (ftsParseStatus bus.rxbuf).1 ≠ some (.ok pkt))
    (h : rxTurn bus expectId cap = .inl r) : firstPacket bus = none := by
  rw [rx_turn_any hnone] at h
  rw [firstPacket]
  split
  · rename_i hparse
    exact absurd (by rw [hparse]) (hnone _)
  · split
    · rfl
    · rename_i hturn
      rw [h] at hturn
      cases hturn

theorem rx_status_accepted (bus : FtsBus) (expectId : Byte) (cap : ℕ) :
    (rxStatus bus expectId cap).1.toOption =
      (acceptedPacket bus expectId).map fun pkt => pkt.data.take cap := by
  fun_induction rxStatus bus expectId cap with
  | case1 bus result h =>
    by_cases hok : ∃ pkt, (ftsParseStatus bus.rxbuf).1 = some (.ok pkt)
    · obtain ⟨pkt, hpkt⟩ := hok
      obtain ⟨n, hparse⟩ := parse_with hpkt
      rw [acceptedPacket, first_packet_of_parse hparse]
      simp only [rxTurn, hparse] at h
      by_cases hid : pkt.id = expectId
      · rw [if_neg (not_not.mpr hid)] at h
        cases h
        simp [hid, Except.toOption]
      · rw [if_pos hid] at h
        cases h
        simp [hid, Except.toOption]
    · have hnone : ∀ pkt, (ftsParseStatus bus.rxbuf).1 ≠ some (.ok pkt) :=
        fun pkt hpkt => hok ⟨pkt, hpkt⟩
      rw [acceptedPacket, first_packet_of_end hnone h]
      rcases result with ⟨_ | got, next⟩
      · rfl
      · exact absurd (parse_of_ok h) hok
  | case2 bus next h ih =>
    rw [ih, acceptedPacket, acceptedPacket, first_packet_of_turn h]

/-- The packet accepted by `fts_read`, once its request is out. -/
def readAccepts (bus : FtsBus) (wire : Wire) (id addr len : Byte) : Option FtsPacket :=
  if len = 0 then none
  else
    match txPacket bus wire (ftsBuildPacket id ftsInstRead [addr, len]) with
    | (.ok (), bus) => acceptedPacket bus id
    | (.error _, _) => none

theorem copied_length {data got : List Byte} {len : ℕ} (h : data.take len = got) :
    got.length = len ↔ len ≤ data.length := by
  rw [← h, List.length_take]
  omega

theorem fts_read_ok_iff (bus : FtsBus) (wire : Wire) (id addr len : Byte) (out : List Byte) :
    (ftsRead bus wire id addr len out).1 = .ok () ↔
      ∃ pkt, readAccepts bus wire id addr len = some pkt ∧ len.toNat ≤ pkt.data.length := by
  unfold ftsRead readAccepts
  by_cases hlen : len = 0
  · rw [if_pos hlen, if_pos hlen]
    simp
  rw [if_neg hlen, if_neg hlen]
  cases htx : txPacket bus wire (ftsBuildPacket id ftsInstRead [addr, len]) with
  | mk rc mid =>
    rcases rc with e | ⟨⟩
    · simp
    · have haccepted := rx_status_accepted mid id len.toNat
      simp only
      cases hrx : rxStatus mid id len.toNat with
      | mk r next =>
        rw [hrx] at haccepted
        rcases r with e | got
        · have hnone : acceptedPacket mid id = none := Option.map_eq_none_iff.mp haccepted.symm
          simp [hnone]
        · obtain ⟨pkt, hpkt, hgot⟩ := Option.map_eq_some_iff.mp haccepted.symm
          simp only [hpkt, Option.some.injEq, exists_eq_left', ← copied_length hgot]
          split_ifs with hwhole
          · simp [hwhole]
          · simp [hwhole]

/-- The packets that the loop over the servos accepts, one for each turn it takes. -/
def loopAccepts (len : ℕ) : List Byte → FtsBus → List (Option FtsPacket)
  | [], _ => []
  | id :: ids, bus =>
    acceptedPacket bus id ::
      if (rxStatus bus id len).1 = .error .timeout then []
      else loopAccepts len ids (rxStatus bus id len).2

def syncReadAccepts (bus : FtsBus) (wire : Wire) (ids : List Byte) (addr len : Byte) :
    List (Option FtsPacket) :=
  if syncReadRefuses (BitVec.ofNat 64 ids.length) len then []
  else
    match txPacket bus wire (syncReadPacket ids addr len) with
    | (.ok (), bus) => loopAccepts len.toNat ids bus
    | (.error _, _) => []

/-- Every reply is there and has at least `len` bytes of data. -/
def LongEnough (len : ℕ) (replies : List (Option FtsPacket)) : Prop :=
  ∀ a ∈ replies, ∃ pkt, a = some pkt ∧ len ≤ pkt.data.length

theorem loop_ok_iff (len : ℕ) (ids : List Byte) (k : ℕ) (bus : FtsBus) (out : List Byte)
    (firstErr : Option FtsError) :
    (syncReadLoop len ids k bus out firstErr).1 = none ↔
      firstErr = none ∧ LongEnough len (loopAccepts len ids bus) := by
  induction ids generalizing k bus out firstErr with
  | nil => simp [syncReadLoop, loopAccepts, LongEnough]
  | cons id ids ih =>
    have haccepted := rx_status_accepted bus id len
    unfold syncReadLoop loopAccepts
    cases hrx : rxStatus bus id len with
    | mk r next =>
      rw [hrx] at haccepted
      rcases r with e | got
      · have hnone : acceptedPacket bus id = none := Option.map_eq_none_iff.mp haccepted.symm
        have hshort : ∀ rest, ¬ LongEnough len (none :: rest) := by
          intro rest hall
          obtain ⟨pkt, hpkt, _⟩ := hall none List.mem_cons_self
          cases hpkt
        simp only [hnone, hshort, and_false, iff_false]
        by_cases htimeout : e = .timeout
        · rw [if_pos htimeout]
          cases firstErr <;> simp
        · rw [if_neg htimeout, ih]
          cases firstErr <;> simp
      · obtain ⟨pkt, hpkt, hgot⟩ := Option.map_eq_some_iff.mp haccepted.symm
        simp only [hpkt, ih, LongEnough, List.forall_mem_cons, Option.some.injEq, exists_eq_left',
          reduceCtorEq, if_false, ← copied_length hgot, Option.or_eq_none_iff]
        by_cases hwhole : got.length = len
        · simp [hwhole]
        · simp [hwhole]

theorem loop_accepts_length {len : ℕ} {ids : List Byte} {bus : FtsBus}
    (h : LongEnough len (loopAccepts len ids bus)) :
    (loopAccepts len ids bus).length = ids.length := by
  induction ids generalizing bus with
  | nil => rfl
  | cons id ids ih =>
    unfold loopAccepts at h ⊢
    obtain ⟨pkt, hpkt, _⟩ := h _ List.mem_cons_self
    have haccepted := rx_status_accepted bus id len
    rw [hpkt] at haccepted
    have hno : (rxStatus bus id len).1 ≠ .error .timeout := by
      intro htimeout
      rw [htimeout] at haccepted
      cases haccepted
    rw [if_neg hno] at h ⊢
    rw [List.length_cons, List.length_cons, ih fun a ha => h a (List.mem_cons_of_mem _ ha)]

theorem fts_sync_read_ok {bus : FtsBus} {wire : Wire} {ids : List Byte} {addr len : Byte}
    {out : List Byte} (h : (ftsSyncRead bus wire ids addr len out).1 = .ok ()) :
    LongEnough len.toNat (syncReadAccepts bus wire ids addr len) ∧
      (syncReadAccepts bus wire ids addr len).length = ids.length := by
  unfold ftsSyncRead at h
  unfold syncReadAccepts
  split_ifs at h ⊢
  cases htx : txPacket bus wire (syncReadPacket ids addr len) with
  | mk rc mid =>
    rw [htx] at h
    rcases rc with e | ⟨⟩
    · cases h
    · have hloop := loop_ok_iff len.toNat ids 0 mid out none
      simp only at h ⊢
      cases hrun : syncReadLoop len.toNat ids 0 mid out none with
      | mk first rest =>
        rw [hrun] at h hloop
        cases first with
        | none =>
          obtain ⟨_, hlong⟩ := hloop.mp rfl
          exact ⟨hlong, loop_accepts_length hlong⟩
        | some e => cases h

theorem fts_sync_read_of_long {bus : FtsBus} {wire : Wire} {ids : List Byte} {addr len : Byte}
    (out : List Byte) (hsome : syncReadAccepts bus wire ids addr len ≠ [])
    (h : LongEnough len.toNat (syncReadAccepts bus wire ids addr len)) :
    (ftsSyncRead bus wire ids addr len out).1 = .ok () := by
  unfold syncReadAccepts at h hsome
  unfold ftsSyncRead
  by_cases hargs : syncReadRefuses (BitVec.ofNat 64 ids.length) len = true
  · rw [if_pos hargs] at hsome
    exact absurd rfl hsome
  rw [if_neg hargs] at h hsome ⊢
  cases htx : txPacket bus wire (syncReadPacket ids addr len) with
  | mk rc mid =>
    rw [htx] at h hsome
    rcases rc with e | ⟨⟩
    · exact absurd rfl hsome
    · have hloop := (loop_ok_iff len.toNat ids 0 mid out none).mpr ⟨rfl, h⟩
      simp only
      cases hrun : syncReadLoop len.toNat ids 0 mid out none with
      | mk first rest =>
        rw [hrun] at hloop
        obtain rfl : first = none := hloop
        rfl

theorem first_packet_ahead {bus : FtsBus} (h : bus.rxbuf.length ≤ ftsRxbufSize) :
    firstPacket bus = (nextPacket (ahead bus)).map Prod.fst := by
  fun_induction firstPacket bus with
  | case1 bus pkt n hparse =>
    rw [ahead, next_packet_of_ok h hparse]
    rfl
  | case2 bus r hturn hnone =>
    have hno : ∀ pkt, (ftsParseStatus bus.rxbuf).1 ≠ some (.ok pkt) := by
      intro pkt hpkt
      obtain ⟨n, hparse⟩ := parse_with hpkt
      exact hnone pkt n hparse
    rw [(next_packet_of_end h hno hturn).1]
    rfl
  | case3 bus mid hturn hnone ih =>
    obtain ⟨hmid, hahead⟩ := rx_turn_ahead h hturn
    rw [ih hmid, hahead]

/-- The servo's packet is accepted if it is the next one. -/
theorem accepted_iff {bus : FtsBus} (h : bus.rxbuf.length ≤ ftsRxbufSize) (id : Byte)
    (pkt : FtsPacket) : acceptedPacket bus id = some pkt ↔
      packetsIn 1 (ahead bus) = [pkt] ∧ pkt.id = id := by
  rw [acceptedPacket, first_packet_ahead h]
  cases hnext : nextPacket (ahead bus) with
  | none => simp [packets_in_none 1 hnext]
  | some found =>
    obtain ⟨pkt', rest⟩ := found
    rw [packets_in_succ hnext, packetsIn]
    simp only [Option.map_some, Option.filter_eq_some_iff, Option.some.injEq, decide_eq_true_eq,
      List.cons.injEq, and_true]

theorem request_length_le (id inst : Byte) (params : List Byte) :
    (ftsBuildPacket id inst params).length ≤ ftsRxbufSize := by
  by_cases hfits : params.length ≤ 244
  · rw [length_build_packet hfits, ftsRxbufSize]
    omega
  · have hlong : params.length + 6 > ftsMaxPkt := by
      rw [ftsMaxPkt]
      omega
    rw [ftsBuildPacket, if_pos hlong]
    exact Nat.zero_le _

theorem read_accepts_iff (bus : FtsBus) (wire : Wire) (id addr len : Byte) (pkt : FtsPacket) :
    readAccepts bus wire id addr len = some pkt ↔ len ≠ 0 ∧
      ∃ bytes, replyBytes bus.echo wire (ftsBuildPacket id ftsInstRead [addr, len]).length =
        some bytes ∧ packetsIn 1 bytes = [pkt] ∧ pkt.id = id := by
  unfold readAccepts
  by_cases hlen : len = 0
  · simp [hlen]
  rw [if_neg hlen]
  have hsent := tx_packet_leaves bus wire (request_length_le id ftsInstRead [addr, len])
  cases htx : txPacket bus wire (ftsBuildPacket id ftsInstRead [addr, len]) with
  | mk rc mid =>
    rw [htx] at hsent
    cases hbytes : replyBytes bus.echo wire (ftsBuildPacket id ftsInstRead [addr, len]).length with
    | none =>
      rw [hbytes] at hsent
      obtain ⟨e, rfl⟩ := hsent
      simp
    | some bytes =>
      rw [hbytes] at hsent
      obtain ⟨rfl, rfl, hroom⟩ := hsent
      refine (accepted_iff hroom id pkt).trans ⟨fun h => ⟨hlen, _, rfl, h⟩, ?_⟩
      rintro ⟨_, _, heq, h⟩
      cases heq
      exact h

theorem loop_accepts_eq {len : ℕ} {ids : List Byte} {bus : FtsBus}
    (h : bus.rxbuf.length ≤ ftsRxbufSize)
    (hids : (packetsIn ids.length (ahead bus)).map FtsPacket.id = ids) :
    loopAccepts len ids bus = (packetsIn ids.length (ahead bus)).map some := by
  induction ids generalizing bus with
  | nil => rfl
  | cons id ids ih =>
    have htells : Tells id len (nextPacket (ahead bus)) (rxStatus bus id len) :=
      rx_status_tells h
    cases hnext : nextPacket (ahead bus) with
    | none =>
      rw [packets_in_none _ hnext] at hids
      cases hids
    | some found =>
      obtain ⟨pkt, rest⟩ := found
      rw [hnext] at htells
      obtain ⟨hresult, hrest, hroom⟩ := htells
      rw [List.length_cons, packets_in_succ hnext, List.map_cons, List.cons.injEq] at hids
      obtain ⟨hid, htail⟩ := hids
      rw [if_pos hid] at hresult
      have haccepted : acceptedPacket bus id = some pkt :=
        (accepted_iff h id pkt).mpr ⟨by rw [packets_in_succ hnext, packetsIn], hid⟩
      rw [loopAccepts, haccepted, if_neg (by rw [hresult]; simp), List.length_cons,
        packets_in_succ hnext, List.map_cons, ih hroom (by rwa [hrest]), hrest]

/-- A loop in which every reply is long enough has met the servos in their order. -/
theorem ids_of_long {len : ℕ} {ids : List Byte} {bus : FtsBus}
    (h : bus.rxbuf.length ≤ ftsRxbufSize) (hlong : LongEnough len (loopAccepts len ids bus)) :
    (packetsIn ids.length (ahead bus)).map FtsPacket.id = ids := by
  induction ids generalizing bus with
  | nil => rfl
  | cons id ids ih =>
    have htells : Tells id len (nextPacket (ahead bus)) (rxStatus bus id len) :=
      rx_status_tells h
    unfold loopAccepts at hlong
    obtain ⟨pkt, haccepted, _⟩ := hlong _ List.mem_cons_self
    cases hnext : nextPacket (ahead bus) with
    | none =>
      rw [acceptedPacket, first_packet_ahead h, hnext] at haccepted
      cases haccepted
    | some found =>
      obtain ⟨pkt', rest⟩ := found
      obtain ⟨hone, hid⟩ := (accepted_iff h id pkt).mp haccepted
      rw [packets_in_succ hnext, packetsIn, List.cons.injEq] at hone
      obtain rfl := hone.1
      rw [hnext] at htells
      obtain ⟨hresult, hrest, hroom⟩ := htells
      rw [if_pos hid] at hresult
      rw [if_neg (by rw [hresult]; simp)] at hlong
      have htail := ih hroom fun a ha => hlong a (List.mem_cons_of_mem _ ha)
      rw [hrest] at htail
      rw [List.length_cons, packets_in_succ hnext, List.map_cons, hid, htail]

theorem sync_read_accepts_of_ids {bus : FtsBus} {wire : Wire} {ids : List Byte} {addr len : Byte}
    (hargs : syncReadRefuses (BitVec.ofNat 64 ids.length) len = false) {bytes : List Byte}
    (hbytes : replyBytes bus.echo wire (syncReadPacket ids addr len).length = some bytes)
    (hids : (packetsIn ids.length bytes).map FtsPacket.id = ids) :
    syncReadAccepts bus wire ids addr len = (packetsIn ids.length bytes).map some := by
  have hsent := tx_packet_leaves bus wire
    (request_length_le ftsBroadcastId ftsInstSyncRead (addr :: len :: ids))
  change Leaves (replyBytes bus.echo wire (syncReadPacket ids addr len).length)
    (txPacket bus wire (syncReadPacket ids addr len)) at hsent
  rw [hbytes] at hsent
  unfold syncReadAccepts
  cases htx : txPacket bus wire (syncReadPacket ids addr len) with
  | mk rc mid =>
    rw [htx] at hsent
    obtain ⟨rfl, rfl, hroom⟩ := hsent
    rw [hargs, if_neg (by decide)]
    exact loop_accepts_eq hroom hids

theorem ids_of_accepts {bus : FtsBus} {wire : Wire} {ids : List Byte} {addr len : Byte}
    (hsome : syncReadAccepts bus wire ids addr len ≠ [])
    (hlong : LongEnough len.toNat (syncReadAccepts bus wire ids addr len)) :
    syncReadRefuses (BitVec.ofNat 64 ids.length) len = false ∧
      ∃ bytes, replyBytes bus.echo wire (syncReadPacket ids addr len).length = some bytes ∧
        (packetsIn ids.length bytes).map FtsPacket.id = ids := by
  have hsent := tx_packet_leaves bus wire
    (request_length_le ftsBroadcastId ftsInstSyncRead (addr :: len :: ids))
  change Leaves (replyBytes bus.echo wire (syncReadPacket ids addr len).length)
    (txPacket bus wire (syncReadPacket ids addr len)) at hsent
  unfold syncReadAccepts at hsome hlong
  cases hargs : syncReadRefuses (BitVec.ofNat 64 ids.length) len with
  | true =>
    rw [if_pos hargs] at hsome
    exact absurd rfl hsome
  | false =>
    rw [hargs, if_neg (by decide)] at hsome hlong
    refine ⟨rfl, ?_⟩
    cases htx : txPacket bus wire (syncReadPacket ids addr len) with
    | mk rc mid =>
      rw [htx] at hsent hsome hlong
      cases hbytes : replyBytes bus.echo wire (syncReadPacket ids addr len).length with
      | none =>
        rw [hbytes] at hsent
        obtain ⟨e, rfl⟩ := hsent
        exact absurd rfl hsome
      | some bytes =>
        rw [hbytes] at hsent
        obtain ⟨rfl, rfl, hroom⟩ := hsent
        exact ⟨_, rfl, ids_of_long hroom hlong⟩

theorem read_length_iff (bus : FtsBus) (wire : Wire) (id addr len : Byte) (out : List Byte) :
    ((ftsRead bus wire id addr len out).1 = .ok () →
        ∃ pkt, readAccepts bus wire id addr len = some pkt ∧ pkt.data.length = len.toNat) ↔
      (len ≠ 0 → ∀ bytes pkt,
        replyBytes bus.echo wire (ftsBuildPacket id ftsInstRead [addr, len]).length = some bytes →
        packetsIn 1 bytes = [pkt] → pkt.id = id → pkt.data.length ≤ len.toNat) := by
  rw [fts_read_ok_iff]
  constructor
  · intro hexact hlen bytes pkt hbytes hfirst hid
    by_contra hlong
    have hpkt :=
      (read_accepts_iff bus wire id addr len pkt).mpr ⟨hlen, bytes, hbytes, hfirst, hid⟩
    obtain ⟨pkt', hpkt', hsame⟩ := hexact ⟨pkt, hpkt, by omega⟩
    rw [hpkt] at hpkt'
    cases hpkt'
    omega
  · rintro hshort ⟨pkt, hpkt, hlen⟩
    obtain ⟨hne, bytes, hbytes, hfirst, hid⟩ :=
      (read_accepts_iff bus wire id addr len pkt).mp hpkt
    exact ⟨pkt, hpkt, le_antisymm (hshort hne bytes pkt hbytes hfirst hid) hlen⟩

theorem sync_read_length_iff (bus : FtsBus) (wire : Wire) (addr len : Byte)
    (ids out : List Byte) :
    ((ftsSyncRead bus wire ids addr len out).1 = .ok () →
        (syncReadAccepts bus wire ids addr len).length = ids.length ∧
          ∀ a ∈ syncReadAccepts bus wire ids addr len,
            ∃ pkt, a = some pkt ∧ pkt.data.length = len.toNat) ↔
      (syncReadRefuses (BitVec.ofNat 64 ids.length) len = false → ∀ bytes,
        replyBytes bus.echo wire (syncReadPacket ids addr len).length = some bytes →
        (packetsIn ids.length bytes).map FtsPacket.id = ids →
        (∀ pkt ∈ packetsIn ids.length bytes, len.toNat ≤ pkt.data.length) →
        ∀ pkt ∈ packetsIn ids.length bytes, pkt.data.length ≤ len.toNat) := by
  constructor
  · intro hexact hargs bytes hbytes hids hlong pkt hpkt
    have haccepts := sync_read_accepts_of_ids hargs hbytes hids
    have hmem : some pkt ∈ syncReadAccepts bus wire ids addr len := by
      rw [haccepts]
      exact List.mem_map_of_mem hpkt
    have hall : LongEnough len.toNat (syncReadAccepts bus wire ids addr len) := by
      rw [haccepts]
      intro a ha
      obtain ⟨q, hq, rfl⟩ := List.mem_map.mp ha
      exact ⟨q, rfl, hlong q hq⟩
    obtain ⟨_, hequal⟩ := hexact (fts_sync_read_of_long out (List.ne_nil_of_mem hmem) hall)
    obtain ⟨q, hq, hsame⟩ := hequal _ hmem
    cases hq
    exact hsame.le
  · intro hshort hok
    obtain ⟨hlong, hcount⟩ := fts_sync_read_ok hok
    refine ⟨hcount, fun a ha => ?_⟩
    obtain ⟨pkt, rfl, hlen⟩ := hlong a ha
    obtain ⟨hargs, bytes, hbytes, hids⟩ := ids_of_accepts (List.ne_nil_of_mem ha) hlong
    have haccepts := sync_read_accepts_of_ids hargs hbytes hids
    rw [haccepts] at ha hlong
    obtain ⟨q, hq, heq⟩ := List.mem_map.mp ha
    cases heq
    refine ⟨pkt, rfl, le_antisymm (hshort hargs bytes hbytes hids ?_ pkt hq) hlen⟩
    intro q hq
    obtain ⟨q', hq', hlen'⟩ := hlong (some q) (List.mem_map_of_mem hq)
    cases hq'
    exact hlen'

/-- A read that succeeds has accepted a packet with `len` bytes exactly when the first packet
among the bytes that arrive is not a longer one of the servo. For a sync-read these are the
first packets, from the servos in their order and none of them shorter. -/
theorem reply_length (bus : FtsBus) (wire : Wire) (id addr len : Byte) (ids out : List Byte) :
    (((ftsRead bus wire id addr len out).1 = .ok () →
        ∃ pkt, readAccepts bus wire id addr len = some pkt ∧ pkt.data.length = len.toNat) ↔
      (len ≠ 0 → ∀ bytes pkt,
        replyBytes bus.echo wire (ftsBuildPacket id ftsInstRead [addr, len]).length = some bytes →
        packetsIn 1 bytes = [pkt] → pkt.id = id → pkt.data.length ≤ len.toNat)) ∧
    (((ftsSyncRead bus wire ids addr len out).1 = .ok () →
        (syncReadAccepts bus wire ids addr len).length = ids.length ∧
          ∀ a ∈ syncReadAccepts bus wire ids addr len,
            ∃ pkt, a = some pkt ∧ pkt.data.length = len.toNat) ↔
      (syncReadRefuses (BitVec.ofNat 64 ids.length) len = false → ∀ bytes,
        replyBytes bus.echo wire (syncReadPacket ids addr len).length = some bytes →
        (packetsIn ids.length bytes).map FtsPacket.id = ids →
        (∀ pkt ∈ packetsIn ids.length bytes, len.toNat ≤ pkt.data.length) →
        ∀ pkt ∈ packetsIn ids.length bytes, pkt.data.length ≤ len.toNat)) :=
  ⟨read_length_iff bus wire id addr len out, sync_read_length_iff bus wire addr len ids out⟩

def fourBytes : Wire where
  writeFailsAfter := none
  arrivals := [.bytes (packetBytes ⟨1, 0, [10, 20, 30, 40]⟩)]

def answered (inst : Byte) (params : List Byte) (id : Byte) : FtsBus :=
  { SyncRead.opened with
    arrivals := fourBytes.arrivals
    written := ftsBuildPacket id inst params
    stats := ⟨1, 0, 0, 0, 0⟩ }

theorem tx_answered (id inst : Byte) (params : List Byte) :
    txPacket SyncRead.opened fourBytes (ftsBuildPacket id inst params) =
      (.ok (), answered inst params id) := rfl

theorem answered_accepted (id inst : Byte) (params : List Byte) :
    (rxStatus (answered inst params id) 1 2).1 = .ok [10, 20] ∧
      acceptedPacket (answered inst params id) 1 = some ⟨1, 0, [10, 20, 30, 40]⟩ := by
  have hwait : rxTurn (answered inst params id) 1 2 = .inr
      { answered inst params id with
        arrivals := []
        rxbuf := packetBytes ⟨1, 0, [10, 20, 30, 40]⟩ } := rfl
  have hparse : ftsParseStatus (packetBytes ⟨1, 0, [10, 20, 30, 40]⟩) =
      (some (.ok ⟨1, 0, [10, 20, 30, 40]⟩), 10) := by decide
  constructor
  · rw [rx_status_of_turn hwait, rx_status_of_end (by rw [rxTurn, hparse]; rfl)]
    rfl
  · rw [acceptedPacket, first_packet_of_turn hwait, first_packet_of_parse hparse]
    rfl

/-- The read and the sync-read succeed with two of the four bytes. -/
theorem reply_too_long :
    (ftsRead SyncRead.opened fourBytes 1 56 2 [0, 0]).1 = .ok () ∧
      readAccepts SyncRead.opened fourBytes 1 56 2 = some ⟨1, 0, [10, 20, 30, 40]⟩ ∧
      (ftsSyncRead SyncRead.opened fourBytes [1] 56 2 [0, 0]).1 = .ok () ∧
      syncReadAccepts SyncRead.opened fourBytes [1] 56 2 =
        [some ⟨1, 0, [10, 20, 30, 40]⟩] := by
  have hread : readAccepts SyncRead.opened fourBytes 1 56 2 =
      some ⟨1, 0, [10, 20, 30, 40]⟩ := by
    rw [readAccepts, if_neg (by decide), tx_answered]
    exact (answered_accepted _ _ _).2
  have hsync : syncReadAccepts SyncRead.opened fourBytes [1] 56 2 =
      [some ⟨1, 0, [10, 20, 30, 40]⟩] := by
    obtain ⟨hok, haccepted⟩ := answered_accepted ftsBroadcastId ftsInstSyncRead [56, 2, 1]
    rw [syncReadAccepts, if_neg (by decide), syncReadPacket, tx_answered]
    simp only [loopAccepts]
    rw [show (2 : Byte).toNat = 2 from rfl, hok, haccepted]
    rfl
  refine ⟨?_, hread, ?_, hsync⟩
  · exact (fts_read_ok_iff _ _ _ _ _ _).mpr ⟨_, hread, by decide⟩
  · apply fts_sync_read_of_long
    · rw [hsync]
      exact List.cons_ne_nil _ _
    · rw [hsync]
      intro a ha
      exact ⟨_, List.mem_singleton.mp ha, by decide⟩

end ReplyLength
