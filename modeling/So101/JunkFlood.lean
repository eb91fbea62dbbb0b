import Mathlib.Data.List.Chain
import So101.ReceiveLoop

/-!
# Junk in front of a reply

Bytes that the parser is done with stay in the buffer while the receive loop waits, and a full
buffer is thrown away. A reply survives junk of any length that no multiple of the buffer size
ends within.
-/
namespace JunkFlood

open ServoBus (Byte)
open PacketCodec BusDriver ReceiveLoop StreamDecoder

def NotPair (b c : Byte) : Prop := ¬ (b = 0xFF#8 ∧ c = 0xFF#8)

/-- Junk in which no header starts, whatever follows. -/
structure Clean (clean : List Byte) : Prop where
  pairless : clean.IsChain NotPair
  last : clean.getLast? ≠ some 0xFF#8

theorem parse_pairless {buf : List Byte} (h : buf.IsChain NotPair) :
    (ftsParseStatus buf).1 = none := by
  induction buf with
  | nil => rw [parse_nil]
  | cons b rest ih =>
    by_cases hskips : Skips b rest
    · rw [parse_skip hskips, shift_fst]
      exact ih h.of_cons
    · have hb : b = 0xFF#8 := by
        by_contra hb
        exact hskips (Or.inl hb)
      cases rest with
      | nil => rw [hb, parse_lone]
      | cons c rest =>
        have hc : c = 0xFF#8 := by
          by_contra hc
          exact hskips (Or.inr ⟨c, rest, rfl, hc⟩)
        exact absurd ⟨hb, hc⟩ (List.isChain_cons_cons.mp h).1

theorem parse_clean {clean : List Byte} (h : Clean clean) (buf : List Byte) :
    ftsParseStatus (clean ++ buf) = (ftsParseStatus buf).shift clean.length := by
  induction clean with
  | nil => simp [Answer.shift]
  | cons b clean ih =>
    obtain ⟨hpairless, hlast⟩ := h
    cases clean with
    | nil =>
      have hb : b ≠ 0xFF#8 := by simpa using hlast
      exact parse_skip (Or.inl hb)
    | cons c clean =>
      obtain ⟨hpair, htail⟩ := List.isChain_cons_cons.mp hpairless
      have hskips : Skips b (c :: clean ++ buf) := by
        by_cases hb : b = 0xFF#8
        · exact Or.inr ⟨c, clean ++ buf, rfl, fun hc => hpair ⟨hb, hc⟩⟩
        · exact Or.inl hb
      have hrest := ih ⟨htail, by simpa using hlast⟩
      rw [List.cons_append, parse_skip hskips, hrest, List.length_cons]
      simp only [Answer.shift, Prod.mk.injEq, true_and, List.length_cons]
      omega

theorem parse_extra {buf rest : List Byte} {k : ℕ} {pkt : FtsPacket} (h : WellFormed pkt)
    (hstream : buf ++ rest = List.replicate (k + 1) 0xFF#8 ++ packetBytes pkt) :
    (ftsParseStatus buf = (some (.error .badPkt), 1) ∧ 4 ≤ buf.length) ∨
      ((ftsParseStatus buf).1 = none ∧ buf.length < 4) := by
  obtain ⟨tail, htail⟩ : ∃ tail, List.replicate (k + 1) 0xFF#8 ++ packetBytes pkt =
      0xFF#8 :: 0xFF#8 :: 0xFF#8 :: tail := by
    rw [packetBytes, build_packet_eq h.2]
    rcases k with _ | _ | k
    · exact ⟨_, rfl⟩
    · exact ⟨_, rfl⟩
    · exact ⟨_, rfl⟩
  rw [htail] at hstream
  rcases buf with _ | ⟨b₀, _ | ⟨b₁, _ | ⟨b₂, _ | ⟨b₃, buf⟩⟩⟩⟩
  · right
    exact ⟨by rw [parse_nil], by simp⟩
  · right
    simp only [List.cons_append, List.cons.injEq] at hstream
    obtain ⟨rfl, _⟩ := hstream
    exact ⟨by rw [parse_lone], by simp⟩
  · right
    simp only [List.cons_append, List.cons.injEq] at hstream
    obtain ⟨rfl, rfl, _⟩ := hstream
    exact ⟨by rw [parse_short (by simp)], by simp⟩
  · right
    simp only [List.cons_append, List.cons.injEq] at hstream
    obtain ⟨rfl, rfl, _⟩ := hstream
    exact ⟨by rw [parse_short (by simp)], by simp⟩
  · left
    simp only [List.cons_append, List.cons.injEq] at hstream
    obtain ⟨rfl, rfl, rfl, _⟩ := hstream
    exact ⟨parse_bad fun hgood => hgood.1 rfl, by simp⟩

/-- What comes comes without a pause, and the buffer is one. -/
structure Ready (bus : FtsBus) : Prop where
  prompt : ∀ a ∈ bus.arrivals, Prompt a
  fits : bus.rxbuf.length ≤ ftsRxbufSize

theorem fill_rx_fits {bus : FtsBus} (h : bus.rxbuf.length ≤ ftsRxbufSize) :
    (fillRx bus).2.rxbuf.length ≤ ftsRxbufSize := by
  have hroom := make_room_lt bus
  unfold fillRx
  split
  · exact h
  · exact h
  · exact h
  · exact h
  · exact h
  · exact hroom.le
  · simp only
    split
    · exact hroom.le
    · rw [List.length_append, List.length_take]
      omega

theorem rx_turn_goes {bus : FtsBus} (h : Ready bus) (hwait : (ftsParseStatus bus.rxbuf).1 = none)
    (hmore : incoming bus.arrivals ≠ []) (expectId : Byte) (cap : ℕ) :
    ∃ next lost, rxTurn bus expectId cap = .inr next ∧ Ready next ∧ Sheds bus next lost ∧
      Flushes bus lost := by
  obtain ⟨next, hfill, hprompt⟩ := fill_rx_goes h.prompt hmore
  obtain ⟨lost, hsheds, hflush⟩ := fill_rx_sheds bus
  have hfits := fill_rx_fits h.fits
  rw [hfill] at hsheds hfits
  refine ⟨next, lost, ?_, ⟨hprompt, hfits⟩, hsheds, hflush⟩
  have hhead : bus.arrivals.head? ≠ some .expired := by
    intro hexpired
    exact h.prompt .expired (List.mem_of_head? hexpired)
  rw [rx_turn_wait hwait, if_neg hhead, hfill]

theorem rx_turn_rejects {bus : FtsBus} (h : Ready bus) {e : FtsError} {n : ℕ}
    (hparse : ftsParseStatus bus.rxbuf = (some (.error e), n)) (expectId : Byte) (cap : ℕ) :
    ∃ next lost, rxTurn bus expectId cap = .inr next ∧ Ready next ∧ Sheds bus next lost ∧
      lost.length = n := by
  have hle := parse_consumed_le bus.rxbuf
  rw [hparse] at hle
  refine ⟨skipCorrupt bus e n, bus.rxbuf.take n, by rw [rxTurn, hparse], ⟨?_, ?_⟩,
    skip_corrupt_sheds hle e, ?_⟩
  · rw [skip_corrupt_arrivals]
    exact h.prompt
  · rw [skip_corrupt_rxbuf, List.length_drop]
    have hfits := h.fits
    omega
  · rw [List.length_take, Nat.min_eq_left hle]

/-- `n` bytes are discarded and the packet is returned. -/
structure Delivered (bus : FtsBus) (pkt : FtsPacket) (cap n : ℕ) (r : RxResult) : Prop where
  result : r.1 = .ok (pkt.data.take cap)
  error : r.2.lastServoError = pkt.error
  discarded : r.2.stats.bytesDiscarded = bus.stats.bytesDiscarded + BitVec.ofNat 32 n

theorem Delivered.after {bus mid : FtsBus} {lost : List Byte} {pkt : FtsPacket} {cap n k : ℕ}
    {r : RxResult} (hsheds : Sheds bus mid lost) (h : Delivered mid pkt cap n r)
    (hk : k = lost.length + n) : Delivered bus pkt cap k r where
  result := h.result
  error := h.error
  discarded := by
    rw [h.discarded, hsheds.discarded, hk, BitVec.ofNat_add, BitVec.add_assoc]

theorem more_to_come {bus : FtsBus} (h : bus.rxbuf.length < (stream bus).length) :
    incoming bus.arrivals ≠ [] := by
  intro hnil
  rw [stream, hnil, List.append_nil] at h
  exact lt_irrefl _ h

theorem length_extra {bus : FtsBus} {k : ℕ} {pkt : FtsPacket} (hgood : WellFormed pkt)
    (hstream : stream bus = List.replicate k 0xFF#8 ++ packetBytes pkt) :
    (stream bus).length = k + (pkt.data.length + 6) := by
  rw [hstream, List.length_append, List.length_replicate, length_packet_bytes hgood]

theorem rx_status_extra {bus : FtsBus} (h : Ready bus) {k : ℕ} {pkt : FtsPacket}
    (hgood : WellFormed pkt)
    (hstream : stream bus = List.replicate k 0xFF#8 ++ packetBytes pkt) (cap : ℕ) :
    Delivered bus pkt cap k (rxStatus bus pkt.id cap) := by
  fun_induction rxStatus bus pkt.id cap generalizing k with
  | case1 bus r hend =>
    rcases k with _ | k
    · obtain ⟨next, hrx, hnext⟩ := rx_status_received cap hgood
        (hstream.trans (List.append_nil _).symm) h.prompt
      rw [rx_status_of_end hend] at hrx
      subst hrx
      exact ⟨rfl, hnext.error, by simpa using hnext.discarded⟩
    · obtain ⟨hparse, _⟩ | ⟨hwait, hshort⟩ := parse_extra hgood hstream
      · obtain ⟨_, _, hturn, _⟩ := rx_turn_rejects h hparse pkt.id cap
        rw [hend] at hturn
        cases hturn
      · have hlen := length_extra hgood hstream
        obtain ⟨_, _, hturn, _⟩ := rx_turn_goes h hwait (more_to_come (by omega)) pkt.id cap
        rw [hend] at hturn
        cases hturn
  | case2 bus next hgo ih =>
    rcases k with _ | k
    · obtain ⟨last, hrx, hlast⟩ := rx_status_received cap hgood
        (hstream.trans (List.append_nil _).symm) h.prompt
      rw [rx_status_of_turn hgo] at hrx
      rw [hrx]
      exact ⟨rfl, hlast.error, by simpa using hlast.discarded⟩
    · obtain ⟨hparse, _⟩ | ⟨hwait, hshort⟩ := parse_extra hgood hstream
      · obtain ⟨next', lost, hturn, hready, hsheds, hone⟩ := rx_turn_rejects h hparse pkt.id cap
        rw [hgo] at hturn
        cases hturn
        obtain ⟨b, rfl⟩ := List.length_eq_one_iff.mp hone
        have hrest := hsheds.stream
        rw [hstream, List.replicate_succ, List.cons_append, List.cons_append] at hrest
        have hdelivered := ih hready (List.cons.inj hrest).2.symm
        exact hdelivered.after hsheds (Nat.add_comm k 1)
      · have hlen := length_extra hgood hstream
        obtain ⟨next', lost, hturn, hready, hsheds, hflush⟩ :=
          rx_turn_goes h hwait (more_to_come (by omega)) pkt.id cap
        rw [hgo] at hturn
        cases hturn
        obtain rfl := hflush.eq_nil (by unfold ftsRxbufSize; omega)
        have hdelivered := ih hready (hsheds.stream.symm.trans hstream)
        exact hdelivered.after hsheds (Nat.zero_add _).symm

/-- Junk without a header, extra bytes FF and the packet are all there is to come. -/
structure Flood (clean : List Byte) (m : ℕ) (pkt : FtsPacket) (bus : FtsBus) : Prop where
  headerless : Clean clean
  good : WellFormed pkt
  ready : Ready bus
  stream : stream bus = clean ++ (List.replicate m 0xFF#8 ++ packetBytes pkt)

/-- Where the parser sees that a header is none, or a packet whole: up to there it waits. -/
def decidedAt (a m : ℕ) (pkt : FtsPacket) : ℕ :=
  if m = 0 then a + (pkt.data.length + 6) else a + 4

theorem decided_at_zero (a : ℕ) (pkt : FtsPacket) :
    decidedAt a 0 pkt = a + (pkt.data.length + 6) := rfl

theorem decided_at_succ (a k : ℕ) (pkt : FtsPacket) : decidedAt a (k + 1) pkt = a + 4 := rfl

theorem decided_at_bounds (a m : ℕ) (pkt : FtsPacket) :
    a + 4 ≤ decidedAt a m pkt ∧ decidedAt a m pkt ≤ a + m + (pkt.data.length + 6) := by
  cases m with
  | zero =>
    rw [decided_at_zero]
    constructor <;> omega
  | succ k =>
    rw [decided_at_succ]
    constructor <;> omega

/-- What a turn does as long as nothing of the junk has been rejected. -/
inductive FloodTurn (clean : List Byte) (m : ℕ) (pkt : FtsPacket) (cap : ℕ) (bus : FtsBus) :
    Prop where
  | received (r : RxResult) (hturn : rxTurn bus pkt.id cap = .inl r) (hm : m = 0)
      (hall : decidedAt clean.length m pkt ≤ bus.rxbuf.length)
      (h : Delivered bus pkt cap clean.length r)
  | rejected (next : FtsBus) (lost : List Byte) (hturn : rxTurn bus pkt.id cap = .inr next)
      (hall : decidedAt clean.length m pkt ≤ bus.rxbuf.length) (hready : Ready next)
      (hsheds : Sheds bus next lost) (hlost : lost.length = clean.length + 1) (hm : m ≠ 0)
  | waited (next : FtsBus) (lost : List Byte) (hturn : rxTurn bus pkt.id cap = .inr next)
      (hshort : bus.rxbuf.length < decidedAt clean.length m pkt) (hready : Ready next)
      (hsheds : Sheds bus next lost) (hflush : Flushes bus lost)

theorem flood_waits {clean : List Byte} {m : ℕ} {pkt : FtsPacket} {bus : FtsBus}
    (h : Flood clean m pkt bus) (hwait : (ftsParseStatus bus.rxbuf).1 = none)
    (hshort : bus.rxbuf.length < decidedAt clean.length m pkt) (cap : ℕ) :
    FloodTurn clean m pkt cap bus := by
  have hlen : (stream bus).length = clean.length + m + (pkt.data.length + 6) := by
    rw [h.stream, List.length_append, List.length_append, List.length_replicate,
      length_packet_bytes h.good, Nat.add_assoc]
  have hmore : incoming bus.arrivals ≠ [] := by
    apply more_to_come
    rw [hlen]
    exact hshort.trans_le (decided_at_bounds _ _ _).2
  obtain ⟨next, lost, hturn, hnext, hsheds, hflush⟩ := rx_turn_goes h.ready hwait hmore pkt.id cap
  exact .waited next lost hturn hshort hnext hsheds hflush

theorem flood_turn {clean : List Byte} {m : ℕ} {pkt : FtsPacket} {bus : FtsBus}
    (h : Flood clean m pkt bus) (cap : ℕ) : FloodTurn clean m pkt cap bus := by
  have hwaits := flood_waits h
  obtain ⟨hclean, hgood, hready, hstream⟩ := h
  have hbuf : bus.rxbuf <+: clean ++ (List.replicate m 0xFF#8 ++ packetBytes pkt) := by
    rw [← hstream]
    exact List.prefix_append _ _
  by_cases hjunk : bus.rxbuf.length ≤ clean.length
  · apply hwaits
    · apply parse_pairless
      obtain ⟨tail, htail⟩ :=
        List.prefix_of_prefix_length_le hbuf (List.prefix_append clean _) hjunk
      have hpairless := hclean.pairless
      rw [← htail] at hpairless
      exact hpairless.left_of_append
    · have hlow := (decided_at_bounds clean.length m pkt).1
      omega
  · obtain ⟨front, hfront⟩ :=
      List.prefix_of_prefix_length_le (List.prefix_append clean _) hbuf (not_le.mp hjunk).le
    have hrest : front ++ incoming bus.arrivals = List.replicate m 0xFF#8 ++ packetBytes pkt := by
      rw [stream, ← hfront, List.append_assoc] at hstream
      exact List.append_cancel_left hstream
    have hsize : bus.rxbuf.length = clean.length + front.length := by
      rw [← hfront, List.length_append]
    have hparse : ftsParseStatus bus.rxbuf = (ftsParseStatus front).shift clean.length := by
      rw [← hfront, parse_clean hclean]
    rcases m with _ | k
    · have hnext : front ++ incoming bus.arrivals = packetBytes pkt ++ [] := by
        rw [hrest, List.replicate_zero, List.nil_append, List.append_nil]
      obtain ⟨hwhole, _⟩ | ⟨hwait, hshort⟩ := parse_next hgood hnext
      · have hle := parse_consumed_le front
        rw [hwhole] at hle
        rw [hwhole, shift_mk] at hparse
        apply FloodTurn.received
        · rw [rxTurn, hparse]
          simp only [ne_eq, not_true, if_false, Nat.add_sub_cancel]
          rfl
        · rfl
        · rw [decided_at_zero, hsize]
          exact Nat.add_le_add_left hle _
        · exact ⟨rfl, rfl, rfl⟩
      · apply hwaits
        · rw [hparse, shift_fst, hwait]
        · rw [decided_at_zero]
          omega
    · obtain ⟨hbad, hall⟩ | ⟨hwait, hshort⟩ := parse_extra hgood hrest
      · rw [hbad, shift_mk] at hparse
        obtain ⟨next, lost, hturn, hnext, hsheds, hlost⟩ := rx_turn_rejects hready hparse pkt.id cap
        apply FloodTurn.rejected next lost hturn _ hnext hsheds hlost (Nat.succ_ne_zero k)
        rw [decided_at_succ]
        omega
      · apply hwaits
        · rw [hparse, shift_fst, hwait]
        · rw [decided_at_succ]
          omega

/-- A multiple of the buffer size lies inside the packet, before the parser has decided. -/
def Swallows (a m : ℕ) (pkt : FtsPacket) : Prop :=
  ∃ j, a + m < ftsRxbufSize * j ∧ ftsRxbufSize * j < decidedAt a m pkt

theorem swallows_sub {a m : ℕ} {pkt : FtsPacket} (ha : ftsRxbufSize ≤ a) :
    Swallows (a - ftsRxbufSize) m pkt ↔ Swallows a m pkt := by
  have hdecided : decidedAt a m pkt = decidedAt (a - ftsRxbufSize) m pkt + ftsRxbufSize := by
    cases m with
    | zero =>
      rw [decided_at_zero, decided_at_zero]
      omega
    | succ k =>
      rw [decided_at_succ, decided_at_succ]
      omega
  constructor
  · rintro ⟨j, hlow, hhigh⟩
    refine ⟨j + 1, ?_, ?_⟩
    · rw [Nat.mul_succ]
      omega
    · rw [Nat.mul_succ, hdecided]
      omega
  · rintro ⟨j, hlow, hhigh⟩
    rcases j with _ | j
    · omega
    · rw [Nat.mul_succ] at hlow hhigh
      exact ⟨j, by omega, by omega⟩

theorem stream_drop {bus next : FtsBus} {lost : List Byte} (h : Sheds bus next lost) :
    stream next = (stream bus).drop lost.length := by
  rw [h.stream, List.drop_left]

theorem flood_flushed {clean : List Byte} {m : ℕ} {pkt : FtsPacket} {bus next : FtsBus}
    {lost : List Byte} (h : Flood clean m pkt bus) (hready : Ready next)
    (hsheds : Sheds bus next lost) (hlen : lost.length ≤ clean.length) :
    Flood (clean.drop lost.length) m pkt next := by
  obtain ⟨⟨hpairless, hlast⟩, hgood, _, hstream⟩ := h
  refine ⟨⟨?_, ?_⟩, hgood, hready, ?_⟩
  · rw [← List.take_append_drop lost.length clean] at hpairless
    exact hpairless.right_of_append
  · rw [List.getLast?_drop]
    split
    · exact (Option.some_ne_none _).symm
    · exact hlast
  · rw [stream_drop hsheds, hstream, List.drop_append_of_le_length hlen]

theorem extra_left {clean : List Byte} {m : ℕ} {pkt : FtsPacket} {bus next : FtsBus}
    {lost : List Byte} (h : Flood clean m pkt bus) (hsheds : Sheds bus next lost)
    (hlow : clean.length ≤ lost.length) (hhigh : lost.length ≤ clean.length + m) :
    stream next =
      List.replicate (clean.length + m - lost.length) 0xFF#8 ++ packetBytes pkt := by
  obtain ⟨k, hk⟩ := Nat.exists_eq_add_of_le hlow
  have hextra : k ≤ (List.replicate m 0xFF#8).length := by
    rw [List.length_replicate]
    omega
  rw [stream_drop hsheds, h.stream, hk, ← List.drop_drop, List.drop_left,
    List.drop_append_of_le_length hextra, List.drop_replicate, Nat.add_sub_add_left]

theorem swallows_flush {a m : ℕ} {pkt : FtsPacket} {bus : FtsBus} {lost : List Byte}
    (hflush : Flushes bus lost) (hfits : bus.rxbuf.length ≤ ftsRxbufSize)
    (ha : lost.length ≤ a) : Swallows (a - lost.length) m pkt ↔ Swallows a m pkt := by
  rcases hflush with rfl | ⟨hfull, rfl⟩
  · rfl
  · rw [le_antisymm hfits hfull] at ha ⊢
    exact swallows_sub ha

theorem rx_status_flood {clean : List Byte} {m : ℕ} {pkt : FtsPacket} {bus : FtsBus}
    (h : Flood clean m pkt bus) (hswallow : ¬ Swallows clean.length m pkt) (cap : ℕ) :
    Delivered bus pkt cap (clean.length + m) (rxStatus bus pkt.id cap) := by
  fun_induction rxStatus bus pkt.id cap generalizing clean m with
  | case1 bus r hend =>
    cases flood_turn h cap with
    | received r' hturn hm _ hdelivered =>
      rw [hend] at hturn
      cases hturn
      rwa [hm]
    | rejected _ _ hturn _ _ _ _ _ =>
      rw [hend] at hturn
      cases hturn
    | waited _ _ hturn _ _ _ _ =>
      rw [hend] at hturn
      cases hturn
  | case2 bus next hgo ih =>
    cases flood_turn h cap with
    | received _ hturn _ _ _ =>
      rw [hgo] at hturn
      cases hturn
    | rejected next' lost hturn _ hready hsheds hlost hm =>
      rw [hgo] at hturn
      cases hturn
      have hrest := extra_left h hsheds (by omega) (by omega)
      exact (rx_status_extra hready h.good hrest cap).after hsheds (by omega)
    | waited next' lost hturn hshort hready hsheds hflush =>
      rw [hgo] at hturn
      cases hturn
      have hfits := h.ready.fits
      by_cases hjunk : lost.length ≤ clean.length
      · have hflood := flood_flushed h hready hsheds hjunk
        have hsize : (clean.drop lost.length).length = clean.length - lost.length :=
          List.length_drop
        rw [← swallows_flush hflush hfits hjunk, ← hsize] at hswallow
        exact (ih hflood hswallow).after hsheds (by omega)
      · rcases hflush with rfl | ⟨hfull, rfl⟩
        · exact absurd (Nat.zero_le _) hjunk
        · have hlow : ¬ clean.length + m < bus.rxbuf.length := by
            intro hlow
            apply hswallow
            refine ⟨1, by omega, by omega⟩
          have hrest := extra_left h hsheds (by omega) (by omega)
          exact (rx_status_extra hready h.good hrest cap).after hsheds (by omega)

/-- Nothing is swallowed by a single buffer that reaches the decision. -/
theorem swallows_undecided {a m : ℕ} {pkt : FtsPacket} (h : Swallows a m pkt) :
    ftsRxbufSize < decidedAt a m pkt := by
  obtain ⟨j, hlow, hhigh⟩ := h
  rcases j with _ | j
  · omega
  · rw [Nat.mul_succ] at hhigh
    omega

theorem swallows_first {a m : ℕ} {pkt : FtsPacket} (hgood : WellFormed pkt)
    (h : Swallows a m pkt) (ha : a < ftsRxbufSize) : a + m < ftsRxbufSize := by
  obtain ⟨j, hlow, hhigh⟩ := h
  have hlen := hgood.2
  have hnear : decidedAt a m pkt ≤ a + 250 := by
    cases m with
    | zero =>
      rw [decided_at_zero]
      omega
    | succ k =>
      rw [decided_at_succ]
      omega
  unfold ftsRxbufSize at *
  omega

/-- Where a header is swallowed, more bytes are discarded than there were in front of it. -/
theorem rx_status_swallowed {clean : List Byte} {m : ℕ} {pkt : FtsPacket} {bus : FtsBus}
    (h : Flood clean m pkt bus) (hswallow : Swallows clean.length m pkt) {cap : ℕ}
    {got : List Byte} {last : FtsBus} (hrx : rxStatus bus pkt.id cap = (.ok got, last)) :
    ∃ n, clean.length + m < n ∧ n ≤ clean.length + m + (pkt.data.length + 6) ∧
      last.stats.bytesDiscarded = bus.stats.bytesDiscarded + BitVec.ofNat 32 n := by
  fun_induction rxStatus bus pkt.id cap generalizing clean m with
  | case1 bus r hend =>
    cases flood_turn h cap with
    | received _ _ _ hall _ =>
      have hfits := hall.trans h.ready.fits
      exact absurd (swallows_undecided hswallow) (not_lt.mpr hfits)
    | rejected _ _ hturn _ _ _ _ _ =>
      rw [hend] at hturn
      cases hturn
    | waited _ _ hturn _ _ _ _ =>
      rw [hend] at hturn
      cases hturn
  | case2 bus next hgo ih =>
    cases flood_turn h cap with
    | received _ hturn _ _ _ =>
      rw [hgo] at hturn
      cases hturn
    | rejected _ _ _ hall _ _ _ _ =>
      have hfits := hall.trans h.ready.fits
      exact absurd (swallows_undecided hswallow) (not_lt.mpr hfits)
    | waited next' lost hturn hshort hready hsheds hflush =>
      rw [hgo] at hturn
      cases hturn
      by_cases hjunk : lost.length ≤ clean.length
      · have hflood := flood_flushed h hready hsheds hjunk
        have hsize : (clean.drop lost.length).length = clean.length - lost.length :=
          List.length_drop
        rw [← swallows_flush hflush h.ready.fits hjunk, ← hsize] at hswallow
        obtain ⟨n, hlow, hhigh, hcount⟩ := ih hflood hswallow hrx
        refine ⟨lost.length + n, by omega, by omega, ?_⟩
        rw [hcount, hsheds.discarded, BitVec.ofNat_add, BitVec.add_assoc]
      · rcases hflush with rfl | ⟨hfull, rfl⟩
        · exact absurd (Nat.zero_le _) hjunk
        · have hfirst := swallows_first h.good hswallow
            ((not_le.mp hjunk).trans_le h.ready.fits)
          obtain ⟨pkt', junk, htaken, _⟩ := rx_status_packet hrx
          have hlen := congrArg List.length (hsheds.stream.symm.trans h.stream)
          rw [htaken.stream] at hlen
          simp only [List.length_append, List.length_replicate, length_packet_bytes h.good]
            at hlen
          refine ⟨bus.rxbuf.length + junk.length, by omega, by omega, ?_⟩
          rw [htaken.discarded, hsheds.discarded, BitVec.ofNat_add, BitVec.add_assoc]

theorem flood_delivered_iff {clean : List Byte} {m : ℕ} {pkt : FtsPacket} {bus : FtsBus}
    (h : Flood clean m pkt bus) (cap : ℕ) :
    Delivered bus pkt cap (clean.length + m) (rxStatus bus pkt.id cap) ↔
      ¬ Swallows clean.length m pkt := by
  constructor
  · rintro ⟨hok, _, hcount⟩ hswallow
    obtain ⟨n, hlow, hhigh, hmore⟩ := rx_status_swallowed h hswallow (Prod.ext hok rfl)
    rw [hcount] at hmore
    have hmod := congrArg BitVec.toNat ((BitVec.add_right_inj _).mp hmore)
    have hlen := h.good.2
    rw [BitVec.toNat_ofNat, BitVec.toNat_ofNat] at hmod
    omega
  · intro hswallow
    exact rx_status_flood h hswallow cap

/-- A byte FF that ends the junk is one more in front of the header. -/
def lastFF (junk : List Byte) : ℕ := if junk.getLast? = some 0xFF#8 then 1 else 0

theorem split_last_ff {junk : List Byte} (h : junk.IsChain NotPair) :
    ∃ clean, Clean clean ∧ junk = clean ++ List.replicate (lastFF junk) 0xFF#8 := by
  unfold lastFF
  by_cases hlast : junk.getLast? = some 0xFF#8
  · obtain ⟨clean, rfl⟩ := List.getLast?_eq_some_iff.mp hlast
    refine ⟨clean, ⟨h.left_of_append, fun hff => ?_⟩, by rw [if_pos hlast]; rfl⟩
    exact (List.isChain_append.mp h).2.2 _ hff _ rfl ⟨rfl, rfl⟩
  · exact ⟨junk, ⟨h, hlast⟩, by rw [if_neg hlast]; exact (List.append_nil _).symm⟩

/-- Junk of any length, extra bytes FF and a packet from the asked servo: the packet is
returned and the junk counted, exactly when no multiple of the buffer size lies behind the
junk and in front of the byte with which the parser decides. -/
theorem junk_flood {bus : FtsBus} {junk : List Byte} {m : ℕ} {pkt : FtsPacket}
    (hready : Ready bus) (hgood : WellFormed pkt) (hjunk : junk.IsChain NotPair)
    (hstream : stream bus = junk ++ List.replicate m 0xFF#8 ++ packetBytes pkt) (cap : ℕ) :
    Delivered bus pkt cap (junk.length + m) (rxStatus bus pkt.id cap) ↔
      ¬ Swallows (junk.length - lastFF junk) (m + lastFF junk) pkt := by
  obtain ⟨clean, hclean, hsplit⟩ := split_last_ff hjunk
  have hlen : junk.length = clean.length + lastFF junk := by
    conv_lhs => rw [hsplit]
    rw [List.length_append, List.length_replicate]
  have hflood : Flood clean (m + lastFF junk) pkt bus := by
    refine ⟨hclean, hgood, hready, ?_⟩
    rw [hstream, Nat.add_comm m, List.replicate_add]
    conv_lhs => rw [hsplit]
    simp only [List.append_assoc]
  have hiff := flood_delivered_iff hflood cap
  have hjunk' : junk.length - lastFF junk = clean.length := by omega
  have hall : junk.length + m = clean.length + (m + lastFF junk) := by omega
  rw [hjunk', hall]
  exact hiff

/-- Junk and the six bytes of a reply to a ping, all there to be read. -/
def floodedBus (junk : List Byte) : FtsBus where
  arrivals := [.bytes (junk ++ packetBytes ⟨1, 0, []⟩)]
  written := []
  echo := false
  lastServoError := 0
  stats := ⟨0, 0, 0, 0, 0⟩
  rxbuf := []

theorem flooded_ready (junk : List Byte) : Ready (floodedBus junk) where
  prompt := by
    intro a ha
    obtain rfl := List.mem_singleton.mp ha
    exact List.append_ne_nil_of_right_ne_nil _ (by decide)
  fits := Nat.zero_le _

/-- Two bytes of junk and an extra FF. -/
theorem junk_flood_short :
    Delivered (floodedBus [0x12, 0x00, 0xFF]) ⟨1, 0, []⟩ 0 3
      (rxStatus (floodedBus [0x12, 0x00, 0xFF]) 1 0) := by
  have hgood : WellFormed ⟨1, 0, []⟩ := ⟨by decide, by decide⟩
  have hpairless : [0x12, 0x00].IsChain NotPair := by
    rw [List.isChain_pair]
    exact fun h => absurd h.1 (by decide)
  apply (junk_flood (flooded_ready [0x12, 0x00, 0xFF]) hgood hpairless (m := 1) rfl 0).mpr
  rintro ⟨j, hlow, hhigh⟩
  have hfirst : ftsRxbufSize * j < 6 := hhigh
  rcases j with _ | j
  · omega
  · rw [Nat.mul_succ] at hfirst
    unfold ftsRxbufSize at hfirst
    omega

/-- The buffer, full of 1020 bytes of junk and the four first bytes of the reply. -/
def fullBus : FtsBus :=
  { floodedBus (List.replicate 1020 0) with
    arrivals := [.bytes [0, 0xFC]]
    rxbuf := List.replicate 1020 0 ++ [0xFF, 0xFF, 1, 2] }

def flushedBus : FtsBus :=
  { fullBus with
    arrivals := []
    stats := ⟨0, 0, 0, 0, 1024⟩
    rxbuf := [0, 0xFC] }

theorem junk_flood_times_out :
    (rxStatus (floodedBus (List.replicate 1020 0)) 1 0).1 = .error .timeout ∧
      ¬ Delivered (floodedBus (List.replicate 1020 0)) ⟨1, 0, []⟩ 0 1020
        (rxStatus (floodedBus (List.replicate 1020 0)) 1 0) := by
  have hfull : rxTurn (floodedBus (List.replicate 1020 0)) 1 0 = .inr fullBus := by
    decide +kernel
  have hflushed : rxTurn fullBus 1 0 = .inr flushedBus := by
    decide +kernel
  have hend : rxTurn flushedBus 1 0 = .inl (.error .timeout, flushedBus.countTimeout) := by
    decide +kernel
  have hrc : (rxStatus (floodedBus (List.replicate 1020 0)) 1 0).1 = .error .timeout := by
    rw [rx_status_of_turn hfull, rx_status_of_turn hflushed, rx_status_of_end hend]
  refine ⟨hrc, fun h => ?_⟩
  rw [h.result] at hrc
  cases hrc

end JunkFlood
