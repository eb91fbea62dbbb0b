import Mathlib.Logic.Relation
import So101.ReceiveLoop

/-!
# Resynchronisation

What the parser passes over, and what the receive loop drops for it, is the start of no
packet, however the stream goes on.
-/
namespace Resync

open ServoBus (Byte)
open PacketCodec BusDriver ReceiveLoop StreamDecoder

/-- A packet stands at `p`: header, ID, LEN, all its bytes and the right checksum. -/
def PacketAt (s : List Byte) (p : ℕ) : Prop :=
  HeaderAt s p ∧ ∃ id plen, s[p + 2]? = some id ∧ s[p + 3]? = some plen ∧ GoodHeader id plen ∧
    p + plen.toNat + 4 ≤ s.length ∧
    s[p + plen.toNat + 3]? = some (ftsChecksum ((s.drop (p + 2)).take (plen.toNat + 1)))

theorem packet_at_cons {b : Byte} {s : List Byte} {p : ℕ} :
    PacketAt (b :: s) (p + 1) ↔ PacketAt s p := by
  have h2 : p + 1 + 2 = p + 2 + 1 := by omega
  have h3 : p + 1 + 3 = p + 3 + 1 := by omega
  have hlast : ∀ n, p + 1 + n + 3 = p + n + 3 + 1 := by omega
  have hlen : ∀ n, p + 1 + n + 4 ≤ s.length + 1 ↔ p + n + 4 ≤ s.length := by omega
  unfold PacketAt HeaderAt
  simp only [h2, h3, hlast, List.getElem?_cons_succ, List.drop_succ_cons, List.length_cons, hlen]

theorem packet_at_append {lost s : List Byte} {p : ℕ} :
    PacketAt (lost ++ s) (lost.length + p) ↔ PacketAt s p := by
  induction lost with
  | nil => simp
  | cons b lost ih =>
    have hsucc : (b :: lost).length + p = lost.length + p + 1 := by
      rw [List.length_cons]
      omega
    rw [hsucc, List.cons_append, packet_at_cons]
    exact ih

/-- Where the search of the parser has arrived: at the packet it returns, or behind all that
it is done with. -/
def passed : Answer (Except FtsError FtsPacket) → ℕ
  | (some (.ok pkt), n) => n - (pkt.data.length + 6)
  | (_, n) => n

theorem passed_shift {a : Answer (Except FtsError FtsPacket)} (k : ℕ) :
    passed (a.shift k) ≤ k + passed a := by
  obtain ⟨e, n⟩ := a
  rcases e with _ | _ | pkt
  · exact le_rfl
  · exact le_rfl
  · change k + n - _ ≤ k + (n - _)
    omega

theorem packet_at_front {id plen : Byte} {rest : List Byte}
    (h : PacketAt (0xFF#8 :: 0xFF#8 :: id :: plen :: rest) 0) : GoodHeader id plen ∧
      (id :: plen :: rest)[plen.toNat + 1]? =
        some (ftsChecksum ((id :: plen :: rest).take (plen.toNat + 1))) := by
  obtain ⟨_, id', plen', hid, hplen, hgood, _, hsum⟩ := h
  obtain rfl : id = id' := by simpa using hid
  obtain rfl : plen = plen' := by simpa using hplen
  refine ⟨hgood, ?_⟩
  simpa using hsum

/-- The search never passes a packet. -/
theorem passed_le {s : List Byte} {p : ℕ} (h : PacketAt s p) : passed (ftsParseStatus s) ≤ p := by
  induction s using buffer_cases generalizing p with
  | nil => simp [passed]
  | lone => simp [passed]
  | skip b rest hskip ih =>
    rw [parse_skip hskip]
    refine (passed_shift 1).trans ?_
    cases p with
    | zero =>
      obtain ⟨⟨hzero, hone⟩, _⟩ := h
      obtain hb | ⟨c, tail, rfl, hc⟩ := hskip
      · exact absurd (by simpa using hzero) hb
      · exact absurd (by simpa using hone) hc
    | succ p =>
      have hle := ih (packet_at_cons.mp h)
      omega
  | short rest hshort => simp [parse_short hshort, passed]
  | bad id plen rest hbad =>
    rw [parse_bad hbad]
    cases p with
    | zero => exact absurd (packet_at_front h).1 hbad
    | succ p =>
      change 1 ≤ p + 1
      omega
  | incomplete id plen rest hgood hmore => simp [parse_incomplete hgood hmore, passed]
  | complete id plen error data chk more hgood hlen =>
    rw [parse_complete hgood hlen]
    split
    · simp [passed]
    · rename_i hchk
      change 2 ≤ p
      rcases p with _ | _ | p
      · have hsum := (packet_at_front h).2
        rw [← hlen] at hsum
        change (id :: plen :: error :: (data ++ chk :: more))[data.length + 3]? = some (ftsChecksum
          ((id :: plen :: error :: (data ++ chk :: more)).take (data.length + 2 + 1))) at hsum
        have hbody : (id :: plen :: error :: (data ++ chk :: more)).take (data.length + 2 + 1) =
            id :: plen :: error :: data := by
          simp
        have hlast : (id :: plen :: error :: (data ++ chk :: more))[data.length + 3]? =
            some chk := by
          simp
        rw [hbody] at hsum
        exact absurd (Option.some_inj.mp (hlast.symm.trans hsum)).symm hchk
      · obtain ⟨⟨_, hone⟩, _⟩ := h
        exact absurd (by simpa using hone) hgood.1
      · omega

theorem le_passed_shift (s : List Byte) (k : ℕ) : k ≤ passed ((ftsParseStatus s).shift k) := by
  cases hparse : ftsParseStatus s with
  | mk e n =>
    rcases e with _ | _ | pkt
    · exact Nat.le_add_right k n
    · exact Nat.le_add_right k n
    · obtain ⟨junk, more, _, rfl, _⟩ := build_of_parse hparse
      change k ≤ k + (junk.length + (pkt.data.length + 6)) - (pkt.data.length + 6)
      omega

theorem passed_le_append {buf : List Byte} (ys : List Byte) {p : ℕ} (h : PacketAt (buf ++ ys) p) :
    passed (ftsParseStatus buf) ≤ p := by
  have hle := passed_le h
  cases hparse : ftsParseStatus buf with
  | mk e n =>
    cases e with
    | some e => rwa [parse_emit_append ys hparse] at hle
    | none =>
      rw [parse_wait_append ys hparse] at hle
      exact (le_passed_shift (buf.drop n ++ ys) n).trans hle

/-- A turn of the loop that rejects bytes, or that reads into a buffer with room. -/
def Turn (expectId : Byte) (cap : ℕ) (bus next : FtsBus) : Prop :=
  rxTurn bus expectId cap = .inr next ∧
    ((ftsParseStatus bus.rxbuf).1 = none → bus.rxbuf.length < ftsRxbufSize)

/-- The bytes that went from the front of the stream start no packet. -/
def LosesNoPacket (bus next : FtsBus) : Prop :=
  ∃ lost, stream bus = lost ++ stream next ∧
    ∀ ys p, p < lost.length → ¬ PacketAt (stream bus ++ ys) p

theorem loses_no_packet_refl (bus : FtsBus) : LosesNoPacket bus bus :=
  ⟨[], rfl, fun _ _ h => absurd h (Nat.not_lt_zero _)⟩

theorem LosesNoPacket.trans {bus mid next : FtsBus} (h : LosesNoPacket bus mid)
    (h' : LosesNoPacket mid next) : LosesNoPacket bus next := by
  obtain ⟨lost, hlost, hnone⟩ := h
  obtain ⟨lost', hlost', hnone'⟩ := h'
  refine ⟨lost ++ lost', by rw [hlost, hlost', List.append_assoc], fun ys p hp hat => ?_⟩
  by_cases hfirst : p < lost.length
  · exact hnone ys p hfirst hat
  · obtain ⟨q, rfl⟩ := Nat.exists_eq_add_of_le (not_lt.mp hfirst)
    rw [List.length_append] at hp
    rw [hlost, List.append_assoc, packet_at_append] at hat
    exact hnone' ys q (by omega) hat

theorem turn_loses_no_packet {expectId : Byte} {cap : ℕ} {bus next : FtsBus}
    (h : Turn expectId cap bus next) : LosesNoPacket bus next := by
  obtain ⟨hturn, hroom⟩ := h
  unfold rxTurn at hturn
  split at hturn
  · simp only at hturn
    split_ifs at hturn
  · rename_i e n hparse
    cases hturn
    have hle := parse_consumed_le bus.rxbuf
    rw [hparse] at hle
    refine ⟨bus.rxbuf.take n, (skip_corrupt_sheds hle e).stream, fun ys p hp hat => ?_⟩
    rw [stream, List.append_assoc] at hat
    have hpassed := passed_le_append _ hat
    rw [hparse] at hpassed
    rw [List.length_take, Nat.min_eq_left hle] at hp
    exact absurd hpassed (not_le.mpr hp)
  · rename_i hparse
    split_ifs at hturn
    split at hturn
    · rename_i hfill
      cases hturn
      have hstream := fill_rx_stream_eq hfill (hroom (by rw [hparse]))
      exact ⟨[], hstream.symm, fun _ _ hp => absurd hp (Nat.not_lt_zero _)⟩
    · cases hturn
    · cases hturn

theorem turns_lose_no_packet {expectId : Byte} {cap : ℕ} {bus next : FtsBus}
    (h : Relation.ReflTransGen (Turn expectId cap) bus next) : LosesNoPacket bus next := by
  induction h with
  | refl => exact loses_no_packet_refl bus
  | tail _ hturn ih => exact ih.trans (turn_loses_no_packet hturn)

/-- Whatever the parser returns, no packet of the stream starts in front of what it returns or
in what it is done with, so the receive loop drops the start of none. -/
theorem resynchronisation :
    (∀ (buf : List Byte) (e : Option (Except FtsError FtsPacket)) (n : ℕ),
      ftsParseStatus buf = (e, n) → (∀ pkt, e ≠ some (.ok pkt)) →
      ∀ ys p, p < n → ¬ PacketAt (buf ++ ys) p) ∧
    (∀ (buf : List Byte) (pkt : FtsPacket) (n : ℕ), ftsParseStatus buf = (some (.ok pkt), n) →
      ∀ ys p, p < n - (pkt.data.length + 6) → ¬ PacketAt (buf ++ ys) p) ∧
    (∀ (expectId : Byte) (cap : ℕ) (bus next : FtsBus),
      Relation.ReflTransGen (Turn expectId cap) bus next → LosesNoPacket bus next) := by
  refine ⟨?_, ?_, ?_⟩
  · intro buf e n hparse hok ys p hp hat
    have hle := passed_le_append ys hat
    rw [hparse] at hle
    rcases e with _ | _ | pkt
    · exact absurd hle (not_le.mpr hp)
    · exact absurd hle (not_le.mpr hp)
    · exact hok pkt rfl
  · intro buf pkt n hparse ys p hp hat
    have hle := passed_le_append ys hat
    rw [hparse] at hle
    exact absurd hle (not_le.mpr hp)
  · intro expectId cap bus next h
    exact turns_lose_no_packet h

/-- Two bytes in front of a header that is not yet whole, and a run of `FF` the receive loop
works off one by one. -/
theorem resynchronisation_run :
    (∀ ys p, p < 2 → ¬ PacketAt ([1, 2, 0xFF, 0xFF, 1] ++ ys) p) ∧
    (∀ ys p, p < 1 → ¬ PacketAt ((7 :: ftsBuildPacket 1 0 []) ++ ys) p) ∧
    LosesNoPacket
      ⟨[], [], false, 0, ⟨0, 0, 0, 0, 0⟩, [0xFF, 0xFF, 0xFF, 0xFF]⟩
      ⟨[], [], false, 0, ⟨0, 0, 0, 0, 1⟩, [0xFF, 0xFF, 0xFF]⟩ := by
  obtain ⟨hpassed, hpacket, hloop⟩ := resynchronisation
  refine ⟨hpassed [1, 2, 0xFF, 0xFF, 1] none 2 (by decide) (by simp), ?_, ?_⟩
  · exact hpacket (7 :: ftsBuildPacket 1 0 []) ⟨1, 0, []⟩ 7 (by decide)
  · refine hloop 1 0 _ _ (Relation.ReflTransGen.single ⟨by decide, fun h => ?_⟩)
    exact absurd h (by decide)

end Resync
