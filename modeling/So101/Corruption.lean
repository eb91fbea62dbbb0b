import Mathlib.Data.BitVec
import So101.ReceiveLoop

/-!
# One byte changed

The checksum is the complement of a sum modulo 256, so it tells two packets apart that differ
in one byte.
-/
namespace Corruption

open ServoBus (Byte)
open PacketCodec ReceiveLoop

theorem fold_bytes (l : List Byte) (s : BitVec 32) :
    (l.foldl (fun s b => s + b.setWidth 32) s).setWidth 8 = s.setWidth 8 + l.sum := by
  induction l generalizing s with
  | nil => simp
  | cons b l ih =>
    have hb : (b.setWidth 32).setWidth 8 = b := BitVec.setWidth_setWidth_of_le b (by norm_num)
    rw [List.foldl_cons, ih, BitVec.setWidth_add _ _ (by norm_num), hb, List.sum_cons, add_assoc]

theorem checksum_eq (l : List Byte) : ftsChecksum l = ~~~l.sum := by
  have hfold := fold_bytes l 0
  have hmask : ∀ s : BitVec 32, (~~~s &&& 0xFF).setWidth 8 = ~~~s.setWidth 8 := by
    intro s
    have hones : (255 : BitVec 32).setWidth 8 = BitVec.allOnes 8 := by decide
    rw [BitVec.setWidth_and, BitVec.setWidth_not (by norm_num), hones, BitVec.and_allOnes]
  unfold ftsChecksum
  simp only [hmask, hfold]
  simp

theorem sum_set {l : List Byte} {i : ℕ} {x : Byte} (b : Byte) (h : l[i]? = some x) :
    (l.set i b).sum + x = l.sum + b := by
  induction l generalizing i with
  | nil => simp at h
  | cons a l ih =>
    cases i with
    | zero =>
      obtain rfl : a = x := by simpa using h
      simp only [List.set_cons_zero, List.sum_cons]
      ring
    | succ i =>
      have hrest := ih (i := i) (by simpa using h)
      rw [List.set_cons_succ, List.sum_cons, List.sum_cons, add_assoc, hrest, add_assoc]

theorem checksum_set {l : List Byte} {i : ℕ} {x b : Byte} (h : l[i]? = some x) (hb : x ≠ b) :
    ftsChecksum (l.set i b) ≠ ftsChecksum l := by
  intro heq
  have hsum := sum_set b h
  rw [checksum_eq, checksum_eq, BitVec.not_inj] at heq
  rw [heq] at hsum
  exact hb (add_left_cancel hsum)

def Rejected (buf : List Byte) : Prop :=
  ∃ e n, ftsParseStatus buf = (some (.error e), n) ∧ (e = .checksum ∨ e = .badPkt) ∧ 1 ≤ n

theorem rejected_of_checksum {id plen error chk : Byte} {data : List Byte}
    (hgood : GoodHeader id plen) (hlen : data.length + 2 = plen.toNat)
    (hchk : ftsChecksum (id :: plen :: error :: data) ≠ chk) :
    Rejected (0xFF#8 :: 0xFF#8 :: id :: plen :: error :: data ++ [chk]) := by
  refine ⟨.checksum, 2, ?_, Or.inl rfl, by norm_num⟩
  rw [parse_complete hgood hlen chk [], if_neg hchk]

/-- Whatever single byte of a packet is changed, the header and LEN apart. -/
theorem corruption_detected {pkt : FtsPacket} (h : WellFormed pkt) {k : ℕ} {old new : Byte}
    (hk : 2 ≤ k) (hplen : k ≠ 3) (hold : (packetBytes pkt)[k]? = some old) (hnew : old ≠ new) :
    Rejected ((packetBytes pkt).set k new) := by
  obtain ⟨id, error, data⟩ := pkt
  obtain ⟨hid, hfits⟩ := h
  have hlen : data.length + 2 = (BitVec.ofNat 8 (data.length + 2)).toNat := by
    rw [BitVec.toNat_ofNat]
    simp only at hfits
    omega
  have hbytes : packetBytes ⟨id, error, data⟩ = _ := build_packet_eq hfits
  rw [hbytes] at hold ⊢
  simp only at hid hfits hold ⊢
  generalize BitVec.ofNat 8 (data.length + 2) = plen at hlen hold ⊢
  have hgood : ∀ id, id ≠ 0xFF#8 → GoodHeader id plen :=
    fun id hid => ⟨hid, by omega, by omega⟩
  have hbody : ∀ i x, (id :: plen :: error :: data)[i]? = some x → x ≠ new →
      ftsChecksum ((id :: plen :: error :: data).set i new) ≠
        ftsChecksum (id :: plen :: error :: data) :=
    fun i x hi hx => checksum_set hi hx
  generalize hsum : ftsChecksum (id :: plen :: error :: data) = chk at hold hbody ⊢
  rcases k with _ | _ | _ | _ | _ | i
  · omega
  · omega
  · obtain rfl : id = old := by simpa using hold
    change Rejected (0xFF#8 :: 0xFF#8 :: new :: plen :: error :: data ++ [chk])
    by_cases hff : new = 0xFF#8
    · subst hff
      have hbad : ¬ GoodHeader 0xFF#8 plen := fun hgood => hgood.1 rfl
      exact ⟨.badPkt, 1, parse_bad hbad, Or.inr rfl, le_rfl⟩
    · exact rejected_of_checksum (hgood new hff) hlen (hbody 0 id rfl hnew)
  · exact absurd rfl hplen
  · obtain rfl : error = old := by simpa using hold
    exact rejected_of_checksum (hgood id hid) hlen (hbody 2 error rfl hnew)
  · change (data ++ [chk])[i]? = some old at hold
    change Rejected (0xFF#8 :: 0xFF#8 :: id :: plen :: error :: (data ++ [chk]).set i new)
    by_cases hi : i < data.length
    · rw [List.getElem?_append_left hi] at hold
      rw [List.set_append_left _ _ hi]
      exact rejected_of_checksum (hgood id hid) (by rwa [List.length_set])
        (hbody (i + 3) old (by simpa using hold) hnew)
    · rw [List.getElem?_append_right (not_lt.mp hi)] at hold
      rw [List.set_append_right _ _ (not_lt.mp hi)]
      obtain ⟨hzero, rfl⟩ : i - data.length = 0 ∧ chk = old := by
        rcases hdiff : i - data.length with _ | n
        · rw [hdiff] at hold
          exact ⟨rfl, by simpa using hold⟩
        · rw [hdiff] at hold
          simp at hold
      rw [hzero]
      exact rejected_of_checksum (hgood id hid) hlen (hsum ▸ hnew)

theorem corruption_detected_id :
    Rejected ((packetBytes ⟨1, 0, [5, 0xFF]⟩).set 2 0xFF) ∧
      Rejected ((packetBytes ⟨1, 0, [5, 0xFF]⟩).set 6 7) := by
  have hgood : WellFormed ⟨1, 0, [5, 0xFF]⟩ := ⟨by decide, by decide⟩
  constructor
  · exact @corruption_detected _ hgood 2 1 0xFF le_rfl (by norm_num) (by decide) (by decide)
  · exact @corruption_detected _ hgood 6 0xFF 7 (by norm_num) (by norm_num) (by decide)
      (by decide)

end Corruption
