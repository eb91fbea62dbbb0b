import So101.Lib.StreamDecoder
import So101.ServoBus

/-!
# Packets on the servo bus

The checksum, the encoder and the parser of status packets. The parser is described by what
stands at the front of the buffer: a byte that starts no header, or a header and how much of
its packet is there.
-/
namespace PacketCodec

open ServoBus (Byte)
open StreamDecoder

def ftsMaxPkt : ℕ := 250

inductive FtsError where
  | io | timeout | checksum | badPkt | arg | id
  deriving DecidableEq, Repr

def ftsChecksum (bytes : List Byte) : Byte :=
  let sum := bytes.foldl (fun s b => s + b.setWidth 32) (0 : BitVec 32)
  (~~~sum &&& 0xFF).setWidth 8

/-- The packet written to `out`; no byte of it when it would be too long. -/
def ftsBuildPacket (id inst : Byte) (params : List Byte) : List Byte :=
  if params.length + 6 > ftsMaxPkt then []
  else
    let body := id :: BitVec.ofNat 8 (params.length + 2) :: inst :: params
    0xFF#8 :: 0xFF#8 :: (body ++ [ftsChecksum body])

structure FtsPacket where
  id : Byte
  error : Byte
  data : List Byte
  deriving DecidableEq, Repr

/-- Where the search for `FF FF` stops: at a header or at the last byte. -/
def headerSearch : List Byte → ℕ
  | b₀ :: b₁ :: rest => if b₀ = 0xFF#8 ∧ b₁ = 0xFF#8 then 0 else headerSearch (b₁ :: rest) + 1
  | _ => 0

/-- The result, `none` for 0 and `ok` for 1, and `*consumed`. -/
def ftsParseStatus (buf : List Byte) : Answer (Except FtsError FtsPacket) :=
  let len := buf.length
  let i := headerSearch buf
  if i + 1 ≥ len then (none, if buf.getLast? = some 0xFF#8 then len - 1 else len)
  else if len - i < 4 then (none, i)
  else
    let id := buf.getD (i + 2) 0
    let plen := (buf.getD (i + 3) 0).toNat
    if id = 0xFF#8 ∨ plen < 2 ∨ plen > ftsMaxPkt - 4 then (some (.error .badPkt), i + 1)
    else
      let total := plen + 4
      if len - i < total then (none, i)
      else if ftsChecksum ((buf.drop (i + 2)).take (total - 3)) ≠ buf.getD (i + total - 1) 0 then
        (some (.error .checksum), i + 2)
      else
        (some (.ok { id := id, error := buf.getD (i + 4) 0,
                     data := (buf.drop (i + 5)).take (plen - 2) }), i + total)

/-- No header starts at `b`, whatever follows `rest`. -/
def Skips (b : Byte) (rest : List Byte) : Prop :=
  b ≠ 0xFF#8 ∨ ∃ c tail, rest = c :: tail ∧ c ≠ 0xFF#8

/-- The ID and LEN bytes that the parser accepts. -/
def GoodHeader (id plen : Byte) : Prop := id ≠ 0xFF#8 ∧ 2 ≤ plen.toNat ∧ plen.toNat ≤ 246

theorem skips_append {b : Byte} {rest : List Byte} (h : Skips b rest) (ys : List Byte) :
    Skips b (rest ++ ys) := by
  obtain hb | ⟨c, tail, rfl, hc⟩ := h
  · exact .inl hb
  · exact .inr ⟨c, tail ++ ys, rfl, hc⟩

theorem header_search_skip {b c : Byte} {rest : List Byte} (h : Skips b (c :: rest)) :
    headerSearch (b :: c :: rest) = headerSearch (c :: rest) + 1 := by
  have hpair : ¬ (b = 0xFF#8 ∧ c = 0xFF#8) := by
    rintro ⟨rfl, rfl⟩
    obtain hb | ⟨c, tail, heq, hc⟩ := h
    · exact hb rfl
    · cases heq
      exact hc rfl
  rw [headerSearch, if_neg hpair]

@[simp] theorem parse_nil : ftsParseStatus [] = (none, 0) := by decide

@[simp] theorem parse_lone : ftsParseStatus [0xFF#8] = (none, 0) := by decide

theorem parse_skip {b : Byte} {rest : List Byte} (h : Skips b rest) :
    ftsParseStatus (b :: rest) = (ftsParseStatus rest).shift 1 := by
  cases rest with
  | nil =>
    obtain hb | ⟨c, tail, heq, _⟩ := h
    · simp [ftsParseStatus, headerSearch, hb]
    · cases heq
  | cons c rest =>
    have hsearch := header_search_skip h
    simp only [ftsParseStatus, hsearch, List.getLast?_cons_cons]
    have hpos : 0 < (c :: rest).length := Nat.succ_pos _
    generalize c :: rest = tail at hpos ⊢
    rw [List.length_cons]
    generalize headerSearch tail = i
    have htwo : i + 1 + 2 = i + 2 + 1 := by omega
    have hthree : i + 1 + 3 = i + 3 + 1 := by omega
    have hfour : i + 1 + 4 = i + 4 + 1 := by omega
    have hfive : i + 1 + 5 = i + 5 + 1 := by omega
    simp only [htwo, hthree, hfour, hfive, List.getD_cons_succ, List.drop_succ_cons]
    generalize (tail.getD (i + 3) 0).toNat = plen
    have hlast : i + 1 + (plen + 4) - 1 = i + (plen + 4) - 1 + 1 := by omega
    simp only [hlast, List.getD_cons_succ]
    generalize tail.length = len at hpos ⊢
    by_cases hnone : i + 1 ≥ len
    · rw [if_pos (by omega), if_pos hnone]
      split
      · simp only [shift_mk, Prod.mk.injEq, true_and]
        omega
      · simp only [shift_mk, Prod.mk.injEq, true_and]
        omega
    rw [if_neg (by omega), if_neg hnone]
    by_cases hshort : len - i < 4
    · rw [if_pos (by omega), if_pos hshort, shift_mk, Nat.add_comm]
    rw [if_neg (by omega), if_neg hshort]
    split
    · rw [shift_mk]
      congr 1
      omega
    by_cases hmore : len - i < plen + 4
    · rw [if_pos (by omega), if_pos hmore, shift_mk, Nat.add_comm]
    rw [if_neg (by omega), if_neg hmore]
    split
    · rw [shift_mk]
      congr 1
      omega
    · rw [shift_mk]
      congr 1
      omega

theorem parse_of_skip {b : Byte} {rest : List Byte} {e : Option (Except FtsError FtsPacket)}
    {n : ℕ} (h : Skips b rest) (hparse : ftsParseStatus (b :: rest) = (e, n)) :
    ∃ m, ftsParseStatus rest = (e, m) ∧ n = 1 + m := by
  rw [parse_skip h] at hparse
  cases hparse
  exact ⟨_, rfl, rfl⟩

theorem parse_short {rest : List Byte} (h : rest.length < 2) :
    ftsParseStatus (0xFF#8 :: 0xFF#8 :: rest) = (none, 0) := by
  have hlen : (0xFF#8 :: 0xFF#8 :: rest).length = rest.length + 2 := rfl
  simp only [ftsParseStatus, headerSearch, hlen]
  rw [if_neg (by simp), if_pos (by simp; omega)]
  simp

theorem parse_header (id plen : Byte) (rest : List Byte) :
    ftsParseStatus (0xFF#8 :: 0xFF#8 :: id :: plen :: rest) =
      if id = 0xFF#8 ∨ plen.toNat < 2 ∨ plen.toNat > ftsMaxPkt - 4 then
        (some (.error .badPkt), 1)
      else if rest.length < plen.toNat then (none, 0)
      else if ftsChecksum ((id :: plen :: rest).take (plen.toNat + 1)) ≠
          (id :: plen :: rest).getD (plen.toNat + 1) 0 then (some (.error .checksum), 2)
      else
        (some (.ok ⟨id, rest.getD 0 0, (rest.drop 1).take (plen.toNat - 2)⟩), plen.toNat + 4) := by
  have hsearch : headerSearch (0xFF#8 :: 0xFF#8 :: id :: plen :: rest) = 0 := by
    rw [headerSearch, if_pos ⟨rfl, rfl⟩]
  have hlen : (0xFF#8 :: 0xFF#8 :: id :: plen :: rest).length = rest.length + 4 := rfl
  have htotal : plen.toNat + 4 - 3 = plen.toNat + 1 := by omega
  have hlast : plen.toNat + 4 - 1 = plen.toNat + 1 + 1 + 1 := by omega
  unfold ftsParseStatus
  simp only [hsearch, hlen, Nat.zero_add, List.getD_cons_succ, List.getD_cons_zero,
    List.drop_succ_cons, List.drop_zero, htotal]
  rw [if_neg (by omega), if_neg (by omega)]
  by_cases hbad : id = 0xFF#8 ∨ plen.toNat < 2 ∨ plen.toNat > ftsMaxPkt - 4
  · rw [if_pos hbad, if_pos hbad]
  rw [if_neg hbad, if_neg hbad]
  by_cases hmore : rest.length < plen.toNat
  · rw [if_pos (by omega), if_pos hmore]
  rw [if_neg (by omega), if_neg hmore]
  simp only [hlast, List.getD_cons_succ]

theorem bad_header_iff {id plen : Byte} :
    (id = 0xFF#8 ∨ plen.toNat < 2 ∨ plen.toNat > ftsMaxPkt - 4) ↔ ¬ GoodHeader id plen := by
  have hmax : ftsMaxPkt - 4 = 246 := rfl
  rw [GoodHeader, hmax]
  by_cases hid : id = 0xFF#8
  · simp [hid]
  · simp only [hid, false_or, ne_eq, not_false_eq_true, true_and]
    omega

theorem parse_bad {id plen : Byte} {rest : List Byte} (h : ¬ GoodHeader id plen) :
    ftsParseStatus (0xFF#8 :: 0xFF#8 :: id :: plen :: rest) = (some (.error .badPkt), 1) := by
  rw [parse_header, if_pos (bad_header_iff.mpr h)]

theorem parse_incomplete {id plen : Byte} {rest : List Byte} (h : GoodHeader id plen)
    (hmore : rest.length < plen.toNat) :
    ftsParseStatus (0xFF#8 :: 0xFF#8 :: id :: plen :: rest) = (none, 0) := by
  rw [parse_header, if_neg (fun hbad => bad_header_iff.mp hbad h), if_pos hmore]

theorem parse_complete {id plen error : Byte} {data : List Byte} (h : GoodHeader id plen)
    (hlen : data.length + 2 = plen.toNat) (chk : Byte) (more : List Byte) :
    ftsParseStatus (0xFF#8 :: 0xFF#8 :: id :: plen :: error :: data ++ chk :: more) =
      if ftsChecksum (id :: plen :: error :: data) = chk then
        (some (.ok ⟨id, error, data⟩), data.length + 6)
      else (some (.error .checksum), 2) := by
  have hbody : (id :: plen :: (error :: data ++ chk :: more)).take (data.length + 3) =
      id :: plen :: error :: data := by
    simp
  have hchk : (id :: plen :: (error :: data ++ chk :: more)).getD (data.length + 3) 0 = chk := by
    simp
  have hparse := parse_header id plen (error :: data ++ chk :: more)
  rw [if_neg (fun hbad => bad_header_iff.mp hbad h), ← hlen,
    if_neg (by simp only [List.length_append, List.length_cons]; omega), hbody, hchk] at hparse
  change ftsParseStatus (0xFF#8 :: 0xFF#8 :: id :: plen :: (error :: data ++ chk :: more)) = _
  rw [hparse]
  by_cases heq : ftsChecksum (id :: plen :: error :: data) = chk
  · rw [if_neg (not_not.mpr heq), if_pos heq]
    simp
  · rw [if_pos heq, if_neg heq]

theorem buffer_cases {motive : List Byte → Prop}
    (nil : motive [])
    (lone : motive [0xFF#8])
    (skip : ∀ b rest, Skips b rest → motive rest → motive (b :: rest))
    (short : ∀ rest : List Byte, rest.length < 2 → motive (0xFF#8 :: 0xFF#8 :: rest))
    (bad : ∀ id plen rest, ¬ GoodHeader id plen →
      motive (0xFF#8 :: 0xFF#8 :: id :: plen :: rest))
    (incomplete : ∀ id plen rest, GoodHeader id plen → rest.length < plen.toNat →
      motive (0xFF#8 :: 0xFF#8 :: id :: plen :: rest))
    (complete : ∀ id plen error data chk more, GoodHeader id plen →
      data.length + 2 = plen.toNat →
      motive (0xFF#8 :: 0xFF#8 :: id :: plen :: error :: data ++ chk :: more))
    (buf : List Byte) : motive buf := by
  induction buf with
  | nil => exact nil
  | cons b rest ih =>
    by_cases hb : b = 0xFF#8
    · subst hb
      cases rest with
      | nil => exact lone
      | cons c rest =>
        by_cases hc : c = 0xFF#8
        · subst hc
          match rest with
          | [] => exact short [] (by simp)
          | [x] => exact short [x] (by simp)
          | id :: plen :: rest =>
            by_cases hgood : GoodHeader id plen
            · by_cases hmore : rest.length < plen.toNat
              · exact incomplete id plen rest hgood hmore
              · obtain ⟨hid, hlo, hhi⟩ := hgood
                match rest with
                | [] => simp at hmore; omega
                | error :: rest =>
                  obtain ⟨chk, more, hdrop⟩ : ∃ chk more,
                      rest.drop (plen.toNat - 2) = chk :: more := by
                    apply List.exists_cons_of_length_pos
                    simp only [List.length_cons] at hmore
                    rw [List.length_drop]
                    omega
                  have hsplit := List.take_append_drop (plen.toNat - 2) rest
                  rw [hdrop] at hsplit
                  rw [← hsplit]
                  apply complete id plen error _ chk more ⟨hid, hlo, hhi⟩
                  simp only [List.length_cons] at hmore
                  rw [List.length_take]
                  omega
            · exact bad id plen rest hgood
        · exact skip _ _ (.inr ⟨c, rest, rfl, hc⟩) ih
    · exact skip b rest (.inl hb) ih

theorem parse_consumed_le (buf : List Byte) : (ftsParseStatus buf).2 ≤ buf.length := by
  induction buf using buffer_cases with
  | nil => simp
  | lone => simp
  | skip b rest h ih =>
    rw [parse_skip h, shift_snd, List.length_cons]
    omega
  | short rest h => simp [parse_short h]
  | bad id plen rest h => simp [parse_bad h]
  | incomplete id plen rest h hmore => simp [parse_incomplete h hmore]
  | complete id plen error data chk more h hlen =>
    rw [parse_complete h hlen]
    split <;> simp

theorem parse_emit_pos {buf : List Byte} {e : Except FtsError FtsPacket} {n : ℕ}
    (hparse : ftsParseStatus buf = (some e, n)) : 0 < n := by
  induction buf using buffer_cases generalizing n with
  | nil => simp at hparse
  | lone => simp at hparse
  | skip b rest h ih =>
    obtain ⟨m, _, rfl⟩ := parse_of_skip h hparse
    omega
  | short rest h =>
    rw [parse_short h] at hparse
    cases hparse
  | bad id plen rest h =>
    rw [parse_bad h] at hparse
    cases hparse
    omega
  | incomplete id plen rest h hmore =>
    rw [parse_incomplete h hmore] at hparse
    cases hparse
  | complete id plen error data chk more h hlen =>
    rw [parse_complete h hlen] at hparse
    split at hparse
    · cases hparse
      omega
    · cases hparse
      omega

theorem parse_emit_append {buf : List Byte} {e : Except FtsError FtsPacket} {n : ℕ}
    (ys : List Byte) (hparse : ftsParseStatus buf = (some e, n)) :
    ftsParseStatus (buf ++ ys) = (some e, n) := by
  induction buf using buffer_cases generalizing n with
  | nil => simp at hparse
  | lone => simp at hparse
  | skip b rest h ih =>
    obtain ⟨m, hrest, rfl⟩ := parse_of_skip h hparse
    rw [List.cons_append, parse_skip (skips_append h ys), ih hrest, shift_mk]
  | short rest h =>
    rw [parse_short h] at hparse
    cases hparse
  | bad id plen rest h =>
    rw [parse_bad h] at hparse
    rw [← hparse]
    exact parse_bad h
  | incomplete id plen rest h hmore =>
    rw [parse_incomplete h hmore] at hparse
    cases hparse
  | complete id plen error data chk more h hlen =>
    rw [parse_complete h hlen] at hparse
    rw [← hparse, ← parse_complete h hlen chk (more ++ ys), List.append_assoc]
    rfl

theorem parse_wait_append {buf : List Byte} {n : ℕ} (ys : List Byte)
    (hparse : ftsParseStatus buf = (none, n)) :
    ftsParseStatus (buf ++ ys) = (ftsParseStatus (buf.drop n ++ ys)).shift n := by
  have hkept : ∀ xs : List Byte, (ftsParseStatus (xs.drop 0)).shift 0 = ftsParseStatus xs := by
    intro xs
    simp [Answer.shift]
  induction buf using buffer_cases generalizing n with
  | nil =>
    cases parse_nil.symm.trans hparse
    exact (hkept _).symm
  | lone =>
    cases parse_lone.symm.trans hparse
    exact (hkept _).symm
  | skip b rest h ih =>
    obtain ⟨m, hrest, rfl⟩ := parse_of_skip h hparse
    rw [List.cons_append, parse_skip (skips_append h ys), ih hrest, Nat.add_comm 1 m,
      List.drop_succ_cons]
    simp only [Answer.shift, Prod.mk.injEq, true_and]
    omega
  | short rest h =>
    rw [parse_short h] at hparse
    cases hparse
    exact (hkept _).symm
  | bad id plen rest h =>
    rw [parse_bad h] at hparse
    cases hparse
  | incomplete id plen rest h hmore =>
    rw [parse_incomplete h hmore] at hparse
    cases hparse
    exact (hkept _).symm
  | complete id plen error data chk more h hlen =>
    rw [parse_complete h hlen] at hparse
    split at hparse
    · cases hparse
    · cases hparse

/-- `fts_parse_status` on a growing buffer. -/
def statusDecoder : Decoder Byte (Except FtsError FtsPacket) where
  decode := ftsParseStatus
  consumed_le := parse_consumed_le
  emit_pos := parse_emit_pos
  emit_append := parse_emit_append
  wait_append := parse_wait_append

/-- The packets and errors of a byte stream are those of any chunks that make it up, whether
or not the bytes that a wait is done with are dropped between chunks. -/
theorem chunking_irrelevant (cs : List (List Byte × Bool)) :
    statusDecoder.drainChunks [] cs = (statusDecoder.drain (cs.map Prod.fst).flatten).1 := by
  apply drain_chunks_eq
  exact congrArg Prod.fst parse_nil

theorem build_packet_eq {id inst : Byte} {params : List Byte} (h : params.length ≤ 244) :
    ftsBuildPacket id inst params =
      0xFF#8 :: 0xFF#8 :: id :: BitVec.ofNat 8 (params.length + 2) :: inst :: params ++
        [ftsChecksum (id :: BitVec.ofNat 8 (params.length + 2) :: inst :: params)] := by
  have hfits : ¬ params.length + 6 > ftsMaxPkt := by
    unfold ftsMaxPkt
    omega
  rw [ftsBuildPacket, if_neg hfits]
  rfl

theorem length_build_packet {id inst : Byte} {params : List Byte} (h : params.length ≤ 244) :
    (ftsBuildPacket id inst params).length = params.length + 6 := by
  simp [build_packet_eq h]

theorem parse_build {id inst : Byte} {params : List Byte} (hid : id ≠ 0xFF#8)
    (h : params.length ≤ 244) (more : List Byte) :
    ftsParseStatus (ftsBuildPacket id inst params ++ more) =
      (some (.ok ⟨id, inst, params⟩), params.length + 6) := by
  have hplen : params.length + 2 = (BitVec.ofNat 8 (params.length + 2)).toNat := by
    rw [BitVec.toNat_ofNat]
    omega
  have hgood : GoodHeader id (BitVec.ofNat 8 (params.length + 2)) := by
    refine ⟨hid, ?_, ?_⟩
    · omega
    · omega
  have hparse := @parse_complete id _ inst params hgood hplen
    (ftsChecksum (id :: BitVec.ofNat 8 (params.length + 2) :: inst :: params)) more
  rw [if_pos rfl] at hparse
  rw [build_packet_eq h, ← hparse, List.append_assoc]
  rfl

/-- A header pair starts at position `k`. -/
def HeaderAt (buf : List Byte) (k : ℕ) : Prop :=
  buf[k]? = some 0xFF#8 ∧ buf[k + 1]? = some 0xFF#8

/-- An accepted packet stands in the buffer behind bytes that start no header. -/
theorem build_of_parse {buf : List Byte} {pkt : FtsPacket} {n : ℕ}
    (hparse : ftsParseStatus buf = (some (.ok pkt), n)) :
    ∃ junk more, buf = junk ++ ftsBuildPacket pkt.id pkt.error pkt.data ++ more ∧
      n = junk.length + (pkt.data.length + 6) ∧ (∀ k < junk.length, ¬ HeaderAt buf k) ∧
      pkt.id ≠ 0xFF#8 ∧ pkt.data.length ≤ 244 := by
  induction buf using buffer_cases generalizing n with
  | nil => simp at hparse
  | lone => simp at hparse
  | skip b rest h ih =>
    obtain ⟨m, hrest, rfl⟩ := parse_of_skip h hparse
    obtain ⟨junk, more, rfl, rfl, hnone, hid, hlen⟩ := ih hrest
    refine ⟨b :: junk, more, rfl, ?_, ?_, hid, hlen⟩
    · rw [List.length_cons]
      omega
    · intro k hk
      cases k with
      | zero =>
        intro hat
        obtain ⟨hzero, hone⟩ := hat
        obtain hb | ⟨c, tail, heq, hc⟩ := h
        · exact hb (by simpa using hzero)
        · rw [heq] at hone
          exact hc (by simpa using hone)
      | succ k =>
        rw [List.length_cons] at hk
        exact hnone k (by omega)
  | short rest h =>
    rw [parse_short h] at hparse
    cases hparse
  | bad id plen rest h =>
    rw [parse_bad h] at hparse
    cases hparse
  | incomplete id plen rest h hmore =>
    rw [parse_incomplete h hmore] at hparse
    cases hparse
  | complete id plen error data chk more h hlen =>
    rw [parse_complete h hlen] at hparse
    split at hparse
    · rename_i hchk
      cases hparse
      obtain ⟨hid, hlo, hhi⟩ := h
      have hfits : data.length ≤ 244 := by omega
      have hplen : BitVec.ofNat 8 (data.length + 2) = plen := by
        rw [hlen, BitVec.ofNat_toNat, BitVec.setWidth_eq]
      refine ⟨[], more, ?_, by simp, by simp, hid, hfits⟩
      rw [build_packet_eq hfits, hplen, hchk]
      simp
    · cases hparse

theorem packet_codec :
    (∀ (id inst : Byte) (params more : List Byte), id ≠ 0xFF#8 → params.length ≤ 244 →
      ftsParseStatus (ftsBuildPacket id inst params ++ more) =
        (some (.ok ⟨id, inst, params⟩), params.length + 6)) ∧
    (∀ (buf : List Byte) (pkt : FtsPacket) (consumed : ℕ),
      ftsParseStatus buf = (some (.ok pkt), consumed) →
      pkt.data.length + 6 ≤ consumed ∧
      (∀ k < consumed - (pkt.data.length + 6), ¬ HeaderAt buf k) ∧
      (buf.drop (consumed - (pkt.data.length + 6))).take (pkt.data.length + 6) =
        ftsBuildPacket pkt.id pkt.error pkt.data ∧
      (ftsBuildPacket pkt.id pkt.error pkt.data).length = pkt.data.length + 6) := by
  constructor
  · intro id inst params more hid hlen
    exact parse_build hid hlen more
  · intro buf pkt consumed hparse
    obtain ⟨junk, more, rfl, rfl, hnone, _, hlen⟩ := build_of_parse hparse
    have hsize := @length_build_packet pkt.id pkt.error pkt.data hlen
    rw [Nat.add_sub_cancel]
    refine ⟨Nat.le_add_left _ _, hnone, ?_, hsize⟩
    rw [List.append_assoc, List.drop_left, ← hsize, List.take_left]

/-- Junk that ends in half a header, in front of a packet. -/
theorem packet_codec_junk :
    ftsParseStatus (ftsBuildPacket 1 0 [0xFF, 0xFF] ++ [7]) =
      (some (.ok ⟨1, 0, [0xFF, 0xFF]⟩), 8) ∧
    ((7 : Byte) :: 0xFF :: 7 :: ftsBuildPacket 1 0 [5] |>.drop 3).take 7 =
      ftsBuildPacket 1 0 [5] :=
  ⟨packet_codec.1 1 0 [0xFF, 0xFF] [7] (by decide) (by decide),
    (packet_codec.2 (7 :: 0xFF :: 7 :: ftsBuildPacket 1 0 [5]) ⟨1, 0, [5]⟩ 10
      (by decide)).2.2.1⟩

end PacketCodec
