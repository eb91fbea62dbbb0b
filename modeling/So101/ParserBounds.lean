import So101.BusDriver
import So101.Lib.AtomicProgram

/-!
# What the parser reads

The parser as a program of single reads of its buffer: at no time does it look beyond the
length it is given, whatever the bytes are. On the bytes of a buffer it gives the answer of
`ftsParseStatus`, with the data as a slice of the buffer.
-/
namespace ParserBounds

open AtomicProgram
open ServoBus (Byte)
open PacketCodec BusDriver StreamDecoder

/-- An access is `buf[i]`. -/
abbrev BufRes : ℕ → Type := fun _ => Byte

abbrev Reads := Prog BufRes

def readAt (i : ℕ) : Reads Byte := .access i .ret

/-- The bytes do not change while the parser runs. -/
def bufMemory : Memory (List Byte) BufRes where
  value buf i := buf.getD i 0
  update buf _ := buf

structure PacketSlice where
  id : Byte
  error : Byte
  data : ℕ
  ndata : ℕ

def PacketSlice.packet (s : PacketSlice) (buf : List Byte) : FtsPacket :=
  ⟨s.id, s.error, (buf.drop s.data).take s.ndata⟩

/-- `while (i + 1 < len && !(buf[i] == 0xFF && buf[i + 1] == 0xFF)) i++` -/
def findHeader (len i : ℕ) : Reads ℕ :=
  if i + 1 < len then
    (readAt i).bind fun b =>
      if b = 0xFF#8 then
        (readAt (i + 1)).bind fun c => if c = 0xFF#8 then .ret i else findHeader len (i + 1)
      else findHeader len (i + 1)
  else .ret i
termination_by len - i

/-- The loop of `fts_checksum` over the `n` bytes from `start` on. -/
def sumFrom : ℕ → ℕ → BitVec 32 → Reads (BitVec 32)
  | _, 0, sum => .ret sum
  | start, n + 1, sum => (readAt start).bind fun b => sumFrom (start + 1) n (sum + b.setWidth 32)

def checksumFrom (start n : ℕ) : Reads Byte :=
  (sumFrom start n 0).bind fun sum => .ret ((~~~sum &&& 0xFF).setWidth 8)

/-- The part behind the search, from a header at `i` on. -/
def parseAt (len i : ℕ) : Reads (Answer (Except FtsError PacketSlice)) :=
  if len - i < 4 then .ret (none, i)
  else
    (readAt (i + 2)).bind fun id => (readAt (i + 3)).bind fun plen =>
      if id = 0xFF#8 ∨ plen.toNat < 2 ∨ plen.toNat > ftsMaxPkt - 4 then
        .ret (some (.error .badPkt), i + 1)
      else
        let total := plen.toNat + 4
        if len - i < total then .ret (none, i)
        else
          (checksumFrom (i + 2) (total - 3)).bind fun sum =>
            (readAt (i + total - 1)).bind fun chk =>
              if sum ≠ chk then .ret (some (.error .checksum), i + 2)
              else
                (readAt (i + 4)).bind fun error =>
                  .ret (some (.ok ⟨id, error, i + 5, plen.toNat - 2⟩), i + total)

def parseReads (len : ℕ) : Reads (Answer (Except FtsError PacketSlice)) :=
  (findHeader len 0).bind fun i =>
    if i + 1 ≥ len then
      if len = 0 then .ret (none, len)
      else (readAt (len - 1)).bind fun b => .ret (none, if b = 0xFF#8 then len - 1 else len)
    else parseAt len i

theorem read_at_only {P : ℕ → Prop} {i : ℕ} (h : P i) : (readAt i).Only P := ⟨h, fun _ => trivial⟩

theorem find_header_only (len i : ℕ) : (findHeader len i).Only (· < len) := by
  fun_induction findHeader len i with
  | case1 i h ih =>
    apply (read_at_only (by omega)).bind
    intro b
    apply Prog.Only.ite
    · intro _
      apply (read_at_only (by omega)).bind
      intro c
      exact Prog.Only.ite (fun _ => trivial) (fun _ => ih)
    · intro _
      exact ih
  | case2 i h => trivial

theorem sum_from_only {len start n : ℕ} (h : start + n ≤ len) (sum : BitVec 32) :
    (sumFrom start n sum).Only (· < len) := by
  induction n generalizing start sum with
  | zero => trivial
  | succ n ih =>
    apply (read_at_only (by omega)).bind
    intro b
    exact ih (by omega) _

theorem checksum_from_only {len start n : ℕ} (h : start + n ≤ len) :
    (checksumFrom start n).Only (· < len) :=
  (sum_from_only h 0).bind fun _ => trivial

theorem parse_at_only (len i : ℕ) : (parseAt len i).Only (· < len) := by
  apply Prog.Only.ite
  · intro _
    trivial
  · intro hfour
    apply (read_at_only (by omega)).bind
    intro id
    apply (read_at_only (by omega)).bind
    intro plen
    apply Prog.Only.ite
    · intro _
      trivial
    · intro hgood
      apply Prog.Only.ite
      · intro _
        trivial
      · intro htotal
        apply (checksum_from_only (by omega)).bind
        intro sum
        apply (read_at_only (by omega)).bind
        intro chk
        apply Prog.Only.ite
        · intro _
          trivial
        · intro _
          exact (read_at_only (by omega)).bind fun _ => trivial

theorem parse_reads_only (len : ℕ) : (parseReads len).Only (· < len) := by
  apply (find_header_only len 0).bind
  intro i
  apply Prog.Only.ite
  · intro _
    apply Prog.Only.ite
    · intro _
      trivial
    · intro hpos
      exact (read_at_only (by omega)).bind fun _ => trivial
  · intro _
    exact parse_at_only len i

/-- What an answer about `len` bytes tells: how far it reaches, that an error makes
progress, and where the data lies. -/
structure InBuffer (len : ℕ) (a : Answer (Except FtsError PacketSlice)) : Prop where
  consumed_le : a.2 ≤ len
  progress : ∀ e, a.1 = some (.error e) → 1 ≤ a.2
  slice : ∀ s, a.1 = some (.ok s) → s.data + s.ndata + 1 = a.2

theorem in_buffer_wait {len n : ℕ} (h : n ≤ len) : InBuffer len (none, n) where
  consumed_le := h
  progress e he := by cases he
  slice s hs := by cases hs

theorem in_buffer_error {len n : ℕ} (e : FtsError) (h : n < len) :
    InBuffer len (some (.error e), n + 1) where
  consumed_le := h
  progress _ _ := Nat.succ_pos n
  slice s hs := by cases hs

theorem parse_at_ensures {len i : ℕ} (hi : i + 1 < len) :
    (parseAt len i).Ensures (InBuffer len) := by
  apply Prog.Ensures.ite
  · intro _
    exact in_buffer_wait (by omega)
  · intro hfour
    apply Prog.ensures_bind
    intro id
    apply Prog.ensures_bind
    intro plen
    apply Prog.Ensures.ite
    · intro _
      exact in_buffer_error .badPkt (by omega)
    · intro hgood
      apply Prog.Ensures.ite
      · intro _
        exact in_buffer_wait (by omega)
      · intro htotal
        apply Prog.ensures_bind
        intro sum
        apply Prog.ensures_bind
        intro chk
        apply Prog.Ensures.ite
        · intro _
          exact in_buffer_error .checksum (by omega)
        · intro _
          apply Prog.ensures_bind
          intro error
          refine ⟨?_, fun e he => ?_, fun s hs => ?_⟩
          · change i + (plen.toNat + 4) ≤ len
            omega
          · cases he
          · cases hs
            change i + 5 + (plen.toNat - 2) + 1 = i + (plen.toNat + 4)
            omega

theorem parse_reads_ensures (len : ℕ) : (parseReads len).Ensures (InBuffer len) := by
  apply Prog.ensures_bind
  intro i
  by_cases hi : i + 1 ≥ len
  · rw [if_pos hi]
    apply Prog.Ensures.ite
    · intro _
      exact in_buffer_wait le_rfl
    · intro _
      apply Prog.ensures_bind
      intro b
      apply in_buffer_wait
      split_ifs
      · exact Nat.sub_le len 1
      · exact le_rfl
  · rw [if_neg hi]
    exact parse_at_ensures (by omega)

/-- What the program answers about the bytes of `buf`. -/
def answerOn {α : Type} (p : Reads α) (buf : List Byte) : α := (p.eval bufMemory buf).1

theorem eval_same {α : Type} (p : Reads α) (buf : List Byte) : (p.eval bufMemory buf).2 = buf := by
  have h : p.Only fun _ => True := by
    induction p with
    | ret a => trivial
    | access o k ih => exact ⟨trivial, ih⟩
  exact h.eval_frame (W := bufMemory) (f := id) (fun _ _ _ => rfl) buf

@[simp] theorem answer_ret {α : Type} (a : α) (buf : List Byte) :
    answerOn (.ret a) buf = a := rfl

@[simp] theorem answer_bind {α β : Type} (p : Reads α) (f : α → Reads β) (buf : List Byte) :
    answerOn (p.bind f) buf = answerOn (f (answerOn p buf)) buf := by
  rw [answerOn, Prog.eval_bind, eval_same]
  rfl

@[simp] theorem answer_read (i : ℕ) (buf : List Byte) :
    answerOn (readAt i) buf = buf.getD i 0 := rfl

theorem answer_ite {α : Type} {b : Prop} [Decidable b] (p q : Reads α) (buf : List Byte) :
    answerOn (if b then p else q) buf = if b then answerOn p buf else answerOn q buf := by
  split_ifs <;> rfl

theorem answer_find_header (pre rest : List Byte) :
    answerOn (findHeader (pre ++ rest).length pre.length) (pre ++ rest) =
      pre.length + headerSearch rest := by
  induction rest generalizing pre with
  | nil =>
    rw [findHeader, if_neg (by simp)]
    rfl
  | cons b rest ih =>
    cases rest with
    | nil =>
      rw [findHeader, if_neg (by simp)]
      rfl
    | cons c rest =>
      have hnext := ih (pre ++ [b])
      have hlen : (pre ++ [b]).length = pre.length + 1 := by simp
      rw [hlen, List.append_assoc, List.singleton_append] at hnext
      have hb : (pre ++ b :: c :: rest).getD pre.length 0 = b := by simp
      have hc : (pre ++ b :: c :: rest).getD (pre.length + 1) 0 = c := by simp
      rw [findHeader, if_pos (by simp), answer_bind, answer_read, hb, answer_ite, answer_bind,
        answer_read, hc, answer_ite, hnext, answer_ret, headerSearch]
      by_cases hpair : b = 0xFF#8 ∧ c = 0xFF#8
      · rw [if_pos hpair.1, if_pos hpair.2, if_pos hpair, Nat.add_zero]
      · rw [if_neg hpair]
        split_ifs <;> first | omega | exact absurd ⟨‹_›, ‹_›⟩ hpair

theorem answer_sum_from {start n : ℕ} {buf : List Byte} (h : start + n ≤ buf.length)
    (sum : BitVec 32) : answerOn (sumFrom start n sum) buf =
      ((buf.drop start).take n).foldl (fun s b => s + b.setWidth 32) sum := by
  induction n generalizing start sum with
  | zero => rfl
  | succ n ih =>
    have hget : buf.drop start = buf.getD start 0 :: buf.drop (start + 1) := by
      rw [List.drop_eq_getElem_cons (by omega), List.getD_eq_getElem _ _ (by omega)]
    rw [sumFrom, answer_bind, ih (by omega), hget]
    rfl

theorem answer_checksum_from {start n : ℕ} {buf : List Byte} (h : start + n ≤ buf.length) :
    answerOn (checksumFrom start n) buf = ftsChecksum ((buf.drop start).take n) := by
  rw [checksumFrom, answer_bind, answer_sum_from h]
  rfl

def filled (buf : List Byte) (a : Answer (Except FtsError PacketSlice)) :
    Answer (Except FtsError FtsPacket) :=
  (a.1.map fun r => r.map fun s => s.packet buf, a.2)

theorem filled_error {buf : List Byte} {a : Answer (Except FtsError PacketSlice)} {e : FtsError}
    (h : (filled buf a).1 = some (.error e)) : a.1 = some (.error e) := by
  obtain ⟨_ | _ | s, n⟩ := a
  · cases h
  · cases h
    rfl
  · cases h

/-- On a buffer the reads give the answer of the parser. -/
theorem answer_parse_reads (buf : List Byte) :
    filled buf (answerOn (parseReads buf.length) buf) = ftsParseStatus buf := by
  have hsearch := answer_find_header [] buf
  rw [List.nil_append, List.length_nil, Nat.zero_add] at hsearch
  rw [parseReads, answer_bind, hsearch]
  unfold ftsParseStatus
  dsimp only
  generalize headerSearch buf = i
  by_cases hnone : i + 1 ≥ buf.length
  · rw [if_pos hnone, if_pos hnone, answer_ite, answer_bind, answer_read, answer_ret, answer_ret]
    cases hbuf : buf.getLast? with
    | none => simp [List.getLast?_eq_none_iff.mp hbuf, filled]
    | some b =>
      obtain ⟨ys, rfl⟩ := List.getLast?_eq_some_iff.mp hbuf
      simp [filled]
  rw [if_neg hnone, if_neg hnone, parseAt, answer_ite]
  by_cases hfour : buf.length - i < 4
  · rw [if_pos hfour, if_pos hfour]
    rfl
  rw [if_neg hfour, if_neg hfour, answer_bind, answer_read, answer_bind, answer_read, answer_ite]
  generalize buf.getD (i + 2) 0 = id
  generalize buf.getD (i + 3) 0 = plen
  by_cases hbad : id = 0xFF#8 ∨ plen.toNat < 2 ∨ plen.toNat > ftsMaxPkt - 4
  · rw [if_pos hbad, if_pos hbad]
    rfl
  rw [if_neg hbad, if_neg hbad, answer_ite]
  by_cases htotal : buf.length - i < plen.toNat + 4
  · rw [if_pos htotal, if_pos htotal]
    rfl
  rw [if_neg htotal, if_neg htotal, answer_bind, answer_checksum_from (by omega), answer_bind,
    answer_read, answer_ite]
  by_cases hchk : ftsChecksum ((buf.drop (i + 2)).take (plen.toNat + 4 - 3)) ≠
      buf.getD (i + (plen.toNat + 4) - 1) 0
  · rw [if_pos hchk, if_pos hchk]
    rfl
  · rw [if_neg hchk, if_neg hchk]
    rfl

/-- `k` turns of the receive loop, one after another, in which the parser reports an error;
none of them calls `fill_rx`. -/
inductive ErrorTurns (expectId : Byte) (cap : ℕ) : ℕ → FtsBus → FtsBus → Prop where
  | done (bus) : ErrorTurns expectId cap 0 bus bus
  | turn {k e n bus mid next} : ftsParseStatus bus.rxbuf = (some (.error e), n) →
      rxTurn bus expectId cap = .inr mid → ErrorTurns expectId cap k mid next →
      ErrorTurns expectId cap (k + 1) bus next

/-- Each turn that ends in an error takes at least a byte out of the buffer. -/
theorem error_turns_le {expectId : Byte} {cap k : ℕ} {bus next : FtsBus}
    (h : ErrorTurns expectId cap k bus next) :
    next.rxbuf.length + k ≤ bus.rxbuf.length ∧ next.arrivals = bus.arrivals := by
  induction h with
  | done bus => exact ⟨le_rfl, rfl⟩
  | @turn k e n bus mid next hparse hturn _ ih =>
    have hpos := parse_emit_pos hparse
    have hle := parse_consumed_le bus.rxbuf
    rw [hparse] at hle
    simp only [rxTurn, hparse] at hturn
    cases hturn
    rw [skip_corrupt_rxbuf, List.length_drop, skip_corrupt_arrivals] at ih
    obtain ⟨hlength, harrivals⟩ := ih
    simp only at hle
    exact ⟨by omega, harrivals⟩

/-- The reads stay in the buffer and give the answer of the parser; the answer lies in the
buffer and an error makes progress, so that the errors between two reads of the line are no
more than the bytes buffered. -/
theorem parser_bounds (buf : List Byte) :
    (parseReads buf.length).Only (· < buf.length) ∧
    filled buf (answerOn (parseReads buf.length) buf) = ftsParseStatus buf ∧
    (ftsParseStatus buf).2 ≤ buf.length ∧
    (∀ e, (ftsParseStatus buf).1 = some (.error e) → 1 ≤ (ftsParseStatus buf).2) ∧
    (∀ s, (answerOn (parseReads buf.length) buf).1 = some (.ok s) →
      s.data + s.ndata < buf.length ∧ s.data + s.ndata + 1 = (ftsParseStatus buf).2) ∧
    ∀ (bus next : FtsBus) (expectId : Byte) (cap k : ℕ), bus.rxbuf = buf →
      ErrorTurns expectId cap k bus next → k ≤ buf.length := by
  have hanswer := answer_parse_reads buf
  have hin : InBuffer buf.length (answerOn (parseReads buf.length) buf) :=
    (parse_reads_ensures buf.length).eval bufMemory buf
  have hconsumed : (answerOn (parseReads buf.length) buf).2 = (ftsParseStatus buf).2 :=
    congrArg Prod.snd hanswer
  refine ⟨parse_reads_only buf.length, hanswer, ?_, ?_, ?_, ?_⟩
  · rw [← hconsumed]
    exact hin.consumed_le
  · intro e he
    rw [← hanswer] at he
    rw [← hconsumed]
    exact hin.progress e (filled_error he)
  · intro s hs
    have hslice := hin.slice s hs
    have hle := hin.consumed_le
    rw [← hconsumed]
    exact ⟨by omega, hslice⟩
  · rintro bus next expectId cap k rfl hturns
    obtain ⟨hlength, _⟩ := error_turns_le hturns
    omega

end ParserBounds
