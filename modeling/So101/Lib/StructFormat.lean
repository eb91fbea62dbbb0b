import Mathlib.Data.List.ReduceOption
import So101.Lib.StructLayout

/-!
# Packed formats

The formats of Python's `struct` in standard sizes and little-endian order: nothing is
aligned. A format reads a C object right when the two give the scalars the same places.
-/
namespace StructFormat

open ByteRange StructLayout

inductive Code where
  | Q | q | I | i | H | h | B | f | x
  deriving DecidableEq, Repr

def Code.size : Code → ℕ
  | .Q | .q => 8
  | .I | .i | .f => 4
  | .H | .h => 2
  | .B | .x => 1

inductive Value where
  | int (n : ℤ)
  | float (bits : BitVec 32)
  deriving DecidableEq, Repr

/-- `bool(v)`; both zeros of a float are false. -/
def Value.truth : Value → Bool
  | .int n => n ≠ 0
  | .float bits => bits ≠ 0#32 ∧ bits ≠ 0x80000000#32

def Code.value : Code → ℕ → Option Value
  | .Q, w | .I, w | .H, w | .B, w => some (.int w)
  | .q, w => some (.int (BitVec.ofNat 64 w).toInt)
  | .i, w => some (.int (BitVec.ofNat 32 w).toInt)
  | .h, w => some (.int (BitVec.ofNat 16 w).toInt)
  | .f, w => some (.float (BitVec.ofNat 32 w))
  | .x, _ => none

@[simp] theorem value_q (x : BitVec 64) : Code.q.value x.toNat = some (.int x.toInt) := by
  rw [Code.value, BitVec.ofNat_toNat, BitVec.setWidth_eq]

@[simp] theorem value_i (x : BitVec 32) : Code.i.value x.toNat = some (.int x.toInt) := by
  rw [Code.value, BitVec.ofNat_toNat, BitVec.setWidth_eq]

@[simp] theorem value_h (x : BitVec 16) : Code.h.value x.toNat = some (.int x.toInt) := by
  rw [Code.value, BitVec.ofNat_toNat, BitVec.setWidth_eq]

@[simp] theorem value_f (x : BitVec 32) : Code.f.value x.toNat = some (.float x) := by
  rw [Code.value, BitVec.ofNat_toNat, BitVec.setWidth_eq]

abbrev Format := List (ℕ × Code)

def Format.codes (fmt : Format) : List Code := fmt.flatMap fun p => List.replicate p.1 p.2

def calcsize (fmt : Format) : ℕ := (fmt.codes.map Code.size).sum

def unpackAt : List Code → List Byte → ℕ → List Value
  | [], _, _ => []
  | k :: ks, bs, o => (k.value (leNat (slice bs o k.size))).toList ++ unpackAt ks bs (o + k.size)

def Format.unpack (fmt : Format) (bs : List Byte) : Option (List Value) :=
  if bs.length = calcsize fmt then some (unpackAt fmt.codes bs 0) else none

def Format.unpackFrom (fmt : Format) (bs : List Byte) (o : ℕ) : Option (List Value) :=
  if o + calcsize fmt ≤ bs.length then some (unpackAt fmt.codes bs o) else none

def Code.bits : Code → Value → Option ℕ
  | .Q, .int n => if 0 ≤ n ∧ n < 2 ^ 64 then some n.toNat else none
  | .I, .int n => if 0 ≤ n ∧ n < 2 ^ 32 then some n.toNat else none
  | .H, .int n => if 0 ≤ n ∧ n < 2 ^ 16 then some n.toNat else none
  | .B, .int n => if 0 ≤ n ∧ n < 2 ^ 8 then some n.toNat else none
  | .q, .int n => if -2 ^ 63 ≤ n ∧ n < 2 ^ 63 then some (BitVec.ofInt 64 n).toNat else none
  | .i, .int n => if -2 ^ 31 ≤ n ∧ n < 2 ^ 31 then some (BitVec.ofInt 32 n).toNat else none
  | .h, .int n => if -2 ^ 15 ≤ n ∧ n < 2 ^ 15 then some (BitVec.ofInt 16 n).toNat else none
  | .f, .float bits => some bits.toNat
  | _, _ => none

def packCodes : List Code → List Value → Option (List Byte)
  | [], [] => some []
  | [], _ :: _ => none
  | .x :: ks, vs => (packCodes ks vs).map (0#8 :: ·)
  | _ :: _, [] => none
  | k :: ks, v :: vs =>
    (k.bits v).bind fun w => (packCodes ks vs).map (leBytes k.size w ++ ·)

def Format.packInto (fmt : Format) (bs : List Byte) (o : ℕ) (vs : List Value) :
    Option (List Byte) :=
  if o + calcsize fmt ≤ bs.length then (packCodes fmt.codes vs).map (overwrite bs o) else none

theorem value_bits {k : Code} {v : Value} {w : ℕ} (h : k.bits v = some w) :
    w < 256 ^ k.size ∧ k.value w = some v := by
  cases k <;> cases v <;> simp only [Code.bits, reduceCtorEq, Option.some.injEq,
    Option.ite_none_right_eq_some] at h
  case f.float bits => exact h ▸ ⟨bits.isLt, value_f bits⟩
  case q.int n =>
    obtain ⟨hn, rfl⟩ := h
    refine ⟨(BitVec.ofInt 64 n).isLt, ?_⟩
    rw [value_q, BitVec.toInt_ofInt, Int.bmod_eq_of_le (by omega) (by omega)]
  case i.int n =>
    obtain ⟨hn, rfl⟩ := h
    refine ⟨(BitVec.ofInt 32 n).isLt, ?_⟩
    rw [value_i, BitVec.toInt_ofInt, Int.bmod_eq_of_le (by omega) (by omega)]
  case h.int n =>
    obtain ⟨hn, rfl⟩ := h
    refine ⟨(BitVec.ofInt 16 n).isLt, ?_⟩
    rw [value_h, BitVec.toInt_ofInt, Int.bmod_eq_of_le (by omega) (by omega)]
  all_goals
    obtain ⟨hn, rfl⟩ := h
    refine ⟨by simp only [Code.size]; omega, ?_⟩
    simp only [Code.value, Int.toNat_of_nonneg hn.1]

variable {mem : List Byte} {base : ℕ}

theorem unpack_packed {ks : List Code} {vs : List Value} {bs : List Byte}
    (h : packCodes ks vs = some bs) (hmem : slice mem base bs.length = bs) :
    unpackAt ks mem base = vs := by
  induction ks generalizing vs bs base with
  | nil =>
    cases vs with
    | nil => rfl
    | cons v vs => cases h
  | cons k ks ih =>
    by_cases hpad : k = .x
    · subst hpad
      rw [packCodes] at h
      obtain ⟨rest, hrest, rfl⟩ := Option.map_eq_some_iff.mp h
      obtain ⟨_, htail⟩ := @slice_append _ mem [0#8] base rest (by simpa [Nat.add_comm] using hmem)
      exact ih hrest htail
    · cases vs with
      | nil => cases k <;> first | exact absurd rfl hpad | cases h
      | cons v vs =>
        rw [packCodes] at h
        · obtain ⟨w, hw, hmap⟩ := Option.bind_eq_some_iff.mp h
          obtain ⟨rest, hrest, rfl⟩ := Option.map_eq_some_iff.mp hmap
          obtain ⟨hlt, hvalue⟩ := value_bits hw
          rw [List.length_append] at hmem
          obtain ⟨hhead, htail⟩ := slice_append hmem
          rw [length_le_bytes] at hhead htail
          rw [unpackAt, hhead, le_nat_of_lt hlt, hvalue, ih hrest htail]
          rfl
        · exact hpad

theorem length_packed {ks : List Code} {vs : List Value} {bs : List Byte}
    (h : packCodes ks vs = some bs) : bs.length = (ks.map Code.size).sum := by
  induction ks generalizing vs bs with
  | nil =>
    cases vs with
    | nil =>
      cases h
      rfl
    | cons v vs => cases h
  | cons k ks ih =>
    by_cases hpad : k = .x
    · subst hpad
      rw [packCodes] at h
      obtain ⟨rest, hrest, rfl⟩ := Option.map_eq_some_iff.mp h
      rw [List.length_cons, ih hrest, List.map_cons, List.sum_cons, Code.size, Nat.add_comm]
    · cases vs with
      | nil => cases k <;> first | exact absurd rfl hpad | cases h
      | cons v vs =>
        rw [packCodes] at h
        · obtain ⟨w, hw, hmap⟩ := Option.bind_eq_some_iff.mp h
          obtain ⟨rest, hrest, rfl⟩ := Option.map_eq_some_iff.mp hmap
          rw [List.length_append, length_le_bytes, ih hrest, List.map_cons, List.sum_cons]
        · exact hpad

theorem pack_in_range {ks : List Code} {vs : List Value} (hpad : .x ∉ ks)
    (h : List.Forall₂ (fun k v => (k.bits v).isSome) ks vs) : ∃ p, packCodes ks vs = some p := by
  induction h with
  | nil => exact ⟨[], rfl⟩
  | @cons k v ks vs hbits _ ih =>
    obtain ⟨hk, hks⟩ := not_or.mp (mt List.mem_cons.mpr hpad)
    obtain ⟨w, hw⟩ := Option.isSome_iff_exists.mp hbits
    obtain ⟨rest, hrest⟩ := ih hks
    refine ⟨leBytes k.size w ++ rest, ?_⟩
    rw [packCodes, hw, hrest]
    · rfl
    · exact Ne.symm hk

theorem packs_I {n : ℤ} (hlow : 0 ≤ n) (hhigh : n < 2 ^ 32) :
    (Code.I.bits (.int n)).isSome := by
  rw [Code.bits, if_pos ⟨hlow, hhigh⟩, Option.isSome_some]

theorem packs_i {n : ℤ} (hlow : -2 ^ 31 ≤ n) (hhigh : n < 2 ^ 31) :
    (Code.i.bits (.int n)).isSome := by
  rw [Code.bits, if_pos ⟨hlow, hhigh⟩, Option.isSome_some]

theorem pack_into_fits {fmt : Format} {bs : List Byte} {o : ℕ} {vs : List Value}
    (hfit : o + calcsize fmt ≤ bs.length) (hpad : .x ∉ fmt.codes)
    (h : List.Forall₂ (fun k v => (k.bits v).isSome) fmt.codes vs) :
    ∃ bs', fmt.packInto bs o vs = some bs' := by
  obtain ⟨p, hp⟩ := pack_in_range hpad h
  exact ⟨overwrite bs o p, by rw [Format.packInto, if_pos hfit, hp, Option.map_some]⟩

theorem packed_into {fmt : Format} {bs bs' : List Byte} {o : ℕ} {vs : List Value}
    (h : fmt.packInto bs o vs = some bs') :
    ∃ p, p.length = calcsize fmt ∧ o + p.length ≤ bs.length ∧ bs' = overwrite bs o p ∧
      unpackAt fmt.codes bs' o = vs := by
  rw [Format.packInto, Option.ite_none_right_eq_some] at h
  obtain ⟨hfit, hmap⟩ := h
  obtain ⟨p, hp, rfl⟩ := Option.map_eq_some_iff.mp hmap
  have hlen : p.length = calcsize fmt := length_packed hp
  refine ⟨p, hlen, by omega, rfl, ?_⟩
  exact unpack_packed hp (slice_overwrite (by omega) p)

variable {α : Type*}

def spans : ℕ → List Code → List (ℕ × ℕ)
  | _, [] => []
  | o, k :: ks => (o, k.size) :: spans (o + k.size) ks

def Cell.span (c : Cell α) : ℕ × ℕ := (c.offset, c.width)

def cellValues (ks : List Code) (cells : List (Cell α)) (a : α) : List Value :=
  (List.zipWith (fun k c => k.value (c.bits a)) ks cells).reduceOption

variable {a : α}

theorem unpack_cells {ks : List Code} {cells : List (Cell α)} {o : ℕ}
    (hspans : spans o ks = cells.map Cell.span)
    (hheld : ∀ c ∈ cells, leNat (slice mem (base + c.offset) c.width) = c.bits a) :
    unpackAt ks mem (base + o) = cellValues ks cells a := by
  induction ks generalizing cells o with
  | nil => rfl
  | cons k ks ih =>
    cases cells with
    | nil => cases hspans
    | cons c cells =>
      obtain ⟨hspan, hrest⟩ := List.cons.inj hspans
      obtain ⟨ho, hk⟩ := Prod.mk.inj hspan
      obtain ⟨hc, hcs⟩ := List.forall_mem_cons.mp hheld
      subst ho
      have htail := ih hrest hcs
      rw [unpackAt, hk, hc, Nat.add_assoc, ← hk, htail]
      cases hv : k.value (c.bits a) <;> simp [cellValues, hv]

/-- The format puts the scalars where the C type has them. -/
structure Fits (fmt : Format) (t : CType α) : Prop where
  size : calcsize fmt = t.size
  places : spans 0 fmt.codes = t.cells.map Cell.span

theorem Fits.unpackFrom {fmt : Format} {t : CType α} (h : Fits fmt t)
    (hmem : base + t.size ≤ mem.length) (hheld : t.Holds mem base a) :
    fmt.unpackFrom mem base = some (cellValues fmt.codes t.cells a) := by
  rw [Format.unpackFrom, if_pos (h.size ▸ hmem)]
  exact congrArg some (unpack_cells h.places fun c hc => hheld.word hc)

theorem Fits.unpack {fmt : Format} {t : CType α} (h : Fits fmt t)
    (hmem : base + t.size ≤ mem.length) (hheld : t.Holds mem base a) :
    fmt.unpack (slice mem base t.size) = some (cellValues fmt.codes t.cells a) := by
  have hcopy : t.Holds (slice mem base t.size) 0 a := by
    intro c hc
    rw [Nat.zero_add, slice_slice (t.sound.inside c hc)]
    exact hheld c hc
  have hheld : ∀ c ∈ t.cells,
      leNat (slice (slice mem base t.size) (0 + c.offset) c.width) = c.bits a :=
    fun c hc => hcopy.word hc
  rw [Format.unpack, if_pos (by rw [length_slice hmem, h.size])]
  exact congrArg some (unpack_cells h.places hheld)

end StructFormat
