import Mathlib.Data.List.Pairwise
import Mathlib.Data.List.FinRange
import Mathlib.Algebra.Order.Group.Nat
import Mathlib.Algebra.Order.Ring.Nat
import So101.Lib.ByteRange

/-!
# C objects in memory

The layout of C types on a little-endian target with natural alignment. A type of objects
with value `α` is given by the cells that hold its scalars; what lies between the cells is
padding, which a store leaves alone.
-/
namespace StructLayout

open ByteRange

abbrev Byte := BitVec 8

def leBytes : ℕ → ℕ → List Byte
  | 0, _ => []
  | n + 1, w => BitVec.ofNat 8 w :: leBytes n (w / 256)

def leNat : List Byte → ℕ
  | [] => 0
  | b :: bs => b.toNat + 256 * leNat bs

@[simp] theorem length_le_bytes (n w : ℕ) : (leBytes n w).length = n := by
  induction n generalizing w with
  | zero => rfl
  | succ n ih => rw [leBytes, List.length_cons, ih]

theorem le_nat_le_bytes (n w : ℕ) : leNat (leBytes n w) = w % 256 ^ n := by
  induction n generalizing w with
  | zero => simp [leBytes, leNat, Nat.mod_one]
  | succ n ih =>
    have hlow : (BitVec.ofNat 8 w).toNat = w % 256 := BitVec.toNat_ofNat w 8
    rw [leBytes, leNat, ih, hlow, pow_succ' 256 n, Nat.mod_mul]

theorem le_nat_of_lt {n w : ℕ} (h : w < 256 ^ n) : leNat (leBytes n w) = w := by
  rw [le_nat_le_bytes, Nat.mod_eq_of_lt h]

theorem le_bytes_le_nat (bs : List Byte) : leBytes bs.length (leNat bs) = bs := by
  induction bs with
  | nil => rfl
  | cons b bs ih =>
    have hb : b.toNat < 256 := b.isLt
    have hlow : BitVec.ofNat 8 (b.toNat + 256 * leNat bs) = b := by
      apply BitVec.eq_of_toNat_eq
      rw [BitVec.toNat_ofNat]
      omega
    have hhigh : (b.toNat + 256 * leNat bs) / 256 = leNat bs := by omega
    rw [List.length_cons, leNat, leBytes, hlow, hhigh, ih]

theorem le_nat_lt (bs : List Byte) : leNat bs < 256 ^ bs.length := by
  rw [← le_bytes_le_nat bs, le_nat_le_bytes, length_le_bytes]
  exact Nat.mod_lt _ (Nat.pow_pos (by decide))

theorem take_le_bytes (m n w : ℕ) : (leBytes (m + n) w).take m = leBytes m w := by
  induction m generalizing w with
  | zero => rw [List.take_zero, leBytes]
  | succ m ih => rw [Nat.add_right_comm, leBytes, leBytes, List.take_succ_cons, ih]

variable {α β : Type*}

structure Cell (α : Type*) where
  offset : ℕ
  width : ℕ
  bits : α → ℕ

def Cell.shift (d : ℕ) (c : Cell α) : Cell α := { c with offset := d + c.offset }

def Cell.of (get : β → α) (c : Cell α) : Cell β := ⟨c.offset, c.width, fun b => c.bits (get b)⟩

def Cell.stop (c : Cell α) : ℕ := c.offset + c.width

/-- The cells do not overlap, lie in the object, and are wide enough. -/
structure Sound (size : ℕ) (cells : List (Cell α)) : Prop where
  ordered : cells.Pairwise fun c d => c.stop ≤ d.offset
  inside : ∀ c ∈ cells, c.stop ≤ size
  fits : ∀ c ∈ cells, ∀ a, c.bits a < 256 ^ c.width

structure CType (α : Type*) where
  size : ℕ
  align : ℕ
  cells : List (Cell α)
  sound : Sound size cells

theorem Sound.of {size : ℕ} {cells : List (Cell α)} (h : Sound size cells) (get : β → α) :
    Sound size (cells.map (Cell.of get)) where
  ordered := List.pairwise_map.mpr h.ordered
  inside := List.forall_mem_map.mpr h.inside
  fits := List.forall_mem_map.mpr fun c hc b => h.fits c hc (get b)

theorem Sound.shift {size d : ℕ} {cells : List (Cell α)} (h : Sound size cells) :
    Sound (d + size) (cells.map (Cell.shift d)) where
  ordered := List.pairwise_map.mpr (h.ordered.imp fun {c e} hce => by
    change d + c.offset + c.width ≤ d + e.offset
    have : c.offset + c.width ≤ e.offset := hce
    omega)
  inside := List.forall_mem_map.mpr fun c hc => by
    change d + c.offset + c.width ≤ d + size
    have : c.offset + c.width ≤ size := h.inside c hc
    omega
  fits := List.forall_mem_map.mpr h.fits

theorem Sound.append {m n : ℕ} {cs ds : List (Cell α)} (hc : Sound m cs) (hd : Sound n ds)
    (hmn : m ≤ n) (hlow : ∀ d ∈ ds, m ≤ d.offset) : Sound n (cs ++ ds) where
  ordered := List.pairwise_append.mpr ⟨hc.ordered, hd.ordered, fun c hcs d hds =>
    (hc.inside c hcs).trans (hlow d hds)⟩
  inside := List.forall_mem_append.mpr ⟨fun c h => (hc.inside c h).trans hmn, hd.inside⟩
  fits := List.forall_mem_append.mpr ⟨hc.fits, hd.fits⟩

theorem Sound.nil (size : ℕ) : Sound size ([] : List (Cell α)) :=
  ⟨List.Pairwise.nil, List.forall_mem_nil _, List.forall_mem_nil _⟩

theorem scalar_sound (n : ℕ) (bits : α → BitVec (8 * n)) :
    Sound n [⟨0, n, fun a => (bits a).toNat⟩] where
  ordered := List.pairwise_singleton _ _
  inside := List.forall_mem_singleton.mpr (Nat.zero_add n).le
  fits := List.forall_mem_singleton.mpr fun a => by
    have h := (bits a).isLt
    rwa [pow_mul] at h

def scalar (n : ℕ) (bits : α → BitVec (8 * n)) : CType α :=
  ⟨n, n, [⟨0, n, fun a => (bits a).toNat⟩], scalar_sound n bits⟩

def CType.of (t : CType α) (get : β → α) : CType β :=
  ⟨t.size, t.align, t.cells.map (Cell.of get), t.sound.of get⟩

/-- The next multiple of `a`. -/
def roundUp (n a : ℕ) : ℕ := n + (a - n % a) % a

theorem le_round_up (n a : ℕ) : n ≤ roundUp n a := Nat.le_add_right ..

/-- Each member at the first aligned offset from the end of the last. -/
def placed : ℕ → List (CType α) → List (ℕ × CType α)
  | _, [] => []
  | o, t :: ts => (roundUp o t.align, t) :: placed (roundUp o t.align + t.size) ts

def endOf : ℕ → List (CType α) → ℕ
  | o, [] => o
  | o, t :: ts => endOf (roundUp o t.align + t.size) ts

def cellsAt (p : ℕ × CType α) : List (Cell α) := p.2.cells.map (Cell.shift p.1)

theorem placed_sound (o : ℕ) (ts : List (CType α)) :
    o ≤ endOf o ts ∧ Sound (endOf o ts) ((placed o ts).flatMap cellsAt) ∧
      ∀ c ∈ (placed o ts).flatMap cellsAt, o ≤ c.offset := by
  induction ts generalizing o with
  | nil => exact ⟨le_rfl, .nil o, List.forall_mem_nil _⟩
  | cons t ts ih =>
    obtain ⟨hend, hsound, hlow⟩ := ih (roundUp o t.align + t.size)
    have ho := le_round_up o t.align
    have hhead : Sound (roundUp o t.align + t.size) (cellsAt (roundUp o t.align, t)) :=
      t.sound.shift
    rw [placed, endOf, List.flatMap_cons]
    refine ⟨by omega, hhead.append hsound hend hlow, ?_⟩
    intro c hc
    rcases List.mem_append.mp hc with hc | hc
    · obtain ⟨c, _, rfl⟩ := List.mem_map.mp hc
      change o ≤ roundUp o t.align + c.offset
      omega
    · have := hlow c hc
      omega

theorem Sound.mono {m n : ℕ} {cells : List (Cell α)} (h : Sound m cells) (hmn : m ≤ n) :
    Sound n cells :=
  ⟨h.ordered, fun c hc => (h.inside c hc).trans hmn, h.fits⟩

def maxAlign (ts : List (CType α)) : ℕ := (ts.map CType.align).foldr max 1

def struct (members : List (CType α)) : CType α :=
  ⟨roundUp (endOf 0 members) (maxAlign members), maxAlign members,
    (placed 0 members).flatMap cellsAt,
    (placed_sound 0 members).2.1.mono (le_round_up _ _)⟩

def elements (k : ℕ) (t : CType α) : List (ℕ × CType (Fin k → α)) :=
  (List.finRange k).map fun i : Fin k => (i.val * t.size, t.of fun xs : Fin k → α => xs i)

theorem elements_sound (k : ℕ) (t : CType α) :
    Sound (k * t.size) ((elements k t).flatMap cellsAt) := by
  have hsound : ∀ i : Fin k, Sound (i * t.size + t.size)
      (cellsAt (i.val * t.size, t.of fun xs : Fin k → α => xs i)) := fun i => (t.sound.of _).shift
  rw [elements, List.flatMap_map]
  constructor
  · rw [List.pairwise_flatMap]
    refine ⟨fun i _ => (hsound i).ordered, (List.pairwise_lt_finRange k).imp ?_⟩
    intro i j hij c hc d hd
    obtain ⟨d, _, rfl⟩ := List.mem_map.mp hd
    calc c.stop ≤ i * t.size + t.size := (hsound i).inside c hc
      _ = (i + 1) * t.size := (Nat.succ_mul ..).symm
      _ ≤ j * t.size := Nat.mul_le_mul_right _ hij
      _ ≤ j * t.size + d.offset := Nat.le_add_right ..
  · intro c hc
    obtain ⟨i, _, hc⟩ := List.mem_flatMap.mp hc
    calc c.stop ≤ i * t.size + t.size := (hsound i).inside c hc
      _ = (i + 1) * t.size := (Nat.succ_mul ..).symm
      _ ≤ k * t.size := Nat.mul_le_mul_right _ i.isLt
  · intro c hc
    obtain ⟨i, _, hc⟩ := List.mem_flatMap.mp hc
    exact (hsound i).fits c hc

def array (k : ℕ) (t : CType α) : CType (Fin k → α) :=
  ⟨k * t.size, t.align, (elements k t).flatMap cellsAt, elements_sound k t⟩

/-- The bytes from `base` on are those of the value; the padding may be anything. -/
def CType.Holds (t : CType α) (mem : List Byte) (base : ℕ) (a : α) : Prop :=
  ∀ c ∈ t.cells, slice mem (base + c.offset) c.width = leBytes c.width (c.bits a)

def storeCells (a : α) (base : ℕ) : List (Cell α) → List Byte → List Byte
  | [], mem => mem
  | c :: cs, mem =>
    storeCells a base cs (overwrite mem (base + c.offset) (leBytes c.width (c.bits a)))

def CType.store (t : CType α) (a : α) (mem : List Byte) (base : ℕ) : List Byte :=
  storeCells a base t.cells mem

variable {a : α} {base size : ℕ} {cells : List (Cell α)} {mem : List Byte}

theorem length_store_cells (hin : ∀ c ∈ cells, c.stop ≤ size) (hmem : base + size ≤ mem.length) :
    (storeCells a base cells mem).length = mem.length := by
  induction cells generalizing mem with
  | nil => rfl
  | cons c cs ih =>
    obtain ⟨hc, hcs⟩ := List.forall_mem_cons.mp hin
    rw [Cell.stop] at hc
    have hlen : (overwrite mem (base + c.offset) (leBytes c.width (c.bits a))).length =
        mem.length := length_overwrite (by rw [length_le_bytes]; omega)
    rw [storeCells, ih hcs (by omega), hlen]

theorem slice_store_cells {i n : ℕ} (hin : ∀ c ∈ cells, c.stop ≤ size)
    (hmem : base + size ≤ mem.length) (hbefore : ∀ c ∈ cells, i + n ≤ base + c.offset) :
    slice (storeCells a base cells mem) i n = slice mem i n := by
  induction cells generalizing mem with
  | nil => rfl
  | cons c cs ih =>
    obtain ⟨hc, hcs⟩ := List.forall_mem_cons.mp hin
    obtain ⟨hb, hbs⟩ := List.forall_mem_cons.mp hbefore
    rw [Cell.stop] at hc
    have hlen : (overwrite mem (base + c.offset) (leBytes c.width (c.bits a))).length =
        mem.length := length_overwrite (by rw [length_le_bytes]; omega)
    rw [storeCells, ih hcs (by omega) hbs,
      slice_overwrite_of_disjoint (by omega) _ (Or.inl hb)]

theorem store_cells_hold (h : Sound size cells) (hmem : base + size ≤ mem.length) :
    ∀ c ∈ cells, slice (storeCells a base cells mem) (base + c.offset) c.width =
      leBytes c.width (c.bits a) := by
  induction cells generalizing mem with
  | nil => exact List.forall_mem_nil _
  | cons c cs ih =>
    obtain ⟨hord, hords⟩ := List.pairwise_cons.mp h.ordered
    obtain ⟨hc, hcs⟩ := List.forall_mem_cons.mp h.inside
    have hsound : Sound size cs := ⟨hords, hcs, (List.forall_mem_cons.mp h.fits).2⟩
    simp only [Cell.stop] at hc hord
    have hlen : (overwrite mem (base + c.offset) (leBytes c.width (c.bits a))).length =
        mem.length := length_overwrite (by rw [length_le_bytes]; omega)
    intro e he
    rcases List.mem_cons.mp he with rfl | he
    swap
    · exact ih hsound (by omega) e he
    have hbefore : ∀ d ∈ cs, base + e.offset + e.width ≤ base + d.offset := fun d hd => by
      have := hord d hd
      omega
    rw [storeCells, slice_store_cells hcs (by omega) hbefore]
    have hslice := @slice_overwrite _ mem (base + e.offset) (by omega)
      (leBytes e.width (e.bits a))
    rwa [length_le_bytes] at hslice

theorem CType.store_holds (t : CType α) (a : α) (h : base + t.size ≤ mem.length) :
    t.Holds (t.store a mem base) base a :=
  store_cells_hold t.sound h

theorem holds_of {t : CType α} {get : β → α} {b : β} :
    (t.of get).Holds mem base b ↔ t.Holds mem base (get b) :=
  List.forall_mem_map

theorem holds_cells {p : ℕ × CType α} :
    (∀ c ∈ cellsAt p, slice mem (base + c.offset) c.width = leBytes c.width (c.bits a)) ↔
      p.2.Holds mem (base + p.1) a := by
  rw [cellsAt, List.forall_mem_map]
  simp only [CType.Holds, Cell.shift, Nat.add_assoc]

theorem holds_struct {members : List (CType α)} : (struct members).Holds mem base a ↔
    ∀ p ∈ placed 0 members, p.2.Holds mem (base + p.1) a := by
  simp only [CType.Holds, struct, List.forall_mem_flatMap]
  exact forall₂_congr fun p _ => holds_cells

theorem holds_array {k : ℕ} {t : CType α} {xs : Fin k → α} :
    (array k t).Holds mem base xs ↔ ∀ i : Fin k, t.Holds mem (base + i * t.size) (xs i) := by
  simp only [CType.Holds, array, elements, List.flatMap_map, List.forall_mem_flatMap]
  have helem : ∀ i : Fin k, (t.of fun xs : Fin k → α => xs i).Holds mem (base + i * t.size) xs ↔
      t.Holds mem (base + i * t.size) (xs i) := fun i => holds_of
  constructor
  · exact fun h i => (helem i).mp (holds_cells.mp (h i (List.mem_finRange i)))
  · exact fun h i _ => holds_cells.mpr ((helem i).mpr (h i))

theorem slice_byte_array {k : ℕ} {bits : Byte → BitVec (8 * 1)} {xs : Fin k → Byte}
    (hbits : ∀ x, bits x = x) (h : (array k (scalar 1 bits)).Holds mem base xs) :
    slice mem base k = List.ofFn xs := by
  have helem : ∀ i : Fin k, mem[base + i]? = some (xs i) := by
    intro i
    have hcell := holds_array.mp h i _ (List.mem_singleton.mpr rfl)
    have hget := congrArg (fun bs : List Byte => bs[0]?) hcell
    simpa [get_slice, scalar, leBytes, hbits] using hget
  apply List.ext_getElem?
  intro i
  rw [get_slice, List.getElem?_ofFn]
  by_cases hi : i < k
  · rw [if_pos hi, dif_pos hi]
    exact helem ⟨i, hi⟩
  · rw [if_neg hi, dif_neg hi]

theorem CType.Holds.word {t : CType α} (h : t.Holds mem base a) {c : Cell α} (hc : c ∈ t.cells) :
    leNat (slice mem (base + c.offset) c.width) = c.bits a := by
  rw [h c hc, le_nat_of_lt (t.sound.fits c hc a)]

end StructLayout
