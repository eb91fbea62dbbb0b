import Mathlib.Data.Fintype.Basic
import Mathlib.Data.List.FinRange
import Mathlib.Data.Nat.Bitwise
import Mathlib.Tactic.FinCases
import So101.Calibration

/-!
# Servo registers and writes on the two buses

Sign-magnitude registers, the two sync-writes of the control thread, and what the last
delivered write of a kind left in the servos. A write that is not sent reaches no servo;
a sent one reaches all.
-/
namespace ServoBus

open Calibration (Joint)

abbrev U16 := BitVec 16
abbrev Byte := BitVec 8

def ftsDecodeSm (raw : U16) (signBit : ℕ) : ℤ :=
  let mask : U16 := BitVec.ofNat 16 (2 ^ signBit)
  let mag : ℤ := (raw &&& (mask - 1)).toNat
  if raw &&& mask ≠ 0 then -mag else mag

def ftsEncodeSm (value : ℤ) (signBit : ℕ) : U16 :=
  let mask : U16 := BitVec.ofNat 16 (2 ^ signBit)
  if value < 0 then (BitVec.ofInt 16 (-value) &&& (mask - 1)) ||| mask
  else BitVec.ofInt 16 value &&& (mask - 1)

def le16 (lo hi : Byte) : U16 := lo.setWidth 16 ||| hi.setWidth 16 <<< 8

def lowByte (e : U16) : Byte := (e &&& 0xFF#16).setWidth 8
def highByte (e : U16) : Byte := (e >>> 8).setWidth 8

@[simp] theorem le16_bytes (e : U16) : le16 (lowByte e) (highByte e) = e := by
  have hmask : ∀ i < 8, (0xFF#16).getLsbD i = true := by decide
  unfold le16 lowByte highByte
  ext i hi
  by_cases h : i < 8
  · simp [h, hmask i h, BitVec.getLsbD_eq_getElem hi]
  · have hshift : 8 + (i - 8) = i := by omega
    have hrest : i - 8 < 8 := by omega
    simp [h, hi, hshift, hrest]

def position (lo hi : Byte) : ℤ := ftsDecodeSm (le16 lo hi) 15

theorem sign_mask_15 : BitVec.ofNat 16 (2 ^ 15) = 32768#16 := by decide

theorem magnitude_mask_15 : 32768#16 - 1 = 32767#16 := by decide

theorem magnitude_toNat (raw : U16) : (raw &&& 32767#16).toNat = raw.toNat % 2 ^ 15 := by
  rw [BitVec.toNat_and]
  exact Nat.and_two_pow_sub_one_eq_mod raw.toNat 15

theorem sign_eq_zero_iff (raw : U16) : raw &&& 32768#16 = 0#16 ↔ raw.toNat < 2 ^ 15 := by
  have hraw := raw.isLt
  rw [← BitVec.toNat_inj, BitVec.toNat_and]
  change raw.toNat &&& 2 ^ 15 = 0 ↔ _
  rw [Nat.and_two_pow, Nat.testBit_eq_decide_div_mod_eq]
  have hdiv : raw.toNat / 2 ^ 15 % 2 = 0 ↔ raw.toNat < 2 ^ 15 := by omega
  simpa using hdiv

theorem decode_sm_15 (raw : U16) : ftsDecodeSm raw 15 =
    if raw.toNat < 2 ^ 15 then (raw.toNat : ℤ) else 2 ^ 15 - (raw.toNat : ℤ) := by
  have hraw := raw.isLt
  have hsign := sign_eq_zero_iff raw
  simp only [ftsDecodeSm, sign_mask_15, magnitude_mask_15, magnitude_toNat]
  by_cases h : raw.toNat < 2 ^ 15
  · simp only [h, iff_true] at hsign
    simp only [hsign, h]
    simp
    omega
  · simp only [h, iff_false] at hsign
    simp [hsign]
    omega

theorem abs_decode_le (raw : U16) : |ftsDecodeSm raw 15| ≤ 32767 := by
  have hraw := raw.isLt
  rw [decode_sm_15, abs_le]
  split <;> omega

theorem encode_sm_15 {v : ℤ} (h : |v| ≤ 32767) :
    ((ftsEncodeSm v 15).toNat : ℤ) = if v < 0 then 2 ^ 15 - v else v := by
  obtain ⟨hlo, hhi⟩ := abs_le.mp h
  simp only [ftsEncodeSm, sign_mask_15, magnitude_mask_15]
  split
  · have hmag : (BitVec.ofInt 16 (-v)).toNat % 2 ^ 15 < 2 ^ 15 := Nat.mod_lt _ (by decide)
    have hor := Nat.two_pow_add_eq_or_of_lt hmag 1
    rw [BitVec.toNat_or, magnitude_toNat, Nat.or_comm]
    change ((2 ^ 15 * 1 ||| (BitVec.ofInt 16 (-v)).toNat % 2 ^ 15 : ℕ) : ℤ) = _
    rw [← hor, BitVec.toNat_ofInt]
    omega
  · rw [magnitude_toNat, BitVec.toNat_ofInt]
    omega

theorem decode_encode {v : ℤ} (h : |v| ≤ 32767) : ftsDecodeSm (ftsEncodeSm v 15) 15 = v := by
  obtain ⟨hlo, hhi⟩ := abs_le.mp h
  have henc := encode_sm_15 h
  rw [decode_sm_15]
  split at henc <;> split <;> omega

def stsTorqueEnable : Byte := 40
def stsGoalPosition : Byte := 42

inductive Bus where
  | leader | follower
  deriving DecidableEq, Repr

/-- The arguments of `fts_sync_write`: `len` bytes for each of `ids`, one after another. -/
structure SyncWrite where
  ids : List Byte
  addr : Byte
  len : ℕ
  data : List Byte
  deriving DecidableEq, Repr

/-- The bytes of the servo `ids[k]`. -/
def SyncWrite.slice (w : SyncWrite) (k : ℕ) : List Byte := (w.data.drop (k * w.len)).take w.len

def setTorque (ids : Joint → Byte) (on : Bool) : SyncWrite where
  ids := List.ofFn ids
  addr := stsTorqueEnable
  len := 1
  data := List.ofFn (fun _ : Joint => if on then 1 else 0)

def goalBytes (goal : ℤ) : List Byte :=
  let e := ftsEncodeSm goal 15
  [lowByte e, highByte e]

def writeGoal (ids : Joint → Byte) (goal : Joint → ℤ) : SyncWrite where
  ids := List.ofFn ids
  addr := stsGoalPosition
  len := 2
  data := (List.finRange 6).flatMap (fun j => goalBytes (goal j))

def SyncWrite.IsTorque (w : SyncWrite) : Prop := w.addr = stsTorqueEnable
def SyncWrite.IsGoal (w : SyncWrite) : Prop := w.addr = stsGoalPosition

def SyncWrite.Enables (w : SyncWrite) : Prop := w.IsTorque ∧ ∃ b ∈ w.data, b ≠ 0#8

instance (w : SyncWrite) : Decidable w.IsTorque := inferInstanceAs (Decidable (_ = _))
instance (w : SyncWrite) : Decidable w.IsGoal := inferInstanceAs (Decidable (_ = _))
instance (w : SyncWrite) : Decidable w.Enables := inferInstanceAs (Decidable (_ ∧ _))

/-- The write sends the servo of joint `j` to position `v`. -/
def SyncWrite.SendsTo (w : SyncWrite) (j : Joint) (v : ℤ) : Prop :=
  ∃ lo hi, w.slice j = [lo, hi] ∧ position lo hi = v

section Writes

variable (ids : Joint → Byte) (goal : Joint → ℤ)

@[simp] theorem is_torque_set_torque (on : Bool) : (setTorque ids on).IsTorque := rfl

@[simp] theorem is_goal_set_torque (on : Bool) : ¬ (setTorque ids on).IsGoal := by
  simp [SyncWrite.IsGoal, setTorque, stsTorqueEnable, stsGoalPosition]

@[simp] theorem enables_set_torque (on : Bool) : (setTorque ids on).Enables ↔ on = true := by
  cases on <;> simp [SyncWrite.Enables, SyncWrite.IsTorque, setTorque]

@[simp] theorem is_goal_write_goal : (writeGoal ids goal).IsGoal := rfl

@[simp] theorem is_torque_write_goal : ¬ (writeGoal ids goal).IsTorque := by
  simp [SyncWrite.IsTorque, writeGoal, stsTorqueEnable, stsGoalPosition]

@[simp] theorem enables_write_goal : ¬ (writeGoal ids goal).Enables :=
  fun h => is_torque_write_goal ids goal h.1

theorem slice_write_goal (j : Joint) : (writeGoal ids goal).slice j = goalBytes (goal j) := by
  fin_cases j <;> rfl

theorem sends_write_goal {j : Joint} (h : |goal j| ≤ 32767) :
    (writeGoal ids goal).SendsTo j (goal j) := by
  refine ⟨_, _, slice_write_goal ids goal j, ?_⟩
  rw [position, le16_bytes, decode_encode h]

end Writes

/-- What the control thread does to a bus; `sent` means that the write returned no error. -/
inductive BusOp where
  | write (bus : Bus) (w : SyncWrite) (sent : Bool)
  | reopen (bus : Bus)
  deriving DecidableEq, Repr

def BusOp.bus : BusOp → Bus
  | .write bus _ _ => bus
  | .reopen bus => bus

def BusOp.delivered? : BusOp → Option SyncWrite
  | .write .follower w true => some w
  | _ => none

def delivered (ops : List BusOp) : List SyncWrite := ops.filterMap BusOp.delivered?

def lastDelivered (p : SyncWrite → Prop) [DecidablePred p] (ops : List BusOp) :
    Option SyncWrite :=
  (delivered ops).reverse.find? (fun w => decide (p w))

section Delivered

variable (p : SyncWrite → Prop) [DecidablePred p]

@[simp] theorem last_delivered_nil : lastDelivered p [] = none := rfl

theorem last_delivered_leader {ops : List BusOp} (h : ∀ op ∈ ops, op.bus = .leader) :
    lastDelivered p ops = none := by
  have hnone : delivered ops = [] := by
    apply List.filterMap_eq_nil_iff.mpr
    intro op hop
    cases op with
    | reopen bus => rfl
    | write bus w sent =>
      obtain rfl : bus = .leader := h _ hop
      rfl
  simp [lastDelivered, hnone]

theorem last_delivered_append (ops more : List BusOp) :
    lastDelivered p (ops ++ more) = (lastDelivered p more).or (lastDelivered p ops) := by
  simp [lastDelivered, delivered]

theorem last_delivered_singleton (op : BusOp) :
    lastDelivered p [op] = op.delivered?.filter (fun w => decide (p w)) := by
  cases h : op.delivered? with
  | none => simp [lastDelivered, delivered, h]
  | some w => by_cases hw : p w <;> simp [lastDelivered, delivered, h, hw, Option.filter]

end Delivered

end ServoBus
