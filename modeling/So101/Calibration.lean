import Mathlib.Algebra.Order.Field.Rat
import Mathlib.Data.Rat.Floor

/-!
# Calibration and joint-space mapping

The float operations of `calib.c` are those of a type `F`; nothing about rounding is
assumed here. Exact rational arithmetic is one instance.
-/
namespace Calibration

/-- `CALIB_NJ` and `SO101_NJ` are 6. -/
abbrev Joint := Fin 6

/-- The C operations on `float`: conversions from and to `int`, arithmetic and `<`. -/
class CFloat (F : Type*) extends Add F, Sub F, Mul F, Div F, Neg F where
  ofInt : ℤ → F
  lt : F → F → Bool
  trunc : F → ℤ

def truncRat (q : ℚ) : ℤ := q.num.tdiv q.den

instance : CFloat ℚ where
  ofInt n := n
  lt a b := decide (a < b)
  trunc := truncRat

structure CalibJoint where
  id : BitVec 8
  driveMode : ℤ
  homingOffset : ℤ
  rangeMin : ℤ
  rangeMax : ℤ
  isGripper : Bool
  deriving DecidableEq, Repr

abbrev CalibArm := Joint → CalibJoint

def fullRange : CalibArm := fun j =>
  { id := BitVec.ofNat 8 (j + 1), driveMode := 0, homingOffset := 0, rangeMin := 0,
    rangeMax := 4095, isGripper := j = 5 }

variable {F : Type*} [CFloat F]

open CFloat

def calibNormalize (j : CalibJoint) (raw : ℤ) : F :=
  let lo : F := ofInt j.rangeMin
  let hi : F := ofInt j.rangeMax
  let v : F := ofInt raw
  let v := if lt v lo then lo else v
  let v := if lt hi v then hi else v
  let u := (v - lo) / (hi - lo)
  if j.isGripper then
    let n := u * ofInt 100
    if j.driveMode ≠ 0 then ofInt 100 - n else n
  else
    let n := u * ofInt 200 - ofInt 100
    if j.driveMode ≠ 0 then -n else n

def calibUnnormalize (j : CalibJoint) (norm : F) : ℤ :=
  let u :=
    if j.isGripper then
      let norm := if j.driveMode ≠ 0 then ofInt 100 - norm else norm
      let norm := if lt norm (ofInt 0) then ofInt 0 else norm
      let norm := if lt (ofInt 100) norm then ofInt 100 else norm
      norm / ofInt 100
    else
      let norm := if j.driveMode ≠ 0 then -norm else norm
      let norm := if lt norm (ofInt (-100)) then ofInt (-100) else norm
      let norm := if lt (ofInt 100) norm then ofInt 100 else norm
      (norm + ofInt 100) / ofInt 200
  trunc (u * ofInt (j.rangeMax - j.rangeMin) + ofInt j.rangeMin)

end Calibration
