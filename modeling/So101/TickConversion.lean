import Mathlib.Algebra.Order.Field.Basic
import Mathlib.Algebra.Order.Field.Rat
import Mathlib.Data.List.Forall2
import Mathlib.Tactic.Linarith
import Mathlib.Tactic.Ring

/-!
# Ticks and radians in the bridge

`TickToRad` turns raw positions into joint angles, and `tick` turns servo velocities into
joint velocities by the slope of the body joints. The gripper has a slope of its own, which
its velocity does not use.
-/
namespace TickConversion

/-- `TickToRad`; `mid` follows from the ranges, which never change. -/
structure TickToRad (K : Type*) where
  ranges : List (K × K)
  signs : List K
  offsets : List K
  gripperRad : Option (K × K)

variable {K : Type*} [Field K]

def ticksPerRev : K := 4095

def ticksToRad (pi : K) : K := 2 * pi / ticksPerRev

/-- `TickToRad.__init__`: an empty list stands for the default. -/
def TickToRad.make (ranges : List (K × K)) (signs offsets : List K)
    (gripperRad : Option (K × K)) : TickToRad K where
  ranges := ranges
  signs := if signs.isEmpty then List.replicate ranges.length 1 else signs
  offsets := if offsets.isEmpty then List.replicate ranges.length 0 else offsets
  gripperRad := gripperRad

def TickToRad.mid (conv : TickToRad K) : List K := conv.ranges.map fun r => (r.1 + r.2) / 2

def bodyAngle (k : K) (rm so : K × K) : K := so.1 * (rm.1 - rm.2) * k + so.2

variable [LinearOrder K]

/-- `closed + u * (opened - closed)` with `u` cut off at 0 and 1. -/
def gripperAngle (range gripper : K × K) (raw : K) : K :=
  let u := min (max ((raw - range.1) / (range.2 - range.1)) 0) 1
  gripper.1 + u * (gripper.2 - gripper.1)

def TickToRad.call (pi : K) (conv : TickToRad K) (raw : List K) : List K :=
  let k := 2 * pi / ticksPerRev
  let out := List.zipWith (bodyAngle k) (raw.zip conv.mid) (conv.signs.zip conv.offsets)
  match conv.gripperRad with
  | none => out
  | some gripper =>
    out.dropLast ++
      [gripperAngle (conv.ranges.getLastD (0, 0)) gripper (raw.getLastD 0) +
        conv.offsets.getLastD 0]

omit [LinearOrder K] in
/-- `m.velocity` in `So101Bridge.tick`. -/
def TickToRad.velocity (pi : K) (conv : TickToRad K) (vel : List K) : List K :=
  List.zipWith (fun s v => s * v * ticksToRad pi) conv.signs vel

structure SixJoints (conv : TickToRad K) : Prop where
  ranges : conv.ranges.length = 6
  ordered : ∀ r ∈ conv.ranges, r.1 < r.2
  signs : conv.signs.length = 6
  offsets : conv.offsets.length = 6

def InRange (conv : TickToRad K) (raw : List K) : Prop :=
  List.Forall₂ (fun range r => range.1 ≤ r ∧ r ≤ range.2) conv.ranges raw

omit [LinearOrder K] in
theorem body_rate (k : K) {raw vel mid signs offsets : List K} (hraw : raw.length = signs.length)
    (hvel : vel.length = signs.length) (hmid : mid.length = signs.length)
    (hoffsets : offsets.length = signs.length) :
    List.zipWith (· - ·)
        (List.zipWith (bodyAngle k) ((List.zipWith (· + ·) raw vel).zip mid) (signs.zip offsets))
        (List.zipWith (bodyAngle k) (raw.zip mid) (signs.zip offsets)) =
      List.zipWith (fun s v => s * v * k) signs vel := by
  induction signs generalizing raw vel mid offsets with
  | nil => simp
  | cons s signs ih =>
    obtain ⟨r, raw, rfl⟩ := List.exists_cons_of_length_eq_add_one hraw
    obtain ⟨v, vel, rfl⟩ := List.exists_cons_of_length_eq_add_one hvel
    obtain ⟨m, mid, rfl⟩ := List.exists_cons_of_length_eq_add_one hmid
    obtain ⟨o, offsets, rfl⟩ := List.exists_cons_of_length_eq_add_one hoffsets
    simp only [List.length_cons, Nat.add_right_cancel_iff] at hraw hvel hmid hoffsets
    simp only [List.zipWith_cons_cons, List.zip_cons_cons, ih hraw hvel hmid hoffsets,
      List.cons.injEq, and_true, bodyAngle]
    ring

theorem exists_snoc {α : Type*} {l : List α} {n : ℕ} (h : l.length = n + 1) :
    ∃ init last, l = init ++ [last] ∧ init.length = n := by
  rcases List.eq_nil_or_concat l with rfl | ⟨init, last, rfl⟩
  · cases h
  · refine ⟨init, last, List.concat_eq_append, ?_⟩
    simpa using h

def lastAngle (pi : K) (range : K × K) (so : K × K) (gripperRad : Option (K × K)) (r : K) : K :=
  match gripperRad with
  | none => bodyAngle (2 * pi / ticksPerRev) (r, (range.1 + range.2) / 2) so
  | some gripper => gripperAngle range gripper r + so.2

theorem call_snoc (pi : K) {ranges : List (K × K)} {signs offsets raw : List K} {n : ℕ}
    (hranges : ranges.length = n) (hsigns : signs.length = n) (hoffsets : offsets.length = n)
    (hraw : raw.length = n) (range : K × K) (s o r : K) (gripperRad : Option (K × K)) :
    (TickToRad.mk (ranges ++ [range]) (signs ++ [s]) (offsets ++ [o]) gripperRad).call pi
        (raw ++ [r]) =
      List.zipWith (bodyAngle (2 * pi / ticksPerRev))
          (raw.zip (ranges.map fun r => (r.1 + r.2) / 2)) (signs.zip offsets) ++
        [lastAngle pi range (s, o) gripperRad r] := by
  have hmid : raw.length = (ranges.map fun r => (r.1 + r.2) / 2).length := by
    rw [List.length_map, hraw, hranges]
  have hso : signs.length = offsets.length := hsigns.trans hoffsets.symm
  have hzip : (raw.zip (ranges.map fun r => (r.1 + r.2) / 2)).length =
      (signs.zip offsets).length := by
    rw [List.length_zip, List.length_zip, ← hmid, ← hso, Nat.min_self, Nat.min_self, hraw, hsigns]
  simp only [TickToRad.call, TickToRad.mid, List.map_append, List.map_cons, List.map_nil]
  rw [List.zip_append hmid, List.zip_append hso, List.zipWith_append hzip]
  cases gripperRad with
  | none => rfl
  | some gripper =>
    simp only [List.zip_cons_cons, List.zip_nil_left, List.zipWith_cons_cons,
      List.zipWith_nil_left, List.dropLast_concat, List.getLastD_concat]
    rfl

theorem gripper_angle_of_mem [IsStrictOrderedRing K] {range : K × K} (hrange : range.1 < range.2)
    (gripper : K × K) {r : K} (hr : range.1 ≤ r ∧ r ≤ range.2) :
    gripperAngle range gripper r =
      gripper.1 + (r - range.1) / (range.2 - range.1) * (gripper.2 - gripper.1) := by
  have hwidth : 0 < range.2 - range.1 := sub_pos.mpr hrange
  have hlow : 0 ≤ (r - range.1) / (range.2 - range.1) :=
    div_nonneg (sub_nonneg.mpr hr.1) hwidth.le
  have hhigh : (r - range.1) / (range.2 - range.1) ≤ 1 := by
    rw [div_le_one hwidth]
    exact sub_le_sub_right hr.2 range.1
  simp only [gripperAngle, max_eq_left hlow, min_eq_left hhigh]

theorem last_rate_iff [IsStrictOrderedRing K] (pi : K) {range : K × K}
    (hrange : range.1 < range.2) (so : K × K) (gripperRad : Option (K × K)) {r v : K}
    (hr : range.1 ≤ r ∧ r ≤ range.2) (hnext : range.1 ≤ r + v ∧ r + v ≤ range.2) :
    lastAngle pi range so gripperRad (r + v) - lastAngle pi range so gripperRad r =
        so.1 * v * ticksToRad pi ↔
      ∀ gripper, gripperRad = some gripper → v = 0 ∨
        (gripper.2 - gripper.1) * ticksPerRev = so.1 * (2 * pi) * (range.2 - range.1) := by
  cases gripperRad with
  | none =>
    have hbody : lastAngle pi range so none (r + v) - lastAngle pi range so none r =
        so.1 * v * ticksToRad pi := by
      simp only [lastAngle, bodyAngle, ticksToRad]
      ring
    simp [hbody]
  | some gripper =>
    have hwidth : range.2 - range.1 ≠ 0 := (sub_pos.mpr hrange).ne'
    have hrev : (ticksPerRev : K) ≠ 0 := by norm_num [ticksPerRev]
    have hdiff : lastAngle pi range so (some gripper) (r + v) -
        lastAngle pi range so (some gripper) r =
          v * ((gripper.2 - gripper.1) / (range.2 - range.1)) := by
      simp only [lastAngle, gripper_angle_of_mem hrange gripper hr,
        gripper_angle_of_mem hrange gripper hnext]
      ring
    have hslope : (gripper.2 - gripper.1) / (range.2 - range.1) = so.1 * (2 * pi / ticksPerRev) ↔
        (gripper.2 - gripper.1) * ticksPerRev = so.1 * (2 * pi) * (range.2 - range.1) := by
      rw [div_eq_iff hwidth, mul_div_assoc', div_mul_eq_mul_div, eq_div_iff hrev]
    have hrate : so.1 * v * ticksToRad pi = v * (so.1 * (2 * pi / ticksPerRev)) := by
      rw [ticksToRad]
      ring
    rw [hdiff, hrate, mul_eq_mul_left_iff, hslope]
    constructor
    · rintro hcase g hg
      cases hg
      exact hcase.symm
    · intro hall
      exact (hall gripper rfl).symm

omit [Field K] in
theorem last_in_range {ranges : List (K × K)} {range : K × K} {signs offsets : List K}
    {gripperRad : Option (K × K)} {raw : List K} {r : K}
    (h : InRange ⟨ranges ++ [range], signs, offsets, gripperRad⟩ (raw ++ [r])) :
    range.1 ≤ r ∧ r ≤ range.2 := by
  have hrev := List.forall₂_reverse_iff.mpr h
  rw [List.reverse_concat, List.reverse_concat] at hrev
  exact (List.forall₂_cons.mp hrev).1

/-- Without `gripper_rad`, or with a gripper that stands still or has the slope of a body
joint, in its sign as well. -/
def GripperRate (pi : K) (conv : TickToRad K) (vel : List K) : Prop :=
  ∀ gripper, conv.gripperRad = some gripper → vel.getLastD 0 = 0 ∨
    (gripper.2 - gripper.1) * ticksPerRev = conv.signs.getLastD 0 * (2 * pi) *
      ((conv.ranges.getLastD (0, 0)).2 - (conv.ranges.getLastD (0, 0)).1)

/-- The published velocities are the differences of the published positions exactly under
the condition on the gripper. -/
theorem published_rate_iff [IsStrictOrderedRing K] (pi : K) (conv : TickToRad K)
    (hconv : SixJoints conv) (raw vel : List K) (hraw : InRange conv raw)
    (hvel : vel.length = 6) (hnext : InRange conv (List.zipWith (· + ·) raw vel)) :
    List.zipWith (· - ·) (conv.call pi (List.zipWith (· + ·) raw vel)) (conv.call pi raw) =
        conv.velocity pi vel ↔
      GripperRate pi conv vel := by
  obtain ⟨ranges, signs, offsets, gripperRad⟩ := conv
  have hlength : raw.length = 6 := hraw.length_eq.symm.trans hconv.ranges
  obtain ⟨ranges, range, rfl, hranges⟩ := exists_snoc hconv.ranges
  obtain ⟨signs, s, rfl, hsigns⟩ := exists_snoc hconv.signs
  obtain ⟨offsets, o, rfl, hoffsets⟩ := exists_snoc hconv.offsets
  obtain ⟨raw, r, rfl, hbody⟩ := exists_snoc hlength
  obtain ⟨vel, v, rfl, hmoves⟩ := exists_snoc hvel
  have hsum : List.zipWith (· + ·) (raw ++ [r]) (vel ++ [v]) =
      List.zipWith (· + ·) raw vel ++ [r + v] := by
    rw [List.zipWith_append (hbody.trans hmoves.symm)]
    rfl
  have hmoved : (List.zipWith (· + ·) raw vel).length = 5 := by
    rw [List.length_zipWith, hbody, hmoves]
    rfl
  have hmid : (ranges.map fun r => (r.1 + r.2) / 2).length = signs.length := by
    rw [List.length_map, hranges, hsigns]
  rw [hsum] at hnext ⊢
  have hrange : range.1 < range.2 := hconv.ordered range (by simp)
  have hlast := last_rate_iff pi hrange (s, o) gripperRad (last_in_range hraw)
    (last_in_range hnext)
  have hrest := body_rate (2 * pi / ticksPerRev) (hbody.trans hsigns.symm)
    (hmoves.trans hsigns.symm) hmid (hoffsets.trans hsigns.symm)
  rw [call_snoc pi hranges hsigns hoffsets hmoved, call_snoc pi hranges hsigns hoffsets hbody,
    List.zipWith_append (by simp [hmoved, hbody]), hrest, TickToRad.velocity,
    List.zipWith_append (hsigns.trans hmoves.symm)]
  have hcancel : ∀ {xs : List K} {a b : K}, xs ++ [a] = xs ++ [b] ↔ a = b := by simp
  simp only [GripperRate, List.getLastD_concat]
  exact hcancel.trans hlast

def followerRanges : List (ℚ × ℚ) := List.replicate 5 (0, 4095) ++ [(2000, 3000)]

theorem six_joints_follower (gripperRad : Option (ℚ × ℚ)) :
    SixJoints (TickToRad.make followerRanges [] [] gripperRad) where
  ranges := rfl
  ordered := by norm_num [TickToRad.make, followerRanges, List.replicate]
  signs := rfl
  offsets := rfl

theorem in_range_follower {r : ℚ} (gripperRad : Option (ℚ × ℚ)) (h : 2000 ≤ r ∧ r ≤ 3000) :
    InRange (TickToRad.make followerRanges [] [] gripperRad) (List.replicate 6 r) := by
  have hbody : 0 ≤ r ∧ r ≤ 4095 := ⟨by linarith [h.1], by linarith [h.2]⟩
  exact .cons hbody (.cons hbody (.cons hbody (.cons hbody (.cons hbody (.cons h .nil)))))

/-- Without `gripper_rad` the gripper is a joint like the others. -/
theorem published_rate_body :
    let conv := TickToRad.make followerRanges [] [] none
    List.zipWith (· - ·) (conv.call (355 / 113) (List.replicate 6 (2500 + 10)))
      (conv.call (355 / 113) (List.replicate 6 2500)) =
        conv.velocity (355 / 113) (List.replicate 6 10) := by
  intro conv
  have hrate := published_rate_iff (355 / 113) conv (six_joints_follower none)
    (List.replicate 6 2500) (List.replicate 6 10) (in_range_follower none (by norm_num)) rfl
    (in_range_follower none (by norm_num))
  apply hrate.mpr
  intro gripper hgripper
  cases hgripper

/-- With the default `follower_gripper_rad` the gripper turns by 0.01745 and is published
with the slope of a body joint. -/
theorem published_rate_gripper :
    let conv := TickToRad.make followerRanges [] [] (some (0, 1745 / 1000))
    SixJoints conv ∧ InRange conv (List.replicate 6 2500) ∧
      InRange conv (List.replicate 6 2510) ∧
      List.zipWith (· - ·) (conv.call (355 / 113) (List.replicate 6 2510))
        (conv.call (355 / 113) (List.replicate 6 2500)) ≠
          conv.velocity (355 / 113) (List.replicate 6 10) := by
  intro conv
  refine ⟨six_joints_follower _, in_range_follower _ (by norm_num),
    in_range_follower _ (by norm_num), ?_⟩
  norm_num [conv, TickToRad.call, TickToRad.velocity, TickToRad.make, TickToRad.mid,
    followerRanges, List.replicate, bodyAngle, gripperAngle, ticksPerRev, ticksToRad]

end TickConversion
