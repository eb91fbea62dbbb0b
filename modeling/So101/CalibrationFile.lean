import Mathlib.Data.Fin.VecNotation
import So101.CalibrationMap
import So101.SharedMemory

/-!
# Reading a calibration file

`calib_load` with its scanner `get_int`, over the bytes of the file. A byte is the
character with its code; `long` has 64 bits.
-/
namespace CalibrationFile

open Calibration (Joint CalibJoint CalibArm)
open CalibrationMap (RangeOk)
open SharedMemory (int32 int32_mem)

abbrev Text := List Char

def nul : Char := Char.ofNat 0

def quoted (key : String) : Text := ['"'] ++ key.toList ++ ['"']

/-- `strstr`, as the text from the match on. -/
def strstr (pat : Text) : Text → Option Text
  | [] => if pat = [] then some [] else none
  | ch :: s => if pat.isPrefixOf (ch :: s) then some (ch :: s) else strstr pat s

def strchr (ch : Char) : Text → Option Text
  | [] => none
  | ch' :: s => if ch' = ch then some (ch' :: s) else strchr ch s

/-- `isspace` in the C locale. -/
def isSpace (ch : Char) : Bool := ch.toNat = 32 || (9 ≤ ch.toNat && ch.toNat ≤ 13)

/-- `strtol` in base 10; nothing where it converts nothing. -/
def strtol (s : Text) : Option ℤ :=
  let s := s.dropWhile isSpace
  let negative := s.head? = some '-'
  let s := if s.head? = some '-' ∨ s.head? = some '+' then s.tail else s
  let digits := s.takeWhile Char.isDigit
  if digits = [] then
    none
  else
    let n : ℤ := digits.foldl (fun n ch => 10 * n + (ch.toNat - 48 : ℕ)) 0
    let v := if negative then -n else n
    some (max (-2 ^ 63) (min v (2 ^ 63 - 1)))

def getInt (obj : Text) (key : String) : Option ℤ := do
  let p ← strstr (quoted key) obj
  let p := (p.drop (quoted key).length).dropWhile isSpace
  if p.head? = some ':' then
    let v ← strtol p.tail
    pure (int32 v)
  else
    none

def calibJointNames : Joint → String :=
  ![ "shoulder_pan", "shoulder_lift", "elbow_flex", "wrist_flex", "wrist_roll", "gripper"]

inductive CalibError where
  | cannotOpen
  | notFound (k : Joint)
  | missingField (k : Joint)
  | invalid (k : Joint)
  deriving DecidableEq, Repr

def CalibError.code : CalibError → ℤ
  | .cannotOpen => -1
  | .notFound _ | .missingField _ | .invalid _ => -2

/-- The text for `err`, before `snprintf` cuts it to `errlen`. -/
def CalibError.message (path : String) : CalibError → String
  | .cannotOpen => "cannot open " ++ path
  | .notFound k => path ++ ": joint '" ++ calibJointNames k ++ "' not found"
  | .missingField k => path ++ ": '" ++ calibJointNames k ++ "' has a missing field"
  | .invalid k => path ++ ": '" ++ calibJointNames k ++ "' has invalid id/range"

/-- From the first `{` after the name up to the next `}`, cut to the buffer. -/
def objectOf (buf : Text) (name : String) : Option Text := do
  let p ← strstr (quoted name) buf
  let opened ← strchr '{' p
  let closed ← strchr '}' opened
  pure (opened.take (min (opened.length - closed.length) 511))

/-- One round of the loop in `calib_load`. -/
def loadJoint (buf : Text) (k : Joint) : Except CalibError CalibJoint :=
  match objectOf buf (calibJointNames k) with
  | none => .error (.notFound k)
  | some obj =>
    match getInt obj "id", getInt obj "drive_mode", getInt obj "homing_offset",
      getInt obj "range_min", getInt obj "range_max" with
    | some id, some driveMode, some homingOffset, some rangeMin, some rangeMax =>
      if id < 0 ∨ id > 253 ∨ rangeMax ≤ rangeMin then
        .error (.invalid k)
      else
        .ok
          { id := BitVec.ofInt 8 id, driveMode := driveMode, homingOffset := homingOffset,
            rangeMin := rangeMin, rangeMax := rangeMax, isGripper := k = Fin.last 5 }
    | _, _, _, _, _ => .error (.missingField k)

def loadJoints (buf : Text) : List Joint → CalibArm → Except CalibError CalibArm
  | [], arm => .ok arm
  | k :: ks, arm =>
    match loadJoint buf k with
    | .error e => .error e
    | .ok j => loadJoints buf ks (Function.update arm k j)

def zeroArm : CalibArm := fun _ =>
  { id := 0, driveMode := 0, homingOffset := 0, rangeMin := 0, rangeMax := 0, isGripper := false }

/-- What `fread` puts into the buffer, up to the first zero, where the string functions end. -/
def contents (bytes : Text) : Text := (bytes.take 16383).takeWhile (· ≠ nul)

/-- The file is `none` if it cannot be opened. -/
def calibLoad (file : Option Text) : Except CalibError CalibArm :=
  match file with
  | none => .error .cannotOpen
  | some bytes => loadJoints (contents bytes) (List.finRange 6) zeroArm

def returned : Except CalibError CalibArm → ℤ
  | .ok _ => 0
  | .error e => e.code

theorem returned_eq_zero_iff {r : Except CalibError CalibArm} :
    returned r = 0 ↔ ∃ arm, r = .ok arm := by
  rcases r with e | arm
  · cases e <;> simp [returned, CalibError.code]
  · simp [returned]

theorem get_int_mem {obj : Text} {key : String} {v : ℤ} (h : getInt obj key = some v) :
    -2 ^ 31 ≤ v ∧ v < 2 ^ 31 := by
  unfold getInt at h
  simp only [Option.bind_eq_bind, Option.bind_eq_some_iff] at h
  obtain ⟨p, _, h⟩ := h
  split_ifs at h with hcolon
  obtain ⟨w, _, h⟩ := Option.bind_eq_some_iff.mp h
  rw [← Option.some_inj.mp h]
  exact int32_mem w

structure Accepted (k : Joint) (j : CalibJoint) : Prop where
  id_le : j.id.toNat ≤ 253
  range : RangeOk j
  gripper : j.isGripper = decide (k = Fin.last 5)

theorem load_joint_accepted {buf : Text} {k : Joint} {j : CalibJoint}
    (h : loadJoint buf k = .ok j) : Accepted k j := by
  unfold loadJoint at h
  split at h
  · cases h
  split at h
  · rename_i hid hdrive hoff hmin hmax
    split_ifs at h with hbad
    obtain rfl := Except.ok.inj h
    push Not at hbad
    obtain ⟨hid₀, hid₁, hlt⟩ := hbad
    constructor
    · simp only [BitVec.toNat_ofInt]
      omega
    · exact ⟨(get_int_mem hmin).1, hlt, (get_int_mem hmax).2⟩
    · rfl
  · cases h

theorem load_joints_ok {buf : Text} {ks : List Joint} {arm arm' : CalibArm}
    (h : loadJoints buf ks arm = .ok arm') :
    (∀ k ∉ ks, arm' k = arm k) ∧ ∀ k ∈ ks, loadJoint buf k = .ok (arm' k) := by
  induction ks generalizing arm with
  | nil =>
    obtain rfl := Except.ok.inj h
    simp
  | cons k ks ih =>
    unfold loadJoints at h
    split at h
    · cases h
    rename_i j hj
    obtain ⟨hkept, hread⟩ := ih h
    constructor
    · intro k' hk'
      have hne : k' ≠ k := fun he => hk' (by simp [he])
      rw [hkept k' (fun hmem => hk' (by simp [hmem])), Function.update_of_ne hne]
    · intro k' hk'
      by_cases hmem : k' ∈ ks
      · exact hread k' hmem
      · obtain rfl : k' = k := (List.mem_cons.mp hk').resolve_right hmem
        rw [hkept k' hmem, Function.update_self]
        exact hj

theorem load_joints_eq {buf : Text} {arm : CalibArm} (h : ∀ k, loadJoint buf k = .ok (arm k))
    {ks : List Joint} {arm' : CalibArm} (hkept : ∀ k ∉ ks, arm' k = arm k) :
    loadJoints buf ks arm' = .ok arm := by
  induction ks generalizing arm' with
  | nil =>
    obtain rfl : arm' = arm := funext fun k => hkept k (by simp)
    rfl
  | cons k ks ih =>
    unfold loadJoints
    rw [h k]
    apply ih
    intro k' hk'
    by_cases hkk : k' = k
    · subst hkk
      rw [Function.update_self]
    · rw [Function.update_of_ne hkk]
      exact hkept k' (by simp [hkk, hk'])

theorem calib_load_eq {bytes : Text} {arm : CalibArm}
    (h : ∀ k, loadJoint (contents bytes) k = .ok (arm k)) : calibLoad (some bytes) = .ok arm :=
  load_joints_eq h (fun k hk => absurd (List.mem_finRange k) hk)

theorem calib_load_iff {bytes : Text} {arm : CalibArm} :
    calibLoad (some bytes) = .ok arm ↔ ∀ k, loadJoint (contents bytes) k = .ok (arm k) := by
  constructor
  · intro h k
    exact (load_joints_ok h).2 k (List.mem_finRange k)
  · exact calib_load_eq

theorem load_joint_refused {buf : Text} {k : Joint} {e : CalibError}
    (h : loadJoint buf k = .error e) : e = .notFound k ∨ e = .missingField k ∨ e = .invalid k := by
  unfold loadJoint at h
  split at h
  · exact Or.inl (Except.error.inj h).symm
  split at h
  · split_ifs at h
    exact Or.inr (Or.inr (Except.error.inj h).symm)
  · exact Or.inr (Or.inl (Except.error.inj h).symm)

/-- The refusal is that of the first joint that cannot be read. -/
theorem load_joints_refused {buf : Text} {ks : List Joint} {arm : CalibArm} {e : CalibError}
    (h : loadJoints buf ks arm = .error e) : ∃ pre k post, ks = pre ++ k :: post ∧
      (∀ k' ∈ pre, ∃ j, loadJoint buf k' = .ok j) ∧ loadJoint buf k = .error e := by
  induction ks generalizing arm with
  | nil => cases h
  | cons k ks ih =>
    unfold loadJoints at h
    split at h
    · rename_i hk
      obtain rfl := Except.error.inj h
      exact ⟨[], k, ks, rfl, by simp, hk⟩
    · rename_i j hk
      obtain ⟨pre, k', post, rfl, hpre, hk'⟩ := ih h
      refine ⟨k :: pre, k', post, rfl, fun k'' hmem => ?_, hk'⟩
      rcases List.mem_cons.mp hmem with rfl | hmem
      · exact ⟨j, hk⟩
      · exact hpre k'' hmem

/-- A file that is refused is refused with -2 and a text that names, after the path, the
first joint that cannot be read. -/
theorem calib_load_refused {bytes : Text} {e : CalibError}
    (h : calibLoad (some bytes) = .error e) :
    e.code = -2 ∧ ∃ k, loadJoint (contents bytes) k = .error e ∧
      (∀ k' < k, ∃ j, loadJoint (contents bytes) k' = .ok j) ∧
      ∀ path, ∃ before after, e.message path = path ++ before ++ calibJointNames k ++ after := by
  obtain ⟨pre, k, post, hsplit, hpre, hk⟩ := load_joints_refused h
  have hsorted : (pre ++ k :: post).Pairwise (· < ·) := hsplit ▸ List.pairwise_lt_finRange 6
  have hbelow : ∀ k' < k, k' ∈ pre := by
    intro k' hlt
    have hmem : k' ∈ pre ++ k :: post := hsplit ▸ List.mem_finRange k'
    rcases List.mem_append.mp hmem with hmem | hmem
    · exact hmem
    rcases List.mem_cons.mp hmem with rfl | hmem
    · exact absurd hlt (lt_irrefl _)
    · have hafter := (List.pairwise_cons.mp (List.pairwise_append.mp hsorted).2.1).1 k' hmem
      exact absurd hlt (lt_asymm hafter)
  have hkind := load_joint_refused hk
  refine ⟨?_, k, hk, fun k' hlt => hpre k' (hbelow k' hlt), fun path => ?_⟩
  · rcases hkind with rfl | rfl | rfl <;> rfl
  · rcases hkind with rfl | rfl | rfl <;> exact ⟨_, _, rfl⟩

theorem returned_of_rejected {bytes : Text} (h : ∀ arm, calibLoad (some bytes) ≠ .ok arm) :
    returned (calibLoad (some bytes)) = -2 := by
  cases hload : calibLoad (some bytes) with
  | ok arm => exact absurd hload (h arm)
  | error e => exact (calib_load_refused hload).1

theorem calib_load_accepted {file : Option Text} {arm : CalibArm}
    (h : calibLoad file = .ok arm) (k : Joint) : Accepted k (arm k) := by
  unfold calibLoad at h
  split at h
  · cases h
  · exact load_joint_accepted ((load_joints_ok h).2 k (List.mem_finRange k))

end CalibrationFile
