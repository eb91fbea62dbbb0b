import Mathlib.Tactic.FinCases
import So101.FlatCalibration

/-!
# Two readers of one file

`calib_load` of the daemon and `load_calibration` of the bridge on flat documents.
-/
namespace CalibrationReaders

open Calibration (Joint CalibJoint CalibArm)
open CalibrationFile
open SharedMemory (int32 int32_mem)
open FlatJson hiding Text
open TextScan FlatCalibration

def joints : List String :=
  ["shoulder_pan", "shoulder_lift", "elbow_flex", "wrist_flex", "wrist_roll", "gripper"]

/-- `(cal[j]["range_min"], cal[j]["range_max"])`, where no key is missing. -/
def rangeOf (cal : List (Text × List (Text × ℤ))) (j : String) : Option (ℤ × ℤ) := do
  let o ← item j.toList cal
  let lo ← item "range_min".toList o
  let hi ← item "range_max".toList o
  pure (lo, hi)

/-- `load_calibration`, where it does not raise. -/
def loadCalibration (text : Text) : Option (List (ℤ × ℤ)) :=
  (jsonLoad text).bind fun cal => joints.mapM (rangeOf cal)

def field (d : Document) (k : Joint) (f : Field) : Option ℤ :=
  (d.root.get (jointName k)).bind fun o => (o.get f.name.toList).map Literal.value

variable {d : Document}

theorem field_eq_some {k : Joint} {f : Field} {v : ℤ} :
    field d k f = some v ↔
      ∃ o l, d.root.get (jointName k) = some o ∧ o.get f.name.toList = some l ∧ l.value = v := by
  unfold field
  constructor
  · intro h
    obtain ⟨o, ho, h⟩ := Option.bind_eq_some_iff.mp h
    obtain ⟨l, hl, hv⟩ := Option.map_eq_some_iff.mp h
    exact ⟨o, l, ho, hl, hv⟩
  · rintro ⟨o, l, ho, hl, rfl⟩
    rw [ho, Option.bind_some, hl, Option.map_some]

theorem item_dict {k : Joint} {o : Obj Literal} (h : d.root.get (jointName k) = some o) :
    item (jointName k) d.dict = some (pairs Literal.value o.members) := by
  rw [Document.dict, item_pairs _ _ d.root.distinct]
  exact congrArg (Option.map _) h

theorem item_object {o : Obj Literal} {key : Text} {l : Literal} (h : o.get key = some l) :
    item key (pairs Literal.value o.members) = some l.value := by
  rw [item_pairs _ _ o.distinct]
  exact congrArg (Option.map _) h

theorem load_calibration_text {v : Joint → Field → ℤ} (h : ∀ k f, field d k f = some (v k f)) :
    loadCalibration d.text =
      some ((List.finRange 6).map fun k => (v k .rangeMin, v k .rangeMax)) := by
  have hrange : (fun k => rangeOf d.dict (calibJointNames k)) =
      fun k => pure (v k .rangeMin, v k .rangeMax) := by
    funext k
    obtain ⟨o, lo, ho, hlo, hv⟩ := field_eq_some.mp (h k .rangeMin)
    obtain ⟨o', hi, ho', hhi, hv'⟩ := field_eq_some.mp (h k .rangeMax)
    obtain rfl : o = o' := Option.some_inj.mp (ho.symm.trans ho')
    have hobj := item_dict ho
    have hmin := item_object hlo
    have hmax := item_object hhi
    rw [hv] at hmin
    rw [hv'] at hmax
    simp only [jointName, Field.name] at hobj hmin hmax
    simp only [rangeOf, Option.bind_eq_bind, hobj, hmin, hmax, Option.bind_some]
  have hjoints : joints = (List.finRange 6).map calibJointNames := by decide
  rw [loadCalibration, json_load_text, Option.bind_some, hjoints, List.mapM_map]
  exact (congrArg (List.mapM · (List.finRange 6)) hrange).trans List.mapM_pure

def InInt (v : ℤ) : Prop := -2 ^ 31 ≤ v ∧ v < 2 ^ 31

theorem as_int_of_in_int {v : ℤ} (h : InInt v) : asInt v = v := by
  obtain ⟨hlo, hhi⟩ := h
  have hlong : clampLong v = v := by
    unfold clampLong
    omega
  rw [asInt, hlong]
  exact Int.bmod_eq_of_le_mul_two (by omega) (by omega)

/-- The joint's object is found and the integer stands whole in the buffer, as an `int`. -/
def Whole (d : Document) (k : Joint) (f : Field) : Prop :=
  ∃ o l, objectRead d k = some o ∧ o.get f.name.toList = some l ∧
    (o.upTo Literal.text f.name.toList).length + l.text.length ≤ 511 ∧ InInt l.value

theorem root_of_object {k : Joint} {o : Obj Literal} (h : objectRead d k = some o) :
    d.root.get (jointName k) = some o := by
  unfold objectRead object at h
  split at h
  · cases h
  · rename_i o' ho'
    split_ifs at h
    rw [ho', h]

theorem read_of_whole {k : Joint} {f : Field} (h : Whole d k f) :
    ∃ o v, objectRead d k = some o ∧ fieldRead o f = some v ∧ field d k f = some v := by
  obtain ⟨o, l, ho, hl, hfit, hint⟩ := h
  refine ⟨o, l.value, ho, ?_, field_eq_some.mpr ⟨o, l, root_of_object ho, hl, rfl⟩⟩
  have hcut : l.cut (511 - (o.upTo Literal.text f.name.toList).length) = some l.value := by
    apply Literal.cut_whole
    omega
  rw [fieldRead, hl, Option.bind_some, hcut, Option.map_some, as_int_of_in_int hint]

/-- A value that is read right stands whole in the buffer: what is left of a cut one is smaller. -/
theorem whole_of_field_read {k : Joint} {o : Obj Literal} {f : Field} {l : Literal}
    (ho : objectRead d k = some o) (hl : o.get f.name.toList = some l)
    (h : fieldRead o f = some l.value) : Whole d k f := by
  rw [fieldRead, hl, Option.bind_some] at h
  obtain ⟨c, hcut, hc⟩ := Option.map_eq_some_iff.mp h
  have hint : InInt l.value := by
    rw [← hc]
    exact int32_mem _
  refine ⟨o, l, ho, hl, ?_, hint⟩
  by_contra hlong
  have hpos := l.text_pos
  have hlt := Literal.cut_lt hcut (by omega)
  obtain ⟨hlo, hhi⟩ := hint
  have hsame := as_int_of_in_int (v := c) ⟨by omega, by omega⟩
  rw [← hc, hsame] at hlt
  exact lt_irrefl _ hlt

/-- The loader finds the joint's object and five values in it, and they pass its checks. -/
def Readable (d : Document) (k : Joint) : Prop :=
  ∃ o v, objectRead d k = some o ∧ (∀ f, fieldRead o f = some (v f)) ∧ Valid v

theorem readable_of_load (houtside : JointsOutside d) {arm : CalibArm}
    (h : calibLoad (some d.text) = .ok arm) (k : Joint) :
    ∃ o v, objectRead d k = some o ∧ (∀ f, fieldRead o f = some (v f)) ∧ Valid v ∧
      arm k = jointOf k v :=
  (load_joint_text houtside).mp (calib_load_iff.mp h k)

theorem load_of_readable (houtside : JointsOutside d) {v : Joint → Field → ℤ}
    (h : ∀ k, ∃ o, objectRead d k = some o ∧ (∀ f, fieldRead o f = some (v k f)) ∧ Valid (v k)) :
    calibLoad (some d.text) = .ok fun k => jointOf k (v k) := by
  rw [calib_load_iff]
  intro k
  obtain ⟨o, ho, hv, hvalid⟩ := h k
  exact (load_joint_text houtside).mpr ⟨o, v k, ho, hv, hvalid, rfl⟩

/-- What the two buffers and the `int` fields of the loader can hold. -/
structure Fits (d : Document) : Prop where
  outside : JointsOutside d
  file : d.text.length ≤ 16383
  object : ∀ k o, d.root.get (jointName k) = some o → (o.body Literal.text).length ≤ 511
  int : ∀ k f v, field d k f = some v → InInt v

theorem object_of_fits (h : Fits d) {k : Joint} {o : Obj Literal}
    (ho : d.root.get (jointName k) = some o) : objectRead d k = some o := by
  obtain ⟨s, hs⟩ := document_text_eq ho
  have hfile := h.file
  rw [hs] at hfile
  simp only [List.length_append, List.length_cons] at hfile
  unfold objectRead object
  rw [ho]
  exact if_pos (by omega)

theorem whole_of_fits (h : Fits d) {k : Joint} {f : Field} {v : ℤ}
    (hv : field d k f = some v) : Whole d k f := by
  obtain ⟨o, l, ho, hl, rfl⟩ := field_eq_some.mp hv
  obtain ⟨post, hbody, -⟩ := body_eq Literal.text hl
  have hlen := h.object k o ho
  rw [hbody] at hlen
  simp only [List.length_append] at hlen
  exact ⟨o, l, object_of_fits h ho, hl, by omega, h.int k f _ hv⟩

theorem field_read_of_fits (h : Fits d) {k : Joint} {f : Field} {v : ℤ}
    (hv : field d k f = some v) :
    ∃ o, objectRead d k = some o ∧ fieldRead o f = some v := by
  obtain ⟨o, w, ho, hread, hw⟩ := read_of_whole (whole_of_fits h hv)
  obtain rfl := Option.some_inj.mp (hw.symm.trans hv)
  exact ⟨o, ho, hread⟩

theorem read_of_fits (h : Fits d) {k : Joint} {v : Field → ℤ}
    (hv : ∀ f, field d k f = some (v f)) :
    ∃ o, objectRead d k = some o ∧ ∀ f, fieldRead o f = some (v f) := by
  obtain ⟨o, ho, -⟩ := field_read_of_fits h (hv .id)
  refine ⟨o, ho, fun f => ?_⟩
  obtain ⟨o', ho', hf⟩ := field_read_of_fits h (hv f)
  obtain rfl : o = o' := Option.some_inj.mp (ho.symm.trans ho')
  exact hf

theorem field_of_read (h : Fits d) {k : Joint} {o : Obj Literal} (ho : objectRead d k = some o)
    {f : Field} {v : ℤ} (hv : fieldRead o f = some v) : field d k f = some v := by
  have hroot := root_of_object ho
  unfold fieldRead at hv
  cases hl : o.get f.name.toList with
  | none =>
    rw [hl] at hv
    cases hv
  | some l =>
    have hfield : field d k f = some l.value := field_eq_some.mpr ⟨o, l, hroot, hl, rfl⟩
    obtain ⟨o', ho', hread⟩ := field_read_of_fits h hfield
    obtain rfl : o = o' := Option.some_inj.mp (ho.symm.trans ho')
    rw [fieldRead, hl] at hread
    rw [hl] at hv
    rw [hfield, ← hread, hv]

theorem no_blank : ∀ c ∈ ([] : Text), isBlank c = true := fun _ hc => absurd hc List.not_mem_nil

def noBlank : Blank := ⟨[], no_blank⟩

theorem key_chars_of_all {key : Text} (h : (key.all fun c => decide (IsKeyChar c)) = true) :
    ∀ c ∈ key, IsKeyChar c :=
  fun c hc => of_decide_eq_true (List.all_eq_true.mp h c hc)

theorem field_key (f : Field) : ∀ c ∈ f.name.toList, IsKeyChar c := by
  apply key_chars_of_all
  cases f <;> decide

theorem joint_key (k : Joint) : ∀ c ∈ jointName k, IsKeyChar c := by
  apply key_chars_of_all
  revert k
  decide

def memberOf {α : Type} (key : Key) (a : α) : Member α :=
  { before := noBlank, key := key, beforeColon := noBlank, beforeValue := noBlank, value := a,
    after := noBlank }

def allFields : List Field := [.id, .driveMode, .homingOffset, .rangeMin, .rangeMax]

def jointMembers (l : Field → Literal) : List (Member Literal) :=
  allFields.map fun f => memberOf ⟨f.name.toList, field_key f⟩ (l f)

theorem joint_members_distinct (l : Field → Literal) :
    ((jointMembers l).map Member.key).Nodup := by
  have hkeys : (jointMembers l).map Member.key =
      allFields.map fun f => ⟨f.name.toList, field_key f⟩ := rfl
  rw [hkeys]
  decide

def jointObj (l : Field → Literal) : Obj Literal :=
  ⟨noBlank, jointMembers l, joint_members_distinct l⟩

def fileMembers (l : Field → Literal) : List (Member (Obj Literal)) :=
  (List.finRange 6).map fun k => memberOf ⟨jointName k, joint_key k⟩ (jointObj l)

theorem file_members_distinct (l : Field → Literal) : ((fileMembers l).map Member.key).Nodup := by
  have hkeys : (fileMembers l).map Member.key =
      (List.finRange 6).map fun k => ⟨jointName k, joint_key k⟩ := rfl
  rw [hkeys]
  decide

def fileOf (l : Field → Literal) : Document :=
  { before := noBlank, root := ⟨noBlank, fileMembers l, file_members_distinct l⟩, after := noBlank }

theorem file_of_outside (l : Field → Literal) : JointsOutside (fileOf l) := by
  intro k m hm
  obtain ⟨k', -, rfl⟩ := List.mem_map.mp hm
  show lookup (jointName k) (jointMembers l) = none
  rw [lookup_eq_none]
  intro m' hm'
  obtain ⟨f, -, rfl⟩ := List.mem_map.mp hm'
  show f.name.toList ≠ jointName k
  revert k
  cases f <;> decide

theorem file_of_field (l : Field → Literal) (k : Joint) (f : Field) :
    field (fileOf l) k f = some (l f).value := by
  fin_cases k <;> cases f <;> rfl

def Canonical (digits : Text) : Prop :=
  digits.all Char.isDigit = true ∧ digits ≠ [] ∧ (digits.head? = some '0' → digits = ['0'])

instance (digits : Text) : Decidable (Canonical digits) :=
  inferInstanceAs (Decidable (_ ∧ _ ∧ (_ → _)))

def literalOf (digits : Text) (h : Canonical digits) : Literal :=
  { negative := false, digits := digits, isDigit := List.all_eq_true.mp h.1,
    nonempty := h.2.1, canonical := h.2.2 }

/-- The file gives the top of the range as `rangeMax`. -/
def digitsOf (rangeMax : Text) : Field → Text
  | .id => "1".toList
  | .driveMode => "0".toList
  | .homingOffset => "129".toList
  | .rangeMin => "700".toList
  | .rangeMax => rangeMax

theorem digits_canonical {rangeMax : Text} (h : Canonical rangeMax) (f : Field) :
    Canonical (digitsOf rangeMax f) := by
  cases f with
  | id => exact (by decide : Canonical "1".toList)
  | driveMode => exact (by decide : Canonical "0".toList)
  | homingOffset => exact (by decide : Canonical "129".toList)
  | rangeMin => exact (by decide : Canonical "700".toList)
  | rangeMax => exact h

def sampleFile (rangeMax : Text) (h : Canonical rangeMax) : Document :=
  fileOf fun f => literalOf (digitsOf rangeMax f) (digits_canonical h f)

theorem canonical_small : Canonical "3500".toList := by decide

theorem canonical_large : Canonical "4294970796".toList := by decide

theorem sample_file_fits : Fits (sampleFile _ canonical_small) := by
  constructor
  · exact file_of_outside _
  · decide +kernel
  · intro k o ho
    obtain ⟨m, hm, -, rfl⟩ := lookup_mem ho
    obtain ⟨k', -, rfl⟩ := List.mem_map.mp hm
    show (Obj.body Literal.text (jointObj _)).length ≤ 511
    decide +kernel
  · intro k f v hv
    have hsame := (file_of_field _ k f).symm.trans hv
    obtain rfl := Option.some_inj.mp hsame
    cases f <;> constructor <;> decide +kernel

theorem accepts_every_fitting_file (hfits : Fits d) :
    (∀ v : Joint → Field → ℤ, (∀ k f, field d k f = some (v k f)) → (∀ k, Valid (v k)) →
      returned (calibLoad (some d.text)) = 0 ∧
        ∃ arm, calibLoad (some d.text) = .ok arm ∧
          ∀ k, (∀ f, f.of (arm k) = v k f) ∧ (arm k).isGripper = decide (k = Fin.last 5)) ∧
      ((∃ k, (∃ f, field d k f = none) ∨ ∃ v, (∀ f, field d k f = some (v f)) ∧ ¬ Valid v) →
        returned (calibLoad (some d.text)) = -2) := by
  constructor
  · intro v hv hvalid
    have hload : calibLoad (some d.text) = .ok fun k => jointOf k (v k) := by
      apply load_of_readable hfits.outside
      intro k
      obtain ⟨o, ho, hread⟩ := read_of_fits hfits (hv k)
      exact ⟨o, ho, hread, hvalid k⟩
    constructor
    · rw [hload]
      rfl
    · exact ⟨_, hload, fun k => ⟨joint_of_field k (hvalid k), rfl⟩⟩
  · rintro ⟨k, hbad⟩
    apply returned_of_rejected
    intro arm harm
    obtain ⟨o, v, ho, hv, hvalid, -⟩ := readable_of_load hfits.outside harm k
    have hfield : ∀ f, field d k f = some (v f) := fun f => field_of_read hfits ho (hv f)
    rcases hbad with ⟨f, hf⟩ | ⟨v', hv', hinvalid⟩
    · rw [hfield f] at hf
      cases hf
    · have hsame : v = v' := funext fun f => Option.some_inj.mp ((hfield f).symm.trans (hv' f))
      rw [← hsame] at hinvalid
      exact hinvalid hvalid

theorem accepts_every_fitting_file_sample :
    returned (calibLoad (some (sampleFile _ canonical_small).text)) = 0 :=
  ((accepts_every_fitting_file sample_file_fits).1 _ (file_of_field _) fun _ =>
    ⟨by decide +kernel, by decide +kernel, by decide +kernel⟩).1

/-- An accepted file gives the arm what it assigns, and the bridge reads the same ranges. -/
def Faithful (d : Document) : Prop :=
  ∀ arm, calibLoad (some d.text) = .ok arm → (∀ k f, field d k f = some (f.of (arm k))) ∧
    loadCalibration d.text =
      some ((List.finRange 6).map fun k => ((arm k).rangeMin, (arm k).rangeMax))

theorem faithful_iff (houtside : JointsOutside d) :
    Faithful d ↔ (∃ k, ¬ Readable d k) ∨ ∀ k f, Whole d k f := by
  constructor
  · intro h
    by_cases hread : ∃ k, ¬ Readable d k
    · exact Or.inl hread
    push Not at hread
    choose o v ho hv hvalid using hread
    have hload := load_of_readable houtside fun k => ⟨o k, ho k, hv k, hvalid k⟩
    refine Or.inr fun k f => ?_
    have hfield := (h _ hload).1 k f
    rw [joint_of_field k (hvalid k)] at hfield
    obtain ⟨o', l, ho', hl, hlv⟩ := field_eq_some.mp hfield
    obtain rfl : o k = o' := Option.some_inj.mp ((root_of_object (ho k)).symm.trans ho')
    exact whole_of_field_read (ho k) hl (by rw [hv k f, hlv])
  · rintro h arm harm
    have hfield : ∀ k f, field d k f = some (f.of (arm k)) := by
      intro k f
      obtain ⟨o, v, ho, hv, hvalid, hk⟩ := readable_of_load houtside harm k
      rcases h with ⟨k', hbad⟩ | hwhole
      · obtain ⟨o', v', ho', hv', hvalid', -⟩ := readable_of_load houtside harm k'
        exact absurd ⟨o', v', ho', hv', hvalid'⟩ hbad
      · obtain ⟨o', w, ho', hread, hfield⟩ := read_of_whole (hwhole k f)
        obtain rfl : o = o' := Option.some_inj.mp (ho.symm.trans ho')
        rw [hk, joint_of_field k hvalid, ← hv f, hread, hfield]
    exact ⟨hfield, load_calibration_text hfield⟩

theorem faithful_iff_sample : Faithful (sampleFile _ canonical_small) :=
  (faithful_iff (file_of_outside _)).mpr
    (Or.inr fun k f => whole_of_fits sample_file_fits (file_of_field _ k f))

theorem large_file_accepted :
    returned (calibLoad (some (sampleFile _ canonical_large).text)) = 0 := by
  decide +kernel

theorem faithful_fails : JointsOutside (sampleFile _ canonical_large) ∧
    ¬ Faithful (sampleFile _ canonical_large) := by
  constructor
  · exact file_of_outside _
  · intro h
    obtain ⟨arm, harm⟩ := returned_eq_zero_iff.mp large_file_accepted
    have hfield := (h arm harm).1 0 .rangeMax
    have hmax := (calib_load_accepted harm 0).range.max_int
    have hvalue : field (sampleFile _ canonical_large) 0 .rangeMax = some 4294970796 := by
      decide +kernel
    have hsame : (4294970796 : ℤ) = (arm 0).rangeMax :=
      Option.some_inj.mp (hvalue.symm.trans hfield)
    omega

end CalibrationReaders
