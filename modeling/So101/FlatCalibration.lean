import Mathlib.Data.List.TakeWhile
import So101.TextScan

/-!
# The loader on flat documents

In a flat document the first match of a quoted name is its key, so the scanner of
`calib_load` reads the members that the document has, as far as the two buffers reach.
-/
namespace FlatCalibration

open Calibration (Joint CalibJoint CalibArm)
open CalibrationFile
open SharedMemory (int32)
open FlatJson hiding Text
open TextScan

def IsName (key : Text) : Prop := '"' ∉ key ∧ ':' ∉ key ∧ '{' ∉ key

instance (key : Text) : Decidable (IsName key) := inferInstanceAs (Decidable (_ ∧ _ ∧ _))

theorem quote_free_of_key (k : Key) : '"' ∉ k.val := fun hmem => (k.property _ hmem).2.1 rfl

theorem quote_free_of_blank (w : Blank) : '"' ∉ w.val := by
  intro hmem
  exact absurd (w.property _ hmem) (by decide)

section Members

variable {α : Type} {render : α → Text} {key : Text}

theorem skipped_blank (w : Blank) : Skipped (quote key) w.val :=
  skipped_plain key (quote_free_of_blank w)

theorem skipped_literal (l : Literal) : Skipped (quote key) l.text := by
  apply skipped_plain
  intro hmem
  exact (literal_chars hmem).2.1 rfl

theorem skipped_cons {ch : Char} (hch : '"' ≠ ch) {s : Text} (h : Skipped (quote key) s) :
    Skipped (quote key) (ch :: s) := by
  rw [← List.singleton_append]
  exact skipped_append (skipped_plain key (by simpa using hch)) h

theorem head_skipped (hname : IsName key) {m : Member α} (hne : m.key.val ≠ key) :
    Skipped (quote key) m.head := by
  have hhead : m.head = m.before.val ++
      (quote m.key.val ++ (m.beforeColon.val ++ [':']) ++ m.beforeValue.val) := by
    simp [Member.head]
  rw [hhead]
  apply skipped_append (skipped_blank _)
  apply skipped_append
  · exact skipped_key (quote_free_of_key _) hname.2.1 hne hname.1 (quote_free_of_blank _)
  · exact skipped_blank _

theorem member_skipped (hname : IsName key) {m : Member α} (hne : m.key.val ≠ key)
    (hvalue : Skipped (quote key) (render m.value)) : Skipped (quote key) (m.text render) :=
  skipped_append (head_skipped hname hne) (skipped_append hvalue (skipped_blank _))

theorem members_skipped (hname : IsName key) {ms : List (Member α)} (h : lookup key ms = none)
    (hvalue : ∀ m ∈ ms, Skipped (quote key) (render m.value)) :
    Skipped (quote key) (membersText render ms) := by
  rw [lookup_eq_none] at h
  induction ms with
  | nil => exact skipped_nil
  | cons m ms ih =>
    have hm := member_skipped hname (h m List.mem_cons_self) (hvalue m List.mem_cons_self)
    by_cases hnil : ms = []
    · subst hnil
      exact hm
    · rw [members_text_cons render m hnil]
      apply skipped_append hm
      apply skipped_cons (by decide)
      exact ih (fun m' hm' => h m' (List.mem_cons_of_mem m hm'))
        (fun m' hm' => hvalue m' (List.mem_cons_of_mem m hm'))

theorem front_eq (hname : IsName key) {ms : List (Member α)} {a : α} (h : lookup key ms = some a)
    (hvalue : ∀ m ∈ ms, Skipped (quote key) (render m.value)) :
    ∃ pre : Text, ∃ w w' : Blank, front render key ms =
      pre ++ (quote key ++ (w.val ++ ':' :: w'.val)) ∧ Skipped (quote key) pre := by
  induction ms with
  | nil => cases h
  | cons m ms ih =>
    unfold lookup at h
    unfold front
    by_cases hkey : m.key.val = key
    · rw [if_pos hkey]
      refine ⟨m.before.val, m.beforeColon, m.beforeValue, ?_, ?_⟩
      · rw [Member.head, hkey]
      · exact skipped_blank _
    · rw [if_neg hkey] at h ⊢
      obtain ⟨pre, w, w', hfront, hpre⟩ :=
        ih h (fun m' hm' => hvalue m' (List.mem_cons_of_mem m hm'))
      refine ⟨m.text render ++ ',' :: pre, w, w', ?_, ?_⟩
      · rw [hfront, List.append_assoc, List.cons_append]
      · apply skipped_append (member_skipped hname hkey (hvalue m List.mem_cons_self))
        exact skipped_cons (by decide) hpre

theorem up_to_eq (hname : IsName key) {o : Obj α} {a : α} (h : o.get key = some a)
    (hvalue : ∀ m ∈ o.members, Skipped (quote key) (render m.value)) :
    ∃ pre : Text, ∃ w w' : Blank, o.upTo render key =
      pre ++ (quote key ++ (w.val ++ ':' :: w'.val)) ∧ Skipped (quote key) pre := by
  obtain ⟨pre, w, w', hfront, hpre⟩ := front_eq hname h hvalue
  refine ⟨'{' :: (o.blank.val ++ pre), w, w', ?_, ?_⟩
  · simp only [Obj.upTo, hfront, List.cons_append, List.append_assoc]
  · exact skipped_cons (by decide) (skipped_append (skipped_blank _) hpre)

theorem body_skipped (hname : IsName key) {o : Obj α} (h : o.get key = none)
    (hvalue : ∀ m ∈ o.members, Skipped (quote key) (render m.value)) :
    Skipped (quote key) (o.body render) := by
  apply skipped_cons (by decide)
  exact skipped_append (skipped_blank _) (members_skipped hname h hvalue)

theorem text_skipped (hname : IsName key) {o : Obj α} (h : o.get key = none)
    (hvalue : ∀ m ∈ o.members, Skipped (quote key) (render m.value)) :
    Skipped (quote key) (o.text render) :=
  skipped_append (body_skipped hname h hvalue) (skipped_cons (by decide) skipped_nil)

end Members

/-- What the loader makes of an integer: the nearest `long`, converted to `int`. -/
def asInt (v : ℤ) : ℤ := int32 (clampLong v)

theorem literal_cut_zero (l : Literal) : l.cut 0 = none := by
  unfold Literal.cut
  rw [Nat.zero_sub, List.take_zero]
  exact if_pos rfl

/-- `getInt` behind the name. -/
def afterName (s : Text) : Option ℤ :=
  let p := s.dropWhile isSpace
  if p.head? = some ':' then (strtol p.tail).map int32 else none

theorem get_int_eq (obj : Text) (key : String) :
    getInt obj key =
      (strstr (quoted key) obj).bind fun p => afterName (p.drop (quoted key).length) := by
  unfold getInt afterName
  cases strstr (quoted key) obj with
  | none => rfl
  | some p =>
    simp only [Option.bind_eq_bind, Option.bind_some]
    split_ifs
    · cases strtol (List.dropWhile isSpace (List.drop (quoted key).length p)).tail <;> rfl
    · rfl

theorem after_name_taken (w w' : Blank) (l : Literal) {post : Text} (hpost : EndsValue post)
    (n : ℕ) : afterName ((w.val ++ ':' :: (w'.val ++ (l.text ++ post))).take n) =
      (l.cut (n - w.val.length - 1 - w'.val.length)).map asInt := by
  have hspace : ∀ c ∈ w.val, isSpace c = true := fun c hc => is_space_of_blank (w.property c hc)
  have hdrop := drop_while_taken (s := ':' :: (w'.val ++ (l.text ++ post))) hspace
    (by intro c hc; obtain rfl : ':' = c := Option.some_inj.mp hc; decide) n
  simp only [afterName, hdrop]
  cases n - w.val.length with
  | zero => simp [literal_cut_zero]
  | succ m =>
    rw [List.take_succ_cons, List.head?_cons, if_pos rfl, List.tail_cons, strtol_taken w' l hpost,
      Option.map_map]
    rfl

/-- The scanner reads what is left of the member in the first `n` characters of the object. -/
theorem get_int_text (o : Obj Literal) {key : String} (hname : IsName key.toList) (n : ℕ) :
    getInt ((o.body Literal.text).take n) key = ((o.get key.toList).bind fun l =>
      l.cut (n - (o.upTo Literal.text key.toList).length)).map asInt := by
  have hvalue : ∀ m ∈ o.members, Skipped (quote key.toList) (Literal.text m.value) :=
    fun m _ => skipped_literal m.value
  have hquoted : quoted key = quote key.toList := rfl
  have hne : quote key.toList ≠ [] := List.cons_ne_nil _ _
  rw [get_int_eq, hquoted]
  cases hget : o.get key.toList with
  | none =>
    rw [strstr_take_none (skipped_none (body_skipped hname hget hvalue) hne)]
    rfl
  | some l =>
    obtain ⟨post, hbody, hpost⟩ := body_eq Literal.text hget
    obtain ⟨pre, w, w', hup, hpre⟩ := up_to_eq hname hget hvalue
    have htext : o.body Literal.text =
        pre ++ (quote key.toList ++ (w.val ++ ':' :: (w'.val ++ (l.text ++ post)))) := by
      rw [hbody, hup]
      simp only [List.append_assoc, List.cons_append]
    have hlen : (o.upTo Literal.text key.toList).length =
        pre.length + (quote key.toList).length + w.val.length + 1 + w'.val.length := by
      rw [hup]
      simp only [List.length_append, List.length_cons]
      omega
    rw [htext, strstr_taken hpre hne, Option.bind_some]
    by_cases hfit : pre.length + (quote key.toList).length ≤ n
    · rw [if_pos hfit, Option.bind_some, List.drop_take, List.drop_left,
        after_name_taken w w' l hpost]
      congr 2
      omega
    · rw [if_neg hfit, show n - (o.upTo Literal.text key.toList).length = 0 by omega,
        literal_cut_zero]
      rfl

/-- The object of a key, if its closing brace is among the first `n` characters. -/
def object (d : Document) (n : ℕ) (key : Text) : Option (Obj Literal) :=
  match d.root.get key with
  | none => none
  | some o =>
    if (d.upTo key).length + (o.body Literal.text).length < n then some o else none

def NotInside (d : Document) (key : Text) : Prop :=
  ∀ m ∈ d.root.members, m.value.get key = none

theorem no_brace_of_text {c : Char} (h : IsText c) : c ≠ '{' ∧ c ≠ '}' ∧ c ≠ nul := by
  refine ⟨?_, ?_, ?_⟩ <;> rintro rfl <;> revert h <;> unfold IsText <;> decide

theorem contents_text (d : Document) : contents d.text = d.text.take 16383 := by
  unfold contents
  rw [List.takeWhile_eq_self_iff]
  intro c hc
  rcases document_chars (List.mem_of_mem_take hc) with rfl | rfl | htext
  · decide
  · decide
  · exact decide_eq_true (no_brace_of_text htext).2.2

theorem closed_taken {body : Text} (h : '}' ∉ body) (s : Text) (n : ℕ) :
    ((strchr '}' ((body ++ '}' :: s).take n)).bind fun closed => some
      (((body ++ '}' :: s).take n).take
        (min (((body ++ '}' :: s).take n).length - closed.length) 511))) =
      if body.length < n then some (body.take 511) else none := by
  rw [strchr_taken h]
  by_cases hn : body.length < n
  · rw [if_pos hn, if_pos hn, Option.bind_some]
    have hlen : ((body ++ '}' :: s).take n).length - (('}' :: s).take (n - body.length)).length =
        body.length := by
      simp only [List.length_take, List.length_append, List.length_cons]
      omega
    rw [hlen, List.take_take, List.take_append_of_le_length (by omega),
      show min (min body.length 511) n = min 511 body.length by omega, ← List.take_take,
      List.take_length]
  · rw [if_neg hn, if_neg hn]
    rfl

theorem object_of_taken {name : String} {pre lead inner : Text}
    (hskip : Skipped (quoted name) pre) (hlead : '{' ∉ quoted name ++ lead)
    (hbody : '}' ∉ '{' :: inner) (tail : Text) (n : ℕ) :
    objectOf ((pre ++ (quoted name ++ (lead ++ ('{' :: inner ++ '}' :: tail)))).take n) name =
      if pre.length + (quoted name ++ lead).length + ('{' :: inner).length < n then
        some (('{' :: inner).take 511)
      else none := by
  have hne : quoted name ≠ [] := List.cons_ne_nil _ _
  have hfront : (quoted name).length ≤ (quoted name ++ lead).length := by simp
  unfold objectOf
  rw [strstr_taken hskip hne]
  by_cases hfit : pre.length + (quoted name).length ≤ n
  · rw [if_pos hfit, ← List.append_assoc (quoted name)]
    have hopened := strchr_taken hlead (inner ++ '}' :: tail) (n - pre.length)
    have hclosed := closed_taken hbody tail (n - pre.length - (quoted name ++ lead).length)
    rw [List.cons_append] at hclosed ⊢
    simp only [Option.bind_eq_bind, Option.bind_some, hopened]
    by_cases hin : (quoted name ++ lead).length < n - pre.length
    · rw [if_pos hin, Option.bind_some]
      apply hclosed.trans
      by_cases hend : ('{' :: inner).length < n - pre.length - (quoted name ++ lead).length
      · rw [if_pos hend, if_pos (by omega)]
      · rw [if_neg hend, if_neg (by omega)]
    · rw [if_neg hin, if_neg (by omega)]
      rfl
  · rw [if_neg hfit, if_neg (by omega)]
    rfl

theorem object_of_text (d : Document) {name : String} (hname : IsName name.toList)
    (hinside : NotInside d name.toList) (n : ℕ) :
    objectOf (d.text.take n) name =
      (object d n name.toList).map fun o => (o.body Literal.text).take 511 := by
  have hvalue : ∀ m ∈ d.root.members, Skipped (quote name.toList) (Obj.text Literal.text m.value) :=
    fun m hm => text_skipped hname (hinside m hm) fun m' _ => skipped_literal m'.value
  unfold object
  cases hget : d.root.get name.toList with
  | none =>
    have hskip : Skipped (quoted name) d.text := by
      apply skipped_append (skipped_blank _)
      exact skipped_append (text_skipped hname hget hvalue) (skipped_blank _)
    unfold objectOf
    rw [strstr_take_none (skipped_none hskip (List.cons_ne_nil _ _))]
    rfl
  | some o =>
    obtain ⟨tail, htext⟩ := document_text_eq hget
    obtain ⟨pre, w, w', hup, hpre⟩ := up_to_eq hname hget hvalue
    have hsplit : d.upTo name.toList =
        (d.before.val ++ pre) ++ (quoted name ++ (w.val ++ ':' :: w'.val)) := by
      rw [Document.upTo, hup, List.append_assoc]
      rfl
    have hlead : '{' ∉ quoted name ++ (w.val ++ ':' :: w'.val) := by
      have hblank : ∀ w : Blank, '{' ∉ w.val := fun w hmem =>
        absurd (w.property _ hmem) (by decide)
      simp [quoted, hname.2.2, hblank]
    have hbody : '}' ∉ o.body Literal.text := by
      intro hmem
      rcases body_chars hmem with he | hc
      · exact absurd he (by decide)
      · exact (no_brace_of_text hc).2.1 rfl
    have hall : d.text = (d.before.val ++ pre) ++ (quoted name ++ ((w.val ++ ':' :: w'.val) ++
        (o.body Literal.text ++ '}' :: tail))) := by
      rw [htext, hsplit]
      simp only [List.append_assoc]
    have hlen : (d.upTo name.toList).length + (o.body Literal.text).length =
        (d.before.val ++ pre).length + (quoted name ++ (w.val ++ ':' :: w'.val)).length +
          (o.body Literal.text).length := by
      rw [hsplit, List.length_append]
    have htaken := object_of_taken (skipped_append (skipped_blank d.before) hpre) hlead hbody tail n
    rw [hall]
    apply htaken.trans
    by_cases hclosed : (d.upTo name.toList).length + (o.body Literal.text).length < n
    · simp only [if_pos hclosed]
      exact if_pos (hlen ▸ hclosed)
    · simp only [if_neg hclosed]
      exact if_neg (hlen ▸ hclosed)

inductive Field where
  | id
  | driveMode
  | homingOffset
  | rangeMin
  | rangeMax
  deriving DecidableEq, Repr

def Field.name : Field → String
  | .id => "id"
  | .driveMode => "drive_mode"
  | .homingOffset => "homing_offset"
  | .rangeMin => "range_min"
  | .rangeMax => "range_max"

def Field.of (j : CalibJoint) : Field → ℤ
  | .id => j.id.toNat
  | .driveMode => j.driveMode
  | .homingOffset => j.homingOffset
  | .rangeMin => j.rangeMin
  | .rangeMax => j.rangeMax

def jointName (k : Joint) : Text := (calibJointNames k).toList

def JointsOutside (d : Document) : Prop := ∀ k, NotInside d (jointName k)

def objectRead (d : Document) (k : Joint) : Option (Obj Literal) := object d 16383 (jointName k)

def fieldRead (o : Obj Literal) (f : Field) : Option ℤ :=
  ((o.get f.name.toList).bind fun l =>
    l.cut (511 - (o.upTo Literal.text f.name.toList).length)).map asInt

structure Valid (v : Field → ℤ) : Prop where
  id_nonneg : 0 ≤ v .id
  id_le : v .id ≤ 253
  range : v .rangeMin < v .rangeMax

def jointOf (k : Joint) (v : Field → ℤ) : CalibJoint :=
  { id := BitVec.ofInt 8 (v .id), driveMode := v .driveMode, homingOffset := v .homingOffset,
    rangeMin := v .rangeMin, rangeMax := v .rangeMax, isGripper := k = Fin.last 5 }

theorem joint_of_field (k : Joint) {v : Field → ℤ} (h : Valid v) (f : Field) :
    f.of (jointOf k v) = v f := by
  cases f
  · have hid := h.id_nonneg
    have hid' := h.id_le
    simp only [Field.of, jointOf, BitVec.toNat_ofInt]
    omega
  all_goals rfl

theorem field_name_plain (f : Field) : IsName f.name.toList := by
  cases f <;> decide

theorem joint_name_plain (k : Joint) : IsName (jointName k) := by
  revert k
  decide

variable {d : Document}

theorem object_of_contents (houtside : JointsOutside d) (k : Joint) :
    objectOf (contents d.text) (calibJointNames k) =
      (objectRead d k).map fun o => (o.body Literal.text).take 511 := by
  rw [contents_text]
  exact object_of_text d (joint_name_plain k) (houtside k) 16383

theorem load_joint_text (houtside : JointsOutside d) {k : Joint} {j : CalibJoint} :
    loadJoint (contents d.text) k = .ok j ↔
      ∃ o v, objectRead d k = some o ∧ (∀ f, fieldRead o f = some (v f)) ∧ Valid v ∧
        j = jointOf k v := by
  unfold loadJoint
  rw [object_of_contents houtside]
  cases hobj : objectRead d k with
  | none => simp
  | some o =>
    have hfield : ∀ f : Field,
        getInt ((o.body Literal.text).take 511) f.name = fieldRead o f := fun f =>
      get_int_text o (field_name_plain f) 511
    have hid := hfield .id
    have hdrive := hfield .driveMode
    have hoff := hfield .homingOffset
    have hmin := hfield .rangeMin
    have hmax := hfield .rangeMax
    simp only [Field.name] at hid hdrive hoff hmin hmax
    simp only [Option.map_some, hid, hdrive, hoff, hmin, hmax]
    constructor
    · intro h
      split at h
      · rename_i id driveMode homingOffset rangeMin rangeMax hid hdrive hoff hmin hmax
        split_ifs at h with hbad
        push Not at hbad
        refine ⟨o, fun f => (fieldRead o f).getD 0, rfl, ?_, ?_, ?_⟩
        · intro f
          cases f <;> simp [hid, hdrive, hoff, hmin, hmax]
        · constructor <;> simp [hid, hmin, hmax, hbad]
        · rw [← Except.ok.inj h]
          simp [jointOf, hid, hdrive, hoff, hmin, hmax]
      · cases h
    · rintro ⟨o', v, ho, hv, hvalid, rfl⟩
      obtain rfl := Option.some_inj.mp ho
      have hok : ¬ (v .id < 0 ∨ v .id > 253 ∨ v .rangeMax ≤ v .rangeMin) := by
        have hlo := hvalid.id_nonneg
        have hhi := hvalid.id_le
        have hrange := hvalid.range
        omega
      simp only [hv, if_neg hok]
      rfl

end FlatCalibration
