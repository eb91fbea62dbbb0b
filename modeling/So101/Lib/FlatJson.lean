import Mathlib.Algebra.Ring.Int.Defs
import Mathlib.Data.List.Induction
import Mathlib.Data.List.Nodup
import Mathlib.Tactic.Linarith
import Mathlib.Tactic.Positivity
import Mathlib.Tactic.Ring

/-!
# Flat JSON

JSON objects with keys that need no escapes, as they are written down: white space is part
of the object, so its text is determined by it. A value is rendered by a function, so that
objects of numbers and objects of such objects are the same structure. `jsonLoad` reads
the text back.
-/
namespace FlatJson

abbrev Text := List Char

def isBlank (c : Char) : Bool := c = ' ' || c = '\t' || c = '\n' || c = '\r'

/-- Neither a control character nor a quote, a backslash or a brace. -/
def IsKeyChar (c : Char) : Prop :=
  32 ≤ c.toNat ∧ c ≠ '"' ∧ c ≠ '\\' ∧ c ≠ '{' ∧ c ≠ '}'

instance (c : Char) : Decidable (IsKeyChar c) := by
  unfold IsKeyChar
  infer_instance

abbrev Blank := { w : Text // ∀ c ∈ w, isBlank c = true }

abbrev Key := { k : Text // ∀ c ∈ k, IsKeyChar c }

def quote (key : Text) : Text := '"' :: (key ++ ['"'])

def decimal (digits : Text) : ℤ :=
  digits.foldl (fun n ch => 10 * n + (ch.toNat - 48 : ℕ)) 0

def signed (negative : Bool) (n : ℤ) : ℤ := if negative then -n else n

/-- An integer as JSON writes it: no plus sign and no leading zeros. -/
structure Literal where
  negative : Bool
  digits : Text
  isDigit : ∀ c ∈ digits, c.isDigit = true
  nonempty : digits ≠ []
  canonical : digits.head? = some '0' → digits = ['0']

def Literal.sign (l : Literal) : Text := if l.negative then ['-'] else []

def Literal.text (l : Literal) : Text := l.sign ++ l.digits

def Literal.value (l : Literal) : ℤ := signed l.negative (decimal l.digits)

/-- What the first `n` characters still say, if a digit is among them. -/
def Literal.cut (l : Literal) (n : ℕ) : Option ℤ :=
  let digits := l.digits.take (n - l.sign.length)
  if digits = [] then none else some (signed l.negative (decimal digits))

structure Member (α : Type) where
  before : Blank
  key : Key
  beforeColon : Blank
  beforeValue : Blank
  value : α
  after : Blank

structure Obj (α : Type) where
  blank : Blank
  members : List (Member α)
  distinct : (members.map Member.key).Nodup

def lookup {α : Type} (key : Text) : List (Member α) → Option α
  | [] => none
  | m :: ms => if m.key.val = key then some m.value else lookup key ms

def Obj.get {α : Type} (o : Obj α) (key : Text) : Option α := lookup key o.members

section Text

variable {α : Type} (render : α → Text)

def Member.head (m : Member α) : Text :=
  m.before.val ++ (quote m.key ++ (m.beforeColon.val ++ ':' :: m.beforeValue.val))

def Member.text (m : Member α) : Text := m.head ++ (render m.value ++ m.after.val)

def membersText : List (Member α) → Text
  | [] => []
  | [m] => m.text render
  | m :: ms => m.text render ++ ',' :: membersText ms

def Obj.body (o : Obj α) : Text := '{' :: (o.blank.val ++ membersText render o.members)

def Obj.text (o : Obj α) : Text := o.body render ++ ['}']

def front (key : Text) : List (Member α) → Text
  | [] => []
  | m :: ms => if m.key.val = key then m.head else m.text render ++ ',' :: front key ms

def Obj.upTo (o : Obj α) (key : Text) : Text :=
  '{' :: (o.blank.val ++ front render key o.members)

end Text

structure Document where
  before : Blank
  root : Obj (Obj Literal)
  after : Blank

def Document.text (d : Document) : Text :=
  d.before.val ++ (d.root.text (Obj.text Literal.text) ++ d.after.val)

def Document.upTo (d : Document) (key : Text) : Text :=
  d.before.val ++ d.root.upTo (Obj.text Literal.text) key

/-- What may follow a value: white space, a comma, a brace, or nothing. -/
def EndsValue (post : Text) : Prop := ∀ c ∈ post.head?, isBlank c = true ∨ c = ',' ∨ c = '}'

theorem ends_nil : EndsValue [] := by
  intro c hc
  cases hc

theorem ends_comma (post : Text) : EndsValue (',' :: post) := by
  intro c hc
  obtain rfl : ',' = c := by simpa using hc
  exact Or.inr (Or.inl rfl)

theorem ends_brace (post : Text) : EndsValue ('}' :: post) := by
  intro c hc
  obtain rfl : '}' = c := by simpa using hc
  exact Or.inr (Or.inr rfl)

theorem ends_after (w : Blank) {post : Text} (h : EndsValue post) :
    EndsValue (w.val ++ post) := by
  obtain ⟨w, hw⟩ := w
  cases w with
  | nil => exact h
  | cons c w =>
    intro c' hc'
    obtain rfl : c = c' := by simpa using hc'
    exact Or.inl (hw c List.mem_cons_self)

theorem members_text_cons {α : Type} (render : α → Text) (m : Member α) {ms : List (Member α)}
    (h : ms ≠ []) :
    membersText render (m :: ms) = m.text render ++ ',' :: membersText render ms := by
  cases ms with
  | nil => exact absurd rfl h
  | cons m' ms => rfl

theorem lookup_eq_none {α : Type} {key : Text} {ms : List (Member α)} :
    lookup key ms = none ↔ ∀ m ∈ ms, m.key.val ≠ key := by
  induction ms with
  | nil => simp [lookup]
  | cons m ms ih =>
    unfold lookup
    by_cases hkey : m.key.val = key
    · simp [hkey]
    · simp [hkey, ih]

theorem lookup_mem {α : Type} {key : Text} {ms : List (Member α)} {a : α}
    (h : lookup key ms = some a) : ∃ m ∈ ms, m.key.val = key ∧ m.value = a := by
  induction ms with
  | nil => cases h
  | cons m ms ih =>
    unfold lookup at h
    by_cases hkey : m.key.val = key
    · rw [if_pos hkey] at h
      exact ⟨m, List.mem_cons_self, hkey, Option.some_inj.mp h⟩
    · rw [if_neg hkey] at h
      obtain ⟨m', hmem, hfound⟩ := ih h
      exact ⟨m', List.mem_cons_of_mem m hmem, hfound⟩

theorem lookup_ne_nil {α : Type} {key : Text} {ms : List (Member α)} {a : α}
    (h : lookup key ms = some a) : ms ≠ [] := by
  rintro rfl
  cases h

theorem members_text_eq {α : Type} (render : α → Text) {key : Text} {ms : List (Member α)} {a : α}
    (h : lookup key ms = some a) :
    ∃ post, membersText render ms = front render key ms ++ (render a ++ post) ∧
      EndsValue post := by
  induction ms with
  | nil => cases h
  | cons m ms ih =>
    unfold lookup at h
    unfold front
    by_cases hkey : m.key.val = key
    · rw [if_pos hkey] at h ⊢
      obtain rfl := Option.some_inj.mp h
      by_cases hms : ms = []
      · subst hms
        refine ⟨m.after.val ++ [], ?_, ends_after m.after ends_nil⟩
        rw [List.append_nil]
        rfl
      · refine ⟨m.after.val ++ ',' :: membersText render ms, ?_, ends_after m.after (ends_comma _)⟩
        rw [members_text_cons render m hms]
        simp only [Member.text, List.append_assoc]
    · rw [if_neg hkey] at h ⊢
      obtain ⟨post, hpost, hends⟩ := ih h
      refine ⟨post, ?_, hends⟩
      rw [members_text_cons render m (lookup_ne_nil h), hpost]
      simp only [List.append_assoc, List.cons_append]

theorem body_eq {α : Type} (render : α → Text) {o : Obj α} {key : Text} {a : α}
    (h : o.get key = some a) :
    ∃ post, o.body render = o.upTo render key ++ (render a ++ post) ∧ EndsValue post := by
  obtain ⟨post, hpost, hends⟩ := members_text_eq render h
  refine ⟨post, ?_, hends⟩
  simp only [Obj.body, Obj.upTo, hpost, List.cons_append, List.append_assoc]

theorem document_text_eq {d : Document} {key : Text} {o : Obj Literal}
    (h : d.root.get key = some o) :
    ∃ s, d.text = d.upTo key ++ (o.body Literal.text ++ '}' :: s) := by
  obtain ⟨post, hpost, -⟩ := body_eq (Obj.text Literal.text) h
  refine ⟨post ++ '}' :: d.after.val, ?_⟩
  rw [Document.text, Obj.text, hpost]
  simp only [Document.upTo, Obj.text, List.append_assoc, List.cons_append, List.nil_append]

/-- White space, or something a key or a number may hold, or a quote. -/
def IsText (c : Char) : Prop := isBlank c = true ∨ IsKeyChar c ∨ c = '"'

theorem key_char_of_digit {c : Char} (h : c.isDigit = true) : IsKeyChar c := by
  have hlow : 48 ≤ c.toNat := by
    simp [Char.isDigit] at h
    exact h.1
  refine ⟨by omega, ?_, ?_, ?_, ?_⟩ <;> (rintro rfl; revert h; decide)

theorem literal_chars {l : Literal} {c : Char} (h : c ∈ l.text) : IsKeyChar c := by
  rcases List.mem_append.mp h with hsign | hdigit
  · unfold Literal.sign at hsign
    split_ifs at hsign
    · obtain rfl := List.mem_singleton.mp hsign
      decide
    · cases hsign
  · exact key_char_of_digit (l.isDigit c hdigit)

theorem head_chars {α : Type} {m : Member α} {c : Char} (h : c ∈ m.head) : IsText c := by
  simp only [Member.head, quote, List.mem_append, List.mem_cons, List.not_mem_nil, or_false] at h
  rcases h with hc | (rfl | hc | rfl) | hc | rfl | hc
  · exact Or.inl (m.before.property c hc)
  · exact Or.inr (Or.inr rfl)
  · exact Or.inr (Or.inl (m.key.property c hc))
  · exact Or.inr (Or.inr rfl)
  · exact Or.inl (m.beforeColon.property c hc)
  · exact Or.inr (Or.inl (by decide))
  · exact Or.inl (m.beforeValue.property c hc)

theorem member_chars {α : Type} {render : α → Text} {m : Member α} {c : Char}
    (h : c ∈ m.text render) : IsText c ∨ c ∈ render m.value := by
  simp only [Member.text, List.mem_append] at h
  rcases h with hc | hc | hc
  · exact Or.inl (head_chars hc)
  · exact Or.inr hc
  · exact Or.inl (Or.inl (m.after.property c hc))

theorem members_chars {α : Type} {render : α → Text} {ms : List (Member α)} {c : Char}
    (h : c ∈ membersText render ms) : IsText c ∨ ∃ m ∈ ms, c ∈ render m.value := by
  induction ms with
  | nil => cases h
  | cons m ms ih =>
    by_cases hnil : ms = []
    · subst hnil
      rcases member_chars h with hc | hc
      · exact Or.inl hc
      · exact Or.inr ⟨m, List.mem_cons_self, hc⟩
    · rw [members_text_cons render m hnil, List.mem_append, List.mem_cons] at h
      rcases h with hc | rfl | hc
      · rcases member_chars hc with hc | hc
        · exact Or.inl hc
        · exact Or.inr ⟨m, List.mem_cons_self, hc⟩
      · exact Or.inl (Or.inr (Or.inl (by decide)))
      · rcases ih hc with hc | ⟨m', hmem, hc⟩
        · exact Or.inl hc
        · exact Or.inr ⟨m', List.mem_cons_of_mem m hmem, hc⟩

theorem body_chars {o : Obj Literal} {c : Char} (h : c ∈ o.body Literal.text) :
    c = '{' ∨ IsText c := by
  simp only [Obj.body, List.mem_cons, List.mem_append] at h
  rcases h with rfl | hc | hc
  · exact Or.inl rfl
  · exact Or.inr (Or.inl (o.blank.property c hc))
  · rcases members_chars hc with hc | ⟨m, -, hc⟩
    · exact Or.inr hc
    · exact Or.inr (Or.inr (Or.inl (literal_chars hc)))

theorem document_chars {d : Document} {c : Char} (h : c ∈ d.text) :
    c = '{' ∨ c = '}' ∨ IsText c := by
  simp only [Document.text, Obj.text, Obj.body, List.mem_cons, List.mem_append, List.not_mem_nil,
    or_false] at h
  rcases h with hc | ((rfl | hc | hc) | rfl) | hc
  · exact Or.inr (Or.inr (Or.inl (d.before.property c hc)))
  · exact Or.inl rfl
  · exact Or.inr (Or.inr (Or.inl (d.root.blank.property c hc)))
  · rcases members_chars hc with hc | ⟨m, -, hc⟩
    · exact Or.inr (Or.inr hc)
    · rw [Obj.text, List.mem_append, List.mem_singleton] at hc
      rcases hc with hc | rfl
      · rcases body_chars hc with rfl | hc
        · exact Or.inl rfl
        · exact Or.inr (Or.inr hc)
      · exact Or.inr (Or.inl rfl)
  · exact Or.inr (Or.inl rfl)
  · exact Or.inr (Or.inr (Or.inl (d.after.property c hc)))

theorem not_digit_of_ends {post : Text} (h : EndsValue post) :
    ∀ c ∈ post.head?, c.isDigit = false := by
  intro c hc
  rcases h c hc with hblank | rfl | rfl
  · simp only [isBlank, Bool.or_eq_true, decide_eq_true_eq] at hblank
    rcases hblank with ((rfl | rfl) | rfl) | rfl <;> decide
  · decide
  · decide

theorem decimal_append (xs ys : Text) :
    decimal (xs ++ ys) = decimal xs * 10 ^ ys.length + decimal ys := by
  induction ys using List.reverseRecOn with
  | nil => simp [decimal]
  | append_singleton ys c ih =>
    have hsnoc : ∀ zs : Text, decimal (zs ++ [c]) = 10 * decimal zs + (c.toNat - 48 : ℕ) := by
      intro zs
      simp [decimal, List.foldl_append]
    rw [← List.append_assoc, hsnoc, hsnoc, ih, List.length_append, List.length_singleton, pow_succ]
    ring

theorem decimal_nonneg (xs : Text) : 0 ≤ decimal xs := by
  induction xs using List.reverseRecOn with
  | nil => exact le_refl 0
  | append_singleton xs c ih =>
    have hc : 0 ≤ decimal [c] := by simp [decimal]
    rw [decimal_append]
    positivity

theorem decimal_pos {c : Char} {xs : Text} (hdigit : c.isDigit = true) (hzero : c ≠ '0') :
    0 < decimal (c :: xs) := by
  have hc : 0 < decimal [c] := by
    have hlow : 48 ≤ c.toNat := by
      simp [Char.isDigit] at hdigit
      exact hdigit.1
    have hne : c.toNat ≠ 48 := fun h => hzero (Char.toNat_inj.mp h)
    simp [decimal]
    omega
  have happend := decimal_append [c] xs
  rw [List.singleton_append] at happend
  have hxs := decimal_nonneg xs
  rw [happend]
  positivity

theorem signed_nat_abs (negative : Bool) (n : ℤ) : (signed negative n).natAbs = n.natAbs := by
  cases negative
  · rfl
  · exact Int.natAbs_neg n

theorem decimal_append_lt {xs ys : Text} (hxs : 0 < decimal xs) (hys : ys ≠ []) :
    decimal xs < decimal (xs ++ ys) := by
  have hrest := decimal_nonneg ys
  obtain ⟨c, ys, rfl⟩ := List.exists_cons_of_ne_nil hys
  have hpow : (1 : ℤ) ≤ 10 ^ ys.length := one_le_pow₀ (by norm_num)
  rw [decimal_append, List.length_cons, pow_succ]
  nlinarith

theorem Literal.text_pos (l : Literal) : 0 < l.text.length := by
  have hpos := List.length_pos_of_ne_nil l.nonempty
  unfold Literal.text
  rw [List.length_append]
  omega

theorem Literal.cut_whole {l : Literal} {n : ℕ} (h : l.text.length ≤ n) :
    l.cut n = some l.value := by
  unfold Literal.text at h
  rw [List.length_append] at h
  unfold Literal.cut Literal.value
  rw [List.take_of_length_le (by omega)]
  exact if_neg l.nonempty

theorem Literal.cut_lt {l : Literal} {n : ℕ} {v : ℤ} (h : l.cut n = some v)
    (hn : n < l.text.length) : v.natAbs < l.value.natAbs := by
  unfold Literal.text at hn
  rw [List.length_append] at hn
  simp only [Literal.cut] at h
  split_ifs at h with hempty
  obtain rfl := Option.some_inj.mp h
  rw [Literal.value, signed_nat_abs, signed_nat_abs]
  set m := n - l.sign.length with hm
  have hdrop : l.digits.drop m ≠ [] := by
    intro hnil
    rw [List.drop_eq_nil_iff] at hnil
    have hzero : m ≠ 0 := fun h0 => hempty (by rw [h0, List.take_zero])
    omega
  have hpos : 0 < decimal (l.digits.take m) := by
    obtain ⟨c, xs, hcons⟩ := List.exists_cons_of_ne_nil hempty
    have hall : l.digits = c :: (xs ++ l.digits.drop m) := by
      rw [← List.cons_append, ← hcons, List.take_append_drop]
    rw [hcons]
    apply decimal_pos
    · apply l.isDigit
      rw [hall]
      exact List.mem_cons_self
    · rintro rfl
      have hone := l.canonical (by rw [hall]; rfl)
      rw [hall] at hone
      have hnil := List.cons.inj hone |>.2
      exact hdrop (List.append_eq_nil_iff.mp hnil).2
  have hlt := decimal_append_lt hpos hdrop
  rw [List.take_append_drop] at hlt
  omega

end FlatJson
