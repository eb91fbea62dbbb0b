import So101.Lib.FlatJson

/-!
# Reading flat JSON back

A reader for objects of objects of integers; any other value, and keys with escapes, it
refuses. It reads every document back from its text.
-/
namespace FlatJson

def skip (s : Text) : Text := s.dropWhile isBlank

def readKey : Text → Option (Text × Text)
  | '"' :: s =>
    let key := s.takeWhile (· ≠ '"')
    match s.dropWhile (· ≠ '"') with
    | '"' :: s => if key.any (fun c => c = '\\' || c.toNat < 32) then none else some (key, s)
    | _ => none
  | _ => none

def readInt (s : Text) : Option (ℤ × Text) :=
  let negative : Bool := s.head? = some '-'
  let s := if negative then s.tail else s
  let digits := if s.head? = some '0' then ['0'] else s.takeWhile Char.isDigit
  if digits = [] then none else some (signed negative (decimal digits), s.drop digits.length)

section Objects

variable {β : Type} (value : Text → Option (β × Text))

def readMember (s : Text) : Option ((Text × β) × Text) :=
  match readKey (skip s) with
  | none => none
  | some (key, s) =>
    match skip s with
    | ':' :: s => (value (skip s)).map fun (v, s) => ((key, v), skip s)
    | _ => none

/-- Members up to the closing brace, at most `n`. -/
def readMembers : ℕ → Text → Option (List (Text × β) × Text)
  | 0, _ => none
  | n + 1, s =>
    match readMember value s with
    | some (m, '}' :: s) => some ([m], s)
    | some (m, ',' :: s) => (readMembers n s).map fun (ms, s) => (m :: ms, s)
    | _ => none

def readObj : Text → Option (List (Text × β) × Text)
  | '{' :: s =>
    match skip s with
    | '}' :: s => some ([], s)
    | _ => readMembers value s.length s
  | _ => none

end Objects

def jsonLoad (s : Text) : Option (List (Text × List (Text × ℤ))) :=
  match readObj (readObj readInt) (skip s) with
  | some (members, s) => if skip s = [] then some members else none
  | none => none

/-- The item of a dict; a later member replaces an earlier one of the same key. -/
def item {β : Type} (key : Text) : List (Text × β) → Option β
  | [] => none
  | m :: ms => (item key ms).or (if m.1 = key then some m.2 else none)

theorem skip_append (w : Blank) (s : Text) : skip (w.val ++ s) = skip s :=
  List.dropWhile_append_of_pos w.property

theorem skip_cons {c : Char} (h : isBlank c = false) (s : Text) : skip (c :: s) = c :: s :=
  List.dropWhile_cons_of_neg (by simp [h])

theorem skip_all (w : Blank) : skip w.val = [] := by
  have h := skip_append w []
  rwa [List.append_nil] at h

theorem read_key_quote (key : Key) (s : Text) :
    readKey (quote key.val ++ s) = some (key.val, s) := by
  obtain ⟨key, hkey⟩ := key
  have hplain : ∀ c ∈ key, decide (c ≠ '"') = true := fun c hc => by simp [(hkey c hc).2.1]
  have htake : (key ++ '"' :: s).takeWhile (· ≠ '"') = key := by
    rw [List.takeWhile_append_of_pos hplain]
    simp
  have hdrop : (key ++ '"' :: s).dropWhile (· ≠ '"') = '"' :: s := by
    rw [List.dropWhile_append_of_pos hplain]
    simp
  have hany : (key.any fun c => c = '\\' || c.toNat < 32) = false := by
    rw [List.any_eq_false]
    intro c hc
    obtain ⟨hlow, -, hback, -⟩ := hkey c hc
    simp [hback, hlow]
  simp only [quote, List.cons_append, List.append_assoc, List.nil_append, readKey, htake, hdrop,
    hany]
  rfl

/-- Whatever follows, a rendered value is read back as what `f` makes of it. -/
structure Reads {α β : Type} (value : Text → Option (β × Text)) (render : α → Text)
    (f : α → β) : Prop where
  starts : ∀ a, ∃ c s, render a = c :: s ∧ isBlank c = false
  reads : ∀ a post, EndsValue post → value (render a ++ post) = some (f a, post)

section Objects

variable {α β : Type} {value : Text → Option (β × Text)} {render : α → Text} {f : α → β}

def pairs (f : α → β) (ms : List (Member α)) : List (Text × β) :=
  ms.map fun m => (m.key.val, f m.value)

theorem read_member_text (h : Reads value render f) (m : Member α) {post : Text}
    (hpost : EndsValue post) : readMember value (m.text render ++ post) =
      some ((m.key.val, f m.value), skip post) := by
  obtain ⟨c, s, hstart, hblank⟩ := h.starts m.value
  have hkey : ∀ s, skip (quote m.key.val ++ s) = quote m.key.val ++ s := fun s =>
    skip_cons (by decide) _
  have hvalue : ∀ s, skip (render m.value ++ s) = render m.value ++ s := by
    intro s'
    rw [hstart]
    exact skip_cons hblank _
  have hcolon : ∀ s, skip (':' :: s) = ':' :: s := skip_cons (by decide)
  have hread := h.reads m.value (m.after.val ++ post) (ends_after m.after hpost)
  simp only [readMember, Member.text, Member.head, List.append_assoc, skip_append, hkey,
    read_key_quote, List.cons_append, hcolon, hvalue, hread, Option.map_some]

theorem member_text_start (render : α → Text) (m : Member α) (s : Text) :
    ∃ s', skip (m.text render ++ s) = '"' :: s' := by
  rw [Member.text, Member.head, List.append_assoc, List.append_assoc, skip_append]
  exact ⟨_, skip_cons (by decide) _⟩

theorem members_text_start (render : α → Text) {ms : List (Member α)} (hms : ms ≠ []) (s : Text) :
    ∃ s', skip (membersText render ms ++ s) = '"' :: s' := by
  obtain ⟨m, ms, rfl⟩ := List.exists_cons_of_ne_nil hms
  by_cases hnil : ms = []
  · subst hnil
    exact member_text_start render m s
  · rw [members_text_cons render m hnil, List.append_assoc]
    exact member_text_start render m _

theorem length_members_le (render : α → Text) (ms : List (Member α)) :
    ms.length ≤ (membersText render ms).length := by
  induction ms with
  | nil => exact le_refl 0
  | cons m ms ih =>
    by_cases hnil : ms = []
    · subst hnil
      simp only [membersText, Member.text, Member.head, quote, List.length_append,
        List.length_cons]
      omega
    · simp only [members_text_cons render m hnil, List.length_append, List.length_cons]
      omega

theorem read_members_text (h : Reads value render f) {ms : List (Member α)} (hne : ms ≠ [])
    {n : ℕ} (hn : ms.length ≤ n) (post : Text) :
    readMembers value n (membersText render ms ++ '}' :: post) = some (pairs f ms, post) := by
  induction ms generalizing n with
  | nil => exact absurd rfl hne
  | cons m ms ih =>
    cases n with
    | zero => simp at hn
    | succ n =>
      by_cases hnil : ms = []
      · subst hnil
        have hread := read_member_text h m (ends_brace post)
        rw [skip_cons (by decide)] at hread
        simp only [readMembers, membersText, hread, pairs, List.map_cons, List.map_nil]
      · have hread := read_member_text h m (ends_comma (membersText render ms ++ '}' :: post))
        rw [skip_cons (by decide)] at hread
        have hrest := ih hnil (Nat.le_of_succ_le_succ hn)
        simp only [readMembers, members_text_cons render m hnil, List.append_assoc,
          List.cons_append, hread, hrest, Option.map_some, pairs, List.map_cons]

theorem read_members_blank (value : Text → Option (β × Text)) (n : ℕ) (w : Blank) (s : Text) :
    readMembers value n (w.val ++ s) = readMembers value n s := by
  cases n with
  | zero => rfl
  | succ n => simp only [readMembers, readMember, skip_append]

theorem obj_reads (h : Reads value render f) :
    Reads (readObj value) (Obj.text render) (fun o => pairs f o.members) := by
  constructor
  · intro o
    exact ⟨'{', _, rfl, by decide⟩
  · intro o post _
    have htext : o.text render ++ post =
        '{' :: (o.blank.val ++ (membersText render o.members ++ '}' :: post)) := by
      simp [Obj.text, Obj.body]
    rw [htext]
    by_cases hnil : o.members = []
    · simp only [readObj, skip_append, hnil, membersText, List.nil_append,
        skip_cons (show isBlank '}' = false by decide), pairs, List.map_nil]
    · obtain ⟨s, hs⟩ := members_text_start render hnil ('}' :: post)
      have hlen := length_members_le render o.members
      have hread := read_members_text h hnil
        (n := (o.blank.val ++ (membersText render o.members ++ '}' :: post)).length)
        (by simp only [List.length_append]; omega) post
      rw [← read_members_blank value _ o.blank] at hread
      simp only [readObj, skip_append, hs]
      exact hread

end Objects

theorem take_digits (l : Literal) {post : Text} (h : EndsValue post) :
    (if (l.digits ++ post).head? = some '0' then ['0']
      else (l.digits ++ post).takeWhile Char.isDigit) = l.digits := by
  obtain ⟨c, ds, hcons⟩ := List.exists_cons_of_ne_nil l.nonempty
  have hhead : (l.digits ++ post).head? = l.digits.head? := by
    rw [hcons]
    rfl
  by_cases hzero : l.digits.head? = some '0'
  · rw [if_pos (hhead.trans hzero), l.canonical hzero]
  · rw [if_neg (fun he => hzero (hhead.symm.trans he)), List.takeWhile_append_of_pos l.isDigit]
    have hstop := not_digit_of_ends h
    cases post with
    | nil => simp
    | cons c' post => simp [hstop c' rfl]

theorem not_sign_of_digit {c : Char} (h : c.isDigit = true) : c ≠ '-' ∧ isBlank c = false := by
  constructor
  · rintro rfl
    revert h
    decide
  · by_contra hblank
    simp only [Bool.not_eq_false, isBlank, Bool.or_eq_true, decide_eq_true_eq] at hblank
    rcases hblank with ((rfl | rfl) | rfl) | rfl <;> revert h <;> decide

theorem int_reads : Reads readInt Literal.text Literal.value := by
  constructor
  · rintro ⟨negative, digits, hdigit, hne, hcanon⟩
    obtain ⟨c, ds, rfl⟩ := List.exists_cons_of_ne_nil hne
    cases negative
    · exact ⟨c, ds, rfl, (not_sign_of_digit (hdigit c List.mem_cons_self)).2⟩
    · exact ⟨'-', _, rfl, by decide⟩
  · intro l post hpost
    have htake := take_digits l hpost
    cases hneg : l.negative with
    | false =>
      have htext : l.text ++ post = l.digits ++ post := by simp [Literal.text, Literal.sign, hneg]
      have hhead : (l.digits ++ post).head? ≠ some '-' := by
        obtain ⟨c, ds, hcons⟩ := List.exists_cons_of_ne_nil l.nonempty
        rw [hcons]
        intro he
        exact (not_sign_of_digit (l.isDigit c (by simp [hcons]))).1 (Option.some_inj.mp he)
      simp only [readInt, htext, hhead, decide_false, Bool.false_eq_true, if_false, htake,
        l.nonempty, List.drop_left, Literal.value, hneg]
    | true =>
      have htext : l.text ++ post = '-' :: (l.digits ++ post) := by
        simp [Literal.text, Literal.sign, hneg]
      simp only [readInt, htext, List.head?_cons, decide_true, if_true, List.tail_cons, htake,
        l.nonempty, if_false, List.drop_left, Literal.value, hneg]

def Document.dict (d : Document) : List (Text × List (Text × ℤ)) :=
  pairs (fun o => pairs Literal.value o.members) d.root.members

/-- Every document is read back from its text. -/
theorem json_load_text (d : Document) : jsonLoad d.text = some d.dict := by
  have hreads := obj_reads (obj_reads int_reads)
  have hends : EndsValue d.after.val := by
    have h := ends_after d.after ends_nil
    rwa [List.append_nil] at h
  have hread := hreads.reads d.root d.after.val hends
  have hstart : skip (d.root.text (Obj.text Literal.text) ++ d.after.val) =
      d.root.text (Obj.text Literal.text) ++ d.after.val := skip_cons (by decide) _
  simp only [jsonLoad, Document.text, skip_append, hstart, hread, skip_all, if_true, Document.dict]

theorem item_pairs {α β : Type} (f : α → β) {ms : List (Member α)} (key : Text)
    (h : (ms.map Member.key).Nodup) : item key (pairs f ms) = (lookup key ms).map f := by
  induction ms with
  | nil => rfl
  | cons m ms ih =>
    rw [List.map_cons, List.nodup_cons] at h
    have hrest := ih h.2
    unfold lookup
    by_cases hkey : m.key.val = key
    · have hnone : lookup key ms = none := by
        rw [lookup_eq_none]
        intro m' hmem he
        exact h.1 (List.mem_map.mpr ⟨m', hmem, Subtype.ext (he.trans hkey.symm)⟩)
      rw [hnone] at hrest
      simp only [pairs, List.map_cons, item, if_pos hkey] at hrest ⊢
      rw [hrest]
      rfl
    · simp only [pairs, List.map_cons, item, if_neg hkey] at hrest ⊢
      rw [hrest, Option.or_none]

end FlatJson
