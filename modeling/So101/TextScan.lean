import So101.CalibrationFile
import So101.Lib.JsonReader

/-!
# What the scanner finds

`strstr`, `strchr` and `strtol` on a text cut anywhere: what stands in front of the first
match is passed over, and only what is left of the text behind it is returned.
-/
namespace TextScan

open CalibrationFile (strstr strchr strtol isSpace quoted)
open FlatJson

/-- `strstr` passes the text over, whatever follows it. -/
def Skipped (pat pre : Text) : Prop := ∀ s, strstr pat (pre ++ s) = strstr pat s

variable {pat : Text}

theorem skipped_nil : Skipped pat [] := fun _ => rfl

theorem skipped_append {a b : Text} (ha : Skipped pat a) (hb : Skipped pat b) :
    Skipped pat (a ++ b) := by
  intro s
  rw [List.append_assoc, ha, hb]

theorem strstr_cons_of_not {ch : Char} {s : Text} (h : ¬ pat <+: ch :: s) :
    strstr pat (ch :: s) = strstr pat s := by
  exact if_neg (by rwa [List.isPrefixOf_iff_prefix])

theorem strstr_hit (s : Text) : strstr pat (pat ++ s) = some (pat ++ s) := by
  by_cases hnil : pat ++ s = []
  · rw [hnil]
    exact if_pos (List.append_eq_nil_iff.mp hnil).1
  · obtain ⟨ch, s', hcons⟩ := List.exists_cons_of_ne_nil hnil
    have hpre : pat <+: ch :: s' := hcons ▸ List.prefix_append pat s
    rw [hcons]
    unfold strstr
    exact if_pos (List.isPrefixOf_iff_prefix.mpr hpre)

theorem strstr_eq_none {s : Text} : strstr pat s = none ↔ ¬ pat <:+: s := by
  induction s with
  | nil =>
    unfold strstr
    rw [List.infix_nil]
    by_cases hpat : pat = [] <;> simp [hpat]
  | cons ch s ih =>
    rw [List.infix_cons_iff, not_or, ← ih]
    by_cases hpre : pat <+: ch :: s
    · unfold strstr
      simp [hpre]
    · rw [strstr_cons_of_not hpre]
      simp [hpre]

theorem strstr_take_none {s : Text} (h : strstr pat s = none) (n : ℕ) :
    strstr pat (s.take n) = none := by
  rw [strstr_eq_none] at h ⊢
  exact fun hin => h (hin.trans (List.take_prefix n s).isInfix)

theorem strstr_short {s : Text} (h : s.length < pat.length) : strstr pat s = none := by
  rw [strstr_eq_none]
  intro hin
  exact absurd hin.length_le (by omega)

theorem skipped_none {pre : Text} (h : Skipped pat pre) (hpat : pat ≠ []) :
    strstr pat pre = none := by
  have hnil := h []
  rw [List.append_nil] at hnil
  rw [hnil]
  exact if_neg hpat

theorem strstr_taken {pre : Text} (h : Skipped pat pre) (hpat : pat ≠ []) (s : Text) (n : ℕ) :
    strstr pat ((pre ++ (pat ++ s)).take n) =
      if pre.length + pat.length ≤ n then some ((pat ++ s).take (n - pre.length)) else none := by
  rw [List.take_append]
  by_cases hn : pre.length ≤ n
  · rw [List.take_of_length_le hn, h]
    by_cases hfit : pre.length + pat.length ≤ n
    · rw [if_pos hfit, List.take_append, List.take_of_length_le (by omega), strstr_hit]
    · rw [if_neg hfit]
      apply strstr_short
      rw [List.length_take]
      omega
  · rw [if_neg (by omega), Nat.sub_eq_zero_of_le (by omega), List.take_zero, List.append_nil]
    exact strstr_take_none (skipped_none h hpat) n

theorem strchr_skip {ch : Char} {pre : Text} (h : ch ∉ pre) (s : Text) :
    strchr ch (pre ++ s) = strchr ch s := by
  induction pre with
  | nil => rfl
  | cons ch' pre ih =>
    rw [List.mem_cons, not_or] at h
    exact (if_neg (Ne.symm h.1)).trans (ih h.2)

theorem strchr_taken {ch : Char} {pre : Text} (h : ch ∉ pre) (s : Text) (n : ℕ) :
    strchr ch ((pre ++ ch :: s).take n) =
      if pre.length < n then some ((ch :: s).take (n - pre.length)) else none := by
  have hcut : ch ∉ pre.take n := fun hmem => h (List.mem_of_mem_take hmem)
  rw [List.take_append, strchr_skip hcut]
  by_cases hn : pre.length < n
  · obtain ⟨m, hm⟩ := Nat.exists_eq_add_of_lt hn
    rw [if_pos hn, show n - pre.length = m + 1 by omega, List.take_succ_cons]
    exact if_pos rfl
  · rw [if_neg hn, Nat.sub_eq_zero_of_le (by omega)]
    rfl

theorem skipped_plain (key : Text) {pre : Text} (h : '"' ∉ pre) : Skipped (quote key) pre := by
  intro s
  induction pre with
  | nil => rfl
  | cons ch pre ih =>
    rw [List.mem_cons, not_or] at h
    rw [List.cons_append, strstr_cons_of_not, ih h.2]
    rintro ⟨s', hs'⟩
    exact h.1 (List.cons.inj hs').1

/-- A quoted name in front of a text without quotes does not end in that text. -/
theorem prefix_of_plain {key a s : Text} (ha : '"' ∉ a) (h : key ++ ['"'] <+: a ++ s) :
    a <+: key := by
  obtain ⟨s', hs'⟩ := h
  rw [List.append_assoc] at hs'
  rcases List.append_eq_append_iff.mp hs' with ⟨b, rfl, hb⟩ | ⟨b, hb, -⟩
  · cases b with
    | nil => rw [List.append_nil]
    | cons ch b =>
      obtain rfl : '"' = ch := (List.cons.inj hb).1
      exact absurd (List.mem_append_right key List.mem_cons_self) ha
  · exact ⟨b, hb.symm⟩

theorem skipped_key {key key' mid : Text} (hkey : '"' ∉ key') (hcolon : ':' ∉ key)
    (hne : key' ≠ key) (hquote : '"' ∉ key) (hmid : '"' ∉ mid) :
    Skipped (quote key) (quote key' ++ (mid ++ [':'])) := by
  have hopen : ∀ s, strstr (quote key) ('"' :: (key' ++ '"' :: s)) =
      strstr (quote key) (key' ++ '"' :: s) := by
    intro s
    apply strstr_cons_of_not
    intro hpre
    have hin : key ++ ['"'] <+: key' ++ '"' :: s := (List.cons_prefix_cons.mp hpre).2
    obtain ⟨b, rfl⟩ := prefix_of_plain hkey hin
    rw [List.append_assoc, List.prefix_append_right_inj] at hin
    cases b with
    | nil => exact hne (List.append_nil key').symm
    | cons ch b =>
      obtain rfl : ch = '"' := (List.cons_prefix_cons.mp hin).1
      exact hquote (List.mem_append_right key' List.mem_cons_self)
  have hclose : ∀ s, strstr (quote key) ('"' :: (mid ++ ':' :: s)) =
      strstr (quote key) (mid ++ ':' :: s) := by
    intro s
    apply strstr_cons_of_not
    intro hpre
    have hin : key ++ ['"'] <+: (mid ++ [':']) ++ s := by
      rw [List.append_assoc]
      exact (List.cons_prefix_cons.mp hpre).2
    have hle := prefix_of_plain (by simp [hmid]) hin
    exact hcolon (hle.subset (by simp))
  intro s
  have htext : quote key' ++ (mid ++ [':']) ++ s = '"' :: (key' ++ '"' :: (mid ++ ':' :: s)) := by
    simp [quote]
  rw [htext, hopen, skipped_plain key hkey, hclose, skipped_plain key hmid]
  exact skipped_plain key (show '"' ∉ [':'] by decide) s

theorem head_of_take {s : Text} {n : ℕ} {c : Char} (h : (s.take n).head? = some c) :
    s.head? = some c := by
  cases n with
  | zero => simp at h
  | succ n =>
    cases s with
    | nil => simp at h
    | cons ch s => exact h

theorem drop_while_taken {p : Char → Bool} {w s : Text} (hw : ∀ c ∈ w, p c = true)
    (hs : ∀ c ∈ s.head?, p c = false) (n : ℕ) :
    ((w ++ s).take n).dropWhile p = s.take (n - w.length) := by
  have hcut : ∀ c ∈ w.take n, p c = true := fun c hc => hw c (List.mem_of_mem_take hc)
  rw [List.take_append, List.dropWhile_append_of_pos hcut]
  cases s with
  | nil => simp
  | cons c s =>
    cases n - w.length with
    | zero => simp
    | succ m => simp [hs c rfl]

theorem take_while_taken {p : Char → Bool} {w s : Text} (hw : ∀ c ∈ w, p c = true)
    (hs : ∀ c ∈ s.head?, p c = false) (n : ℕ) :
    ((w ++ s).take n).takeWhile p = w.take n := by
  have hcut : ∀ c ∈ w.take n, p c = true := fun c hc => hw c (List.mem_of_mem_take hc)
  rw [List.take_append, List.takeWhile_append_of_pos hcut]
  cases s with
  | nil => simp
  | cons c s =>
    cases n - w.length with
    | zero => simp
    | succ m => simp [hs c rfl]

def clampLong (v : ℤ) : ℤ := max (-2 ^ 63) (min v (2 ^ 63 - 1))

theorem is_space_of_blank {c : Char} (h : isBlank c = true) : isSpace c = true := by
  simp only [isBlank, Bool.or_eq_true, decide_eq_true_eq] at h
  rcases h with ((rfl | rfl) | rfl) | rfl <;> decide

theorem not_space_of_digit {c : Char} (h : c.isDigit = true) :
    isSpace c = false ∧ c ≠ '-' ∧ c ≠ '+' := by
  refine ⟨?_, ?_, ?_⟩
  · have hlow : 48 ≤ c.toNat := by
      simp [Char.isDigit] at h
      exact h.1
    simp [isSpace]
    omega
  · rintro rfl
    revert h
    decide
  · rintro rfl
    revert h
    decide

theorem strtol_blank {w s : Text} (hw : ∀ c ∈ w, isBlank c = true)
    (hs : ∀ c ∈ s.head?, isSpace c = false) (n : ℕ) :
    strtol ((w ++ s).take n) = strtol (s.take (n - w.length)) := by
  have hspace : ∀ c ∈ w, isSpace c = true := fun c hc => is_space_of_blank (hw c hc)
  have hleft := drop_while_taken hspace hs n
  have hright := drop_while_taken (w := []) (p := isSpace) (by simp) hs (n - w.length)
  rw [List.nil_append] at hright
  simp only [strtol, hleft, hright, List.length_nil, Nat.sub_zero]

def fromDigits (negative : Bool) (digits : Text) : Option ℤ :=
  if digits = [] then none else some (clampLong (signed negative (decimal digits)))

theorem strtol_minus (s : Text) :
    strtol ('-' :: s) = fromDigits true (s.takeWhile Char.isDigit) := by
  have hdrop : List.dropWhile isSpace ('-' :: s) = '-' :: s :=
    List.dropWhile_cons_of_neg (by decide)
  simp only [strtol, hdrop, List.head?_cons, List.tail_cons]
  rfl

theorem strtol_digits {s : Text} (h : ∀ c ∈ s.head?, c.isDigit = true) :
    strtol s = fromDigits false (s.takeWhile Char.isDigit) := by
  cases s with
  | nil => rfl
  | cons c s =>
    obtain ⟨hspace, hminus, hplus⟩ := not_space_of_digit (h c rfl)
    have hdrop : List.dropWhile isSpace (c :: s) = c :: s :=
      List.dropWhile_cons_of_neg (by simp [hspace])
    simp only [strtol, hdrop, List.head?_cons, Option.some.injEq, hminus, hplus, or_self, if_false]
    rfl

theorem from_digits_cut (l : Literal) (n : ℕ) :
    fromDigits l.negative (l.digits.take (n - l.sign.length)) = (l.cut n).map clampLong := by
  unfold fromDigits Literal.cut
  by_cases hnil : l.digits.take (n - l.sign.length) = []
  · rw [if_pos hnil, if_pos hnil]
    rfl
  · rw [if_neg hnil, if_neg hnil]
    rfl

theorem strtol_taken (w : Blank) (l : Literal) {post : Text} (hpost : EndsValue post) (n : ℕ) :
    strtol ((w.val ++ (l.text ++ post)).take n) = (l.cut (n - w.val.length)).map clampLong := by
  have hdigits : ∀ m, ((l.digits ++ post).take m).takeWhile Char.isDigit = l.digits.take m :=
    take_while_taken l.isDigit (not_digit_of_ends hpost)
  obtain ⟨c, ds, hcons⟩ := List.exists_cons_of_ne_nil l.nonempty
  have hfirst : c.isDigit = true := l.isDigit c (by simp [hcons])
  cases hneg : l.negative with
  | false =>
    have htext : l.text ++ post = l.digits ++ post := by simp [Literal.text, Literal.sign, hneg]
    have hcut := from_digits_cut l (n - w.val.length)
    rw [hneg] at hcut
    have hhead : (l.digits ++ post).head? = some c := by
      rw [hcons]
      rfl
    rw [htext, strtol_blank w.property, strtol_digits, hdigits, ← hcut]
    · simp [Literal.sign, hneg]
    · intro c' hc'
      obtain rfl : c = c' := Option.some_inj.mp (hhead.symm.trans (head_of_take hc'))
      exact hfirst
    · intro c' hc'
      obtain rfl : c = c' := Option.some_inj.mp (hhead.symm.trans hc')
      exact (not_space_of_digit hfirst).1
  | true =>
    have htext : l.text ++ post = '-' :: (l.digits ++ post) := by
      simp [Literal.text, Literal.sign, hneg]
    rw [htext, strtol_blank w.property]
    · cases n - w.val.length with
      | zero => simp [Literal.cut, strtol]
      | succ m =>
        have hcut := from_digits_cut l (m + 1)
        rw [hneg] at hcut
        rw [List.take_succ_cons, strtol_minus, hdigits, ← hcut]
        simp [Literal.sign, hneg]
    · intro c' hc'
      obtain rfl : '-' = c' := Option.some_inj.mp hc'
      decide

end TextScan
