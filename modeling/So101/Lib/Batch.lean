import Mathlib.Data.List.Basic

/-!
# Batches of updates

Entries are applied in order until one is refused. What was applied before stays applied.
-/
namespace Batch

variable {S E R K V : Type*}

/-- The state a batch leaves, and the answer to the entry it stopped at. -/
def run (refuse : E → Option R) (apply : S → E → S) : S → List E → S × Option R
  | s, [] => (s, none)
  | s, e :: es =>
    match refuse e with
    | some r => (s, some r)
    | none => run refuse apply (apply s e) es

def Accepted (refuse : E → Option R) (es : List E) : Prop := ∀ e ∈ es, refuse e = none

variable {refuse : E → Option R} {apply : S → E → S}

theorem run_append {pre : List E} (hpre : Accepted refuse pre) (s : S) (es : List E) :
    run refuse apply s (pre ++ es) = run refuse apply (pre.foldl apply s) es := by
  induction pre generalizing s with
  | nil => rfl
  | cons e pre ih =>
    have he : refuse e = none := hpre e List.mem_cons_self
    have hrest : Accepted refuse pre := fun e' h => hpre e' (List.mem_cons_of_mem e h)
    simp only [List.cons_append, run, he, List.foldl_cons, ih hrest]

theorem run_accepted {es : List E} (hes : Accepted refuse es) (s : S) :
    run refuse apply s es = (es.foldl apply s, none) := by
  rw [← List.append_nil es, run_append hes, List.append_nil]
  rfl

theorem run_refused {pre : List E} {e : E} {r : R} (hpre : Accepted refuse pre)
    (he : refuse e = some r) (s : S) (post : List E) :
    run refuse apply s (pre ++ e :: post) = (pre.foldl apply s, some r) := by
  rw [run_append hpre]
  simp only [run, he]

/-- A batch is accepted as a whole, or it has a first entry that is refused. -/
theorem accepted_or_refused (refuse : E → Option R) (es : List E) :
    Accepted refuse es ∨ ∃ pre e post r,
      es = pre ++ e :: post ∧ Accepted refuse pre ∧ refuse e = some r := by
  induction es with
  | nil => exact .inl fun e he => absurd he List.not_mem_nil
  | cons e es ih =>
    cases he : refuse e with
    | some r => exact .inr ⟨[], e, es, r, rfl, fun e he => absurd he List.not_mem_nil, he⟩
    | none =>
      rcases ih with hall | ⟨pre, e', post, r, rfl, hpre, hr⟩
      · exact .inl (List.forall_mem_cons.mpr ⟨he, hall⟩)
      · exact .inr ⟨e :: pre, e', post, r, rfl, List.forall_mem_cons.mpr ⟨he, hpre⟩, hr⟩

def lastWrite (write : E → K → Option V) (k : K) (es : List E) : Option V :=
  (es.filterMap fun e => write e k).getLast?

variable {write : E → K → Option V} {read : S → K → V}

theorem last_write_cons (e : E) (es : List E) (k : K) (v : V) :
    (lastWrite write k (e :: es)).getD v = (lastWrite write k es).getD ((write e k).getD v) := by
  cases h : write e k with
  | none => simp [lastWrite, h]
  | some w => simp [lastWrite, h, List.getLast?_cons]

theorem read_foldl {es : List E}
    (hwrite : ∀ e ∈ es, ∀ s k, read (apply s e) k = (write e k).getD (read s k)) (s : S) (k : K) :
    read (es.foldl apply s) k = (lastWrite write k es).getD (read s k) := by
  induction es generalizing s with
  | nil => rfl
  | cons e es ih =>
    rw [List.foldl_cons, ih fun e' h => hwrite e' (List.mem_cons_of_mem e h),
      hwrite e List.mem_cons_self, last_write_cons]

theorem read_foldl_eq_iff {es : List E}
    (hwrite : ∀ e ∈ es, ∀ s k, read (apply s e) k = (write e k).getD (read s k)) (s : S) (k : K) :
    read (es.foldl apply s) k = read s k ↔ ∀ v ∈ lastWrite write k es, v = read s k := by
  rw [read_foldl hwrite]
  cases lastWrite write k es with
  | none => simp
  | some v => simp

end Batch
