import Mathlib.Data.List.Destutter
import Mathlib.Order.Interval.Finset.Nat

/-!
# Numbers on record and the gaps between them

A reader that polls a counter sees some of its values, many of them more than once. The
record keeps every change; of a counter that never goes back it holds every number polled, once, and
the numbers it lacks are counted by its ends and its length.
-/
namespace GapCount

/-- The changes among the polled numbers, after the value `start`. -/
def record (start : ℕ) (polled : List ℕ) : List ℕ := (polled.destutter' (· ≠ ·) start).tail

@[simp] theorem record_nil (start : ℕ) : record start [] = [] := rfl

theorem cons_record (start : ℕ) (polled : List ℕ) :
    start :: record start polled = polled.destutter' (· ≠ ·) start := by
  induction polled generalizing start with
  | nil => rfl
  | cons c polled ih =>
    by_cases hc : start = c
    · subst hc
      rw [record, List.destutter'_cons_neg _ (by simp)]
      exact ih start
    · rw [record, List.destutter'_cons_pos _ hc, List.tail_cons]

@[simp] theorem record_cons_self (start : ℕ) (polled : List ℕ) :
    record start (start :: polled) = record start polled := by
  rw [record, List.destutter'_cons_neg _ (by simp), record]

theorem record_cons_of_ne {start c : ℕ} (h : c ≠ start) (polled : List ℕ) :
    record start (c :: polled) = c :: record c polled := by
  rw [record, List.destutter'_cons_pos _ h.symm, List.tail_cons, cons_record]

section Increasing

variable {start : ℕ} {polled : List ℕ}

theorem cons_record_eq_dedup (h : (start :: polled).Pairwise (· ≤ ·)) :
    start :: record start polled = (start :: polled).dedup := by
  rw [cons_record, ← List.destutter_cons', h.destutter_eq_dedup]

theorem mem_record (h : (start :: polled).Pairwise (· ≤ ·)) {c : ℕ} :
    c ∈ record start polled ↔ c ∈ polled ∧ c ≠ start := by
  have hnodup : (start :: record start polled).Nodup := by
    rw [cons_record_eq_dedup h]
    exact List.nodup_dedup _
  have hmem : c ∈ start :: record start polled ↔ c ∈ start :: polled := by
    rw [cons_record_eq_dedup h, List.mem_dedup]
  rw [List.mem_cons, List.mem_cons] at hmem
  have hstart : start ∉ record start polled := (List.nodup_cons.mp hnodup).1
  constructor
  · intro hc
    have hne : c ≠ start := by
      rintro rfl
      exact hstart hc
    exact ⟨(hmem.mp (.inr hc)).resolve_left hne, hne⟩
  · rintro ⟨hc, hne⟩
    exact (hmem.mpr (.inr hc)).resolve_left hne

end Increasing

/-- The numbers between the first and the last that the list lacks. -/
def absent (l : List ℕ) : Finset ℕ := Finset.Ico (l.headD 0) (l.getLastD 0) \ l.toFinset

@[simp] theorem absent_nil : absent [] = ∅ := rfl

@[simp] theorem absent_singleton (c : ℕ) : absent [c] = ∅ := by
  simp [absent]

theorem head_le_of_mem {l : List ℕ} (hl : l.Pairwise (· < ·)) {c : ℕ} (hc : c ∈ l) :
    l.headD 0 ≤ c := by
  cases l with
  | nil => cases hc
  | cons a l =>
    rcases List.mem_cons.mp hc with rfl | hc
    · exact le_refl _
    · exact (List.rel_of_pairwise_cons hl hc).le

theorem le_last_of_mem {l : List ℕ} (hl : l.Pairwise (· < ·)) {c : ℕ} (hc : c ∈ l) :
    c ≤ l.getLastD 0 := by
  rcases List.eq_nil_or_concat l with rfl | ⟨init, last, rfl⟩
  · cases hc
  · rw [List.concat_eq_append] at hl hc ⊢
    rw [List.getLastD_concat]
    rcases List.mem_append.mp hc with hc | hc
    · exact ((List.pairwise_append.mp hl).2.2 c hc last List.mem_cons_self).le
    · exact (List.mem_singleton.mp hc).le

theorem pairwise_snoc {l : List ℕ} (hl : l.Pairwise (· < ·)) {c : ℕ} (hc : l.getLastD 0 < c) :
    (l ++ [c]).Pairwise (· < ·) := by
  apply List.pairwise_append.mpr
  refine ⟨hl, List.pairwise_singleton _ _, ?_⟩
  intro a ha b hb
  rw [List.mem_singleton.mp hb]
  exact (le_last_of_mem hl ha).trans_lt hc

/-- The last number itself is on record, so it does not matter whether it is counted. -/
theorem absent_eq_icc {l : List ℕ} (hne : l ≠ []) :
    absent l = Finset.Icc (l.headD 0) (l.getLastD 0) \ l.toFinset := by
  have hlast : l.getLastD 0 ∈ l := by
    rw [List.getLastD_eq_getLast?, List.getLast?_eq_some_getLast hne]
    exact List.getLast_mem hne
  ext c
  simp only [absent, Finset.mem_sdiff, Finset.mem_Ico, Finset.mem_Icc, List.mem_toFinset]
  constructor
  · rintro ⟨⟨hlow, hhigh⟩, hc⟩
    exact ⟨⟨hlow, hhigh.le⟩, hc⟩
  · rintro ⟨⟨hlow, hhigh⟩, hc⟩
    refine ⟨⟨hlow, lt_of_le_of_ne hhigh ?_⟩, hc⟩
    rintro rfl
    exact hc hlast

theorem length_add_absent {l : List ℕ} (hne : l ≠ []) (hl : l.Pairwise (· < ·)) :
    (l.length + (absent l).card : ℤ) = l.getLastD 0 - l.headD 0 + 1 := by
  have hsub : l.toFinset ⊆ Finset.Icc (l.headD 0) (l.getLastD 0) := by
    intro c hc
    have hmem : c ∈ l := List.mem_toFinset.mp hc
    exact Finset.mem_Icc.mpr ⟨head_le_of_mem hl hmem, le_last_of_mem hl hmem⟩
  have hcard := Finset.card_sdiff_add_card_eq_card hsub
  have hnodup : l.Nodup := hl.imp fun h => h.ne
  rw [List.toFinset_card_of_nodup hnodup, Nat.card_Icc] at hcard
  have hrange : l.headD 0 ≤ l.getLastD 0 := by
    obtain ⟨c, hc⟩ := List.exists_mem_of_ne_nil l hne
    exact (head_le_of_mem hl hc).trans (le_last_of_mem hl hc)
  rw [← absent_eq_icc hne] at hcard
  omega

/-- A new last number adds the gap in front of it. -/
theorem card_absent_snoc {l : List ℕ} (hne : l ≠ []) {c : ℕ}
    (hl : (l ++ [c]).Pairwise (· < ·)) :
    ((absent (l ++ [c])).card : ℤ) = (absent l).card + (c - l.getLastD 0 - 1) := by
  have hbefore := length_add_absent hne (List.pairwise_append.mp hl).1
  have hafter := length_add_absent (List.append_ne_nil_of_left_ne_nil hne [c]) hl
  have hhead : (l ++ [c]).headD 0 = l.headD 0 := by
    cases l with
    | nil => exact absurd rfl hne
    | cons a l => rfl
  rw [hhead, List.getLastD_concat, List.length_append, List.length_singleton] at hafter
  push_cast at hafter
  omega

end GapCount
