import Mathlib.Data.List.Basic

/-!
# Incremental decoders

A decoder looks at a buffer and either emits something or waits for more input; it reports
how much of the buffer is done with. It is determined by what it has read: an emission does
not depend on what follows, and what a wait reports may be thrown away.
-/
namespace StreamDecoder

variable {α ε : Type*}

/-- The answer to a buffer, `none` for a wait, and the elements that are done with. -/
abbrev Answer (ε : Type*) := Option ε × ℕ

/-- The same answer, for a buffer with `k` more elements in front. -/
def Answer.shift (k : ℕ) (a : Answer ε) : Answer ε := (a.1, k + a.2)

@[simp] theorem shift_fst (k : ℕ) (a : Answer ε) : (a.shift k).1 = a.1 := rfl

@[simp] theorem shift_snd (k : ℕ) (a : Answer ε) : (a.shift k).2 = k + a.2 := rfl

@[simp] theorem shift_mk (k n : ℕ) (e : Option ε) :
    Answer.shift k (e, n) = (e, k + n) := rfl

structure Decoder (α ε : Type*) where
  decode : List α → Answer ε
  consumed_le : ∀ xs, (decode xs).2 ≤ xs.length
  emit_pos : ∀ {xs e n}, decode xs = (some e, n) → 0 < n
  emit_append : ∀ {xs e n} (ys), decode xs = (some e, n) → decode (xs ++ ys) = (some e, n)
  wait_append : ∀ {xs n} (ys), decode xs = (none, n) →
    decode (xs ++ ys) = (decode (xs.drop n ++ ys)).shift n

/-- What a buffer emits until the decoder waits, and the buffer it waits on. -/
def Decoder.drain (D : Decoder α ε) (xs : List α) : List ε × List α :=
  match _h : D.decode xs with
  | (none, _) => ([], xs)
  | (some e, n) =>
    let r := D.drain (xs.drop n)
    (e :: r.1, r.2)
termination_by xs.length
decreasing_by
  have hpos := D.emit_pos _h
  have hle := D.consumed_le xs
  rw [_h] at hle
  simp only at hle
  rw [List.length_drop]
  omega

/-- What the waiting decoder keeps of its buffer; it may throw away what is done with. -/
def Decoder.keep (D : Decoder α ε) (drops : Bool) (xs : List α) : List α :=
  if drops then xs.drop (D.decode xs).2 else xs

/-- The chunks come one after another; after each the buffer is drained. The flag of a chunk
says whether the wait that ends its drain throws away what is done with. -/
def Decoder.drainChunks (D : Decoder α ε) : List α → List (List α × Bool) → List ε
  | _, [] => []
  | left, (chunk, drops) :: rest =>
    let r := D.drain (left ++ chunk)
    r.1 ++ D.drainChunks (D.keep drops r.2) rest

variable {D : Decoder α ε}

theorem drain_wait {xs : List α} (h : (D.decode xs).1 = none) : D.drain xs = ([], xs) := by
  unfold Decoder.drain
  split
  · rfl
  · rename_i heq
    rw [heq] at h
    cases h

theorem drain_emit {xs : List α} {e : ε} {n : ℕ} (h : D.decode xs = (some e, n)) :
    D.drain xs = (e :: (D.drain (xs.drop n)).1, (D.drain (xs.drop n)).2) := by
  rw [Decoder.drain]
  split
  · rename_i heq
    rw [heq] at h
    cases h
  · rename_i e' n' heq
    rw [heq] at h
    cases h
    rfl

theorem drain_induction (D : Decoder α ε) {motive : List α → Prop}
    (wait : ∀ xs, (D.decode xs).1 = none → motive xs)
    (emit : ∀ xs e n, D.decode xs = (some e, n) → motive (xs.drop n) → motive xs)
    (xs : List α) : motive xs := by
  induction hlen : xs.length using Nat.strongRecOn generalizing xs with
  | ind len ih =>
    cases h : D.decode xs with
    | mk a n =>
      cases a with
      | none => exact wait xs (by rw [h])
      | some e =>
        have hpos := D.emit_pos h
        have hle := D.consumed_le xs
        rw [h] at hle
        simp only at hle
        apply emit xs e n h
        apply ih (xs.drop n).length _ (xs.drop n) rfl
        rw [List.length_drop]
        omega

theorem drain_rest_waits (xs : List α) : (D.decode (D.drain xs).2).1 = none := by
  induction xs using drain_induction D with
  | wait xs h => rwa [drain_wait h]
  | emit xs e n h ih => rwa [drain_emit h]

theorem drain_drop {xs : List α} {n : ℕ} (h : D.decode xs = (none, n)) (ys : List α) :
    (D.drain (xs.drop n ++ ys)).1 = (D.drain (xs ++ ys)).1 := by
  have hshift := D.wait_append ys h
  have hle := D.consumed_le xs
  rw [h] at hle
  simp only at hle
  cases hd : D.decode (xs.drop n ++ ys) with
  | mk a m =>
    rw [hd] at hshift
    cases a with
    | none => rw [drain_wait (by rw [hd]), drain_wait (by rw [hshift]; rfl)]
    | some e =>
      have hrest : (xs ++ ys).drop (n + m) = (xs.drop n ++ ys).drop m := by
        rw [← List.drop_drop, List.drop_append_of_le_length hle]
      rw [drain_emit hd, drain_emit hshift, hrest]

theorem drain_keep {xs : List α} (h : (D.decode xs).1 = none) (drops : Bool) (ys : List α) :
    (D.drain (D.keep drops xs ++ ys)).1 = (D.drain (xs ++ ys)).1 := by
  cases drops with
  | false => rfl
  | true =>
    have hd : D.decode xs = (none, (D.decode xs).2) := Prod.ext h rfl
    exact drain_drop hd ys

/-- More input only adds emissions, those of the rest with the input behind it. -/
theorem drain_append (xs ys : List α) :
    D.drain (xs ++ ys) =
      ((D.drain xs).1 ++ (D.drain ((D.drain xs).2 ++ ys)).1,
        (D.drain ((D.drain xs).2 ++ ys)).2) := by
  induction xs using drain_induction D with
  | wait xs h => rw [drain_wait h, List.nil_append]
  | emit xs e n h ih =>
    have hle := D.consumed_le xs
    rw [h] at hle
    have hrest : (xs ++ ys).drop n = xs.drop n ++ ys := List.drop_append_of_le_length hle
    rw [drain_emit h, drain_emit (D.emit_append ys h), hrest, ih]
    rfl

theorem drain_chunks_of_wait {left : List α} (h : (D.decode left).1 = none)
    (cs : List (List α × Bool)) :
    D.drainChunks left cs = (D.drain (left ++ (cs.map Prod.fst).flatten)).1 := by
  induction cs generalizing left with
  | nil =>
    rw [List.map_nil, List.flatten_nil, List.append_nil, drain_wait h]
    rfl
  | cons c rest ih =>
    obtain ⟨chunk, drops⟩ := c
    have hwait := drain_rest_waits (D := D) (left ++ chunk)
    have hkeep : (D.decode (D.keep drops (D.drain (left ++ chunk)).2)).1 = none := by
      cases drops with
      | false => exact hwait
      | true =>
        have hd : D.decode (D.drain (left ++ chunk)).2 = (none, _) := Prod.ext hwait rfl
        have hshift := D.wait_append [] hd
        rw [List.append_nil, List.append_nil, hd] at hshift
        exact (congrArg Prod.fst hshift).symm
    simp only [Decoder.drainChunks, List.map_cons, List.flatten_cons]
    rw [ih hkeep, drain_keep hwait, ← List.append_assoc, drain_append (left ++ chunk) _]

/-- A decoder does not see how its input was cut into chunks. -/
theorem drain_chunks_eq (h : (D.decode []).1 = none) (cs : List (List α × Bool)) :
    D.drainChunks [] cs = (D.drain (cs.map Prod.fst).flatten).1 :=
  drain_chunks_of_wait h cs

end StreamDecoder
