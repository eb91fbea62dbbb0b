import Mathlib.Data.List.Basic

/-!
# Ranges of an array

Reading a range of an array held as a list, and copying a block over a range.
-/
namespace ByteRange

variable {α : Type*}

def slice (xs : List α) (i n : ℕ) : List α := (xs.drop i).take n

def overwrite (xs : List α) (i : ℕ) (ys : List α) : List α :=
  xs.take i ++ ys ++ xs.drop (i + ys.length)

variable {xs ys : List α} {i j n : ℕ}

@[simp] theorem length_slice (h : i + n ≤ xs.length) : (slice xs i n).length = n := by
  rw [slice, List.length_take, List.length_drop]
  omega

theorem get_slice (xs : List α) (i n k : ℕ) :
    (slice xs i n)[k]? = if k < n then xs[i + k]? else none := by
  rw [slice, List.getElem?_take, List.getElem?_drop]

theorem slice_slice {b k : ℕ} (h : i + k ≤ n) :
    slice (slice xs b n) i k = slice xs (b + i) k := by
  apply List.ext_getElem?
  intro m
  rw [get_slice, get_slice, get_slice, Nat.add_assoc]
  by_cases hm : m < k
  · rw [if_pos hm, if_pos hm, if_pos (by omega)]
  · rw [if_neg hm, if_neg hm]

theorem slice_append {zs : List α} (h : slice xs i (ys.length + zs.length) = ys ++ zs) :
    slice xs i ys.length = ys ∧ slice xs (i + ys.length) zs.length = zs := by
  constructor
  · have htake := congrArg (List.take ys.length) h
    rwa [slice, List.take_take, Nat.min_eq_left (Nat.le_add_right ..), List.take_left] at htake
  · have hdrop := congrArg (List.drop ys.length) h
    rwa [slice, List.drop_take, List.drop_drop, Nat.add_sub_cancel_left, List.drop_left] at hdrop

theorem length_overwrite (h : i + ys.length ≤ xs.length) :
    (overwrite xs i ys).length = xs.length := by
  simp only [overwrite, List.length_append, List.length_take, List.length_drop]
  omega

theorem get_overwrite (h : i ≤ xs.length) (ys : List α) (k : ℕ) :
    (overwrite xs i ys)[k]? =
      if i ≤ k ∧ k < i + ys.length then ys[k - i]? else xs[k]? := by
  have htake : (xs.take i).length = i := List.length_take_of_le h
  by_cases hlow : k < i
  · rw [if_neg (by omega), overwrite, List.append_assoc,
      List.getElem?_append_left (by omega), List.getElem?_take_of_lt hlow]
  by_cases hin : k < i + ys.length
  · rw [if_pos (by omega), overwrite, List.append_assoc,
      List.getElem?_append_right (by omega), htake, List.getElem?_append_left (by omega)]
  · rw [if_neg (by omega), overwrite,
      List.getElem?_append_right (by rw [List.length_append]; omega), List.length_append, htake,
      List.getElem?_drop]
    congr 1
    omega

theorem slice_overwrite (h : i ≤ xs.length) (ys : List α) :
    slice (overwrite xs i ys) i ys.length = ys := by
  apply List.ext_getElem?
  intro k
  rw [get_slice, get_overwrite h]
  by_cases hk : k < ys.length
  · rw [if_pos hk, if_pos (by omega)]
    congr 1
    omega
  · rw [if_neg hk, List.getElem?_eq_none (by omega)]

theorem slice_overwrite_of_disjoint (h : i ≤ xs.length) (ys : List α)
    (hapart : j + n ≤ i ∨ i + ys.length ≤ j) :
    slice (overwrite xs i ys) j n = slice xs j n := by
  apply List.ext_getElem?
  intro k
  rw [get_slice, get_slice, get_overwrite h]
  by_cases hk : k < n
  · rw [if_pos hk, if_pos hk, if_neg (by omega)]
  · rw [if_neg hk, if_neg hk]

theorem take_overwrite (h : i ≤ xs.length) (ys : List α) :
    (overwrite xs i ys).take (i + ys.length) = xs.take i ++ ys := by
  have hlen : (xs.take i ++ ys).length = i + ys.length := by
    rw [List.length_append, List.length_take_of_le h]
  rw [overwrite, ← hlen, List.take_left]

theorem drop_overwrite (h : i ≤ xs.length) (hij : i + ys.length ≤ j) :
    (overwrite xs i ys).drop j = xs.drop j := by
  apply List.ext_getElem?
  intro k
  rw [List.getElem?_drop, List.getElem?_drop, get_overwrite h, if_neg (by omega)]

end ByteRange
