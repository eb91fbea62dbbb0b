import So101.BusDriver

/-!
# Which requests fit

The checks of the request sizes are made in `size_t`, whose sums and products wrap. They are
exact, and every store of the request stays in its array of 250 bytes, exactly where none of
them wraps around to a size that passes.
-/
namespace RequestSizes

open ServoBus (Byte)
open PacketCodec BusDriver

abbrev Size := BitVec 64

inductive Target where
  | params | pkt
  deriving DecidableEq, Repr

structure Store where
  target : Target
  start : ℕ
  count : ℕ
  deriving DecidableEq, Repr

def InBounds (stores : List Store) : Prop :=
  ∀ s ∈ stores, ∀ i < s.count, s.start + i < ftsMaxPkt

def buildStores (nparams : Size) : List Store :=
  if BitVec.ofNat 64 ftsMaxPkt < nparams + 6 then []
  else [⟨.pkt, 0, 5⟩, ⟨.pkt, 5, nparams.toNat⟩, ⟨.pkt, (5 + nparams).toNat, 1⟩]

def writeRefuses (len : Byte) : Bool :=
  len = 0 || BitVec.ofNat 64 ftsMaxPkt < len.setWidth 64 + (7 : Size)

def writeStores (len : Byte) : Option (List Store) :=
  if writeRefuses len then none
  else some ([⟨.params, 0, 1⟩, ⟨.params, 1, len.toNat⟩] ++ buildStores (len.setWidth 64 + 1))

def syncReadStores (n : Size) (len : Byte) : Option (List Store) :=
  if syncReadRefuses n len then none
  else some ([⟨.params, 0, 2⟩, ⟨.params, 2, n.toNat⟩] ++ buildStores (n + 2))

def blockStores (len : Byte) : ℕ → Size → List Store
  | 0, _ => []
  | k + 1, p =>
    [⟨.params, p.toNat, 1⟩, ⟨.params, (p + 1).toNat, len.toNat⟩] ++
      blockStores len k (p + 1 + len.setWidth 64)

def syncWriteStores (n : Size) (len : Byte) : Option (List Store) :=
  if syncWriteRefuses n len then none
  else some ([⟨.params, 0, 2⟩] ++ blockStores len n.toNat 2 ++
    buildStores (2 + n * (len.setWidth 64 + 1)))

section Sizes

variable {n : Size} {len : Byte}

theorem size_len (len : Byte) : (len.setWidth 64 : Size).toNat = len.toNat := by
  have hlt := len.isLt
  rw [BitVec.toNat_setWidth]
  omega

theorem size_add {a k : Size} {m : ℕ} (ha : a.toNat = m) (h : m + k.toNat < 2 ^ 64) :
    (a + k).toNat = m + k.toNat := by
  subst ha
  exact BitVec.toNat_add_of_lt h

theorem size_block (len : Byte) : (len.setWidth 64 + 1 : Size).toNat = len.toNat + 1 := by
  have hlt := len.isLt
  exact size_add (size_len len) (by simp; omega)

theorem size_sync_write (n : Size) (len : Byte) :
    (2 + n * (len.setWidth 64 + 1) + 6).toNat = (n.toNat * (len.toNat + 1) + 8) % 2 ^ 64 := by
  rw [BitVec.toNat_add, BitVec.toNat_add, BitVec.toNat_mul, size_block]
  change ((2 + n.toNat * (len.toNat + 1) % 2 ^ 64) % 2 ^ 64 + 6) % 2 ^ 64 = _
  omega

theorem write_accepts_iff : writeRefuses len = false ↔ len ≠ 0 ∧ len.toNat + 7 ≤ 250 := by
  have hsum : (len.setWidth 64 + 7 : Size).toNat = len.toNat + 7 := by
    have hlt := len.isLt
    exact size_add (size_len len) (by simp; omega)
  simp only [writeRefuses, ftsMaxPkt, Bool.or_eq_false_iff, decide_eq_false_iff_not,
    BitVec.lt_def, hsum]
  change (_ ∧ ¬ 250 < len.toNat + 7) ↔ _
  rw [not_lt]

theorem sync_read_accepts_iff : syncReadRefuses n len = false ↔
    n ≠ 0 ∧ len ≠ 0 ∧ (n.toNat + 8) % 2 ^ 64 ≤ 250 := by
  simp only [syncReadRefuses, ftsMaxPkt, Bool.or_eq_false_iff, decide_eq_false_iff_not,
    BitVec.lt_def, BitVec.toNat_add]
  change ((_ ∧ _) ∧ ¬ 250 < (n.toNat + 8) % 2 ^ 64) ↔ _
  rw [not_lt, and_assoc]

theorem sync_write_accepts_iff : syncWriteRefuses n len = false ↔
    n ≠ 0 ∧ len ≠ 0 ∧ (n.toNat * (len.toNat + 1) + 8) % 2 ^ 64 ≤ 250 := by
  simp only [syncWriteRefuses, ftsMaxPkt, Bool.or_eq_false_iff, decide_eq_false_iff_not,
    BitVec.lt_def, size_sync_write]
  change ((_ ∧ _) ∧ ¬ 250 < _) ↔ _
  rw [not_lt, and_assoc]

end Sizes

section Bounds

variable {stores more : List Store}

theorem in_bounds_append (h : InBounds stores) (hmore : InBounds more) :
    InBounds (stores ++ more) := by
  intro s hs
  rcases List.mem_append.mp hs with hs | hs
  · exact h s hs
  · exact hmore s hs

theorem in_bounds_cons {s : Store} (h : s.start + s.count ≤ ftsMaxPkt) (hmore : InBounds more) :
    InBounds (s :: more) := by
  intro s' hs'
  rcases List.mem_cons.mp hs' with rfl | hs'
  · intro i hi
    omega
  · exact hmore s' hs'

theorem in_bounds_nil : InBounds [] := fun _ hs => absurd hs List.not_mem_nil

theorem build_in_bounds {nparams : Size} (h : nparams.toNat + 6 ≤ ftsMaxPkt) :
    InBounds (buildStores nparams) := by
  have hmax : ftsMaxPkt = 250 := rfl
  have hlast : (5 + nparams).toNat = 5 + nparams.toNat := size_add rfl (by omega)
  unfold buildStores
  split
  · exact in_bounds_nil
  · refine in_bounds_cons ?_ (in_bounds_cons ?_ (in_bounds_cons ?_ in_bounds_nil))
    · decide
    · simp only
      omega
    · simp only [hlast]
      omega

theorem blocks_in_bounds {len : Byte} {k : ℕ} {p : Size}
    (h : p.toNat + k * (len.toNat + 1) ≤ ftsMaxPkt) : InBounds (blockStores len k p) := by
  have hmax : ftsMaxPkt = 250 := rfl
  induction k generalizing p with
  | zero => exact in_bounds_nil
  | succ k ih =>
    rw [Nat.succ_mul] at h
    have hid : (p + 1).toNat = p.toNat + 1 := size_add rfl (by simp; omega)
    have hnext : (p + 1 + len.setWidth 64).toNat = p.toNat + (len.toNat + 1) := by
      rw [size_add hid (by rw [size_len]; omega), size_len, Nat.add_right_comm, Nat.add_assoc]
    refine in_bounds_cons ?_ (in_bounds_cons ?_ (ih ?_))
    · simp only
      omega
    · simp only [hid]
      omega
    · rw [hnext]
      omega

end Bounds

/-- What the checks of one size are there for: a request that passes fits, whatever it
stores stays in its array, and one that is refused sends nothing. -/
structure SizesChecked (n : Size) (len : Byte) : Prop where
  write : writeRefuses len = false → len.toNat + 7 ≤ 250
  sync_read : syncReadRefuses n len = false → n.toNat + 8 ≤ 250
  sync_write : syncWriteRefuses n len = false → 2 + n.toNat * (len.toNat + 1) + 6 ≤ 250
  stores : ∀ s, writeStores len = some s ∨ syncReadStores n len = some s ∨
    syncWriteStores n len = some s → InBounds s
  write_refused : writeRefuses len = true → ∀ bus wire id addr data, data.length = len.toNat →
    ftsWrite bus wire id addr data = (.error .arg, bus)
  sync_read_refused : syncReadRefuses n len = true → ∀ bus wire ids addr out,
    ids.length = n.toNat → ftsSyncRead bus wire ids addr len out = (.error .arg, bus, out)
  sync_write_refused : syncWriteRefuses n len = true → ∀ bus wire ids addr data,
    ids.length = n.toNat → ftsSyncWrite bus wire ids addr len data = (.error .arg, bus)

/-- No sum of the checks wraps around to a size that passes. -/
def NoWrap (n : Size) (len : Byte) : Prop :=
  len = 0 ∨ n.toNat + 8 < 2 ^ 64 ∧
    (n.toNat * (len.toNat + 1) + 8 < 2 ^ 64 ∨
      250 < (n.toNat * (len.toNat + 1) + 8) % 2 ^ 64)

section Checks

variable {n : Size} {len : Byte}

theorem sync_read_fits (h : NoWrap n len) (haccepts : syncReadRefuses n len = false) :
    n.toNat + 8 ≤ 250 := by
  obtain ⟨_, hlen, hsize⟩ := sync_read_accepts_iff.mp haccepts
  rcases h with hzero | ⟨hsum, _⟩
  · exact absurd hzero hlen
  · rwa [Nat.mod_eq_of_lt hsum] at hsize

theorem sync_write_fits (h : NoWrap n len) (haccepts : syncWriteRefuses n len = false) :
    n.toNat * (len.toNat + 1) + 8 ≤ 250 := by
  obtain ⟨_, hlen, hsize⟩ := sync_write_accepts_iff.mp haccepts
  rcases h with hzero | ⟨_, hsum | hlarge⟩
  · exact absurd hzero hlen
  · rwa [Nat.mod_eq_of_lt hsum] at hsize
  · omega

theorem write_stores_in_bounds {s : List Store} (h : writeStores len = some s) : InBounds s := by
  have hmax : ftsMaxPkt = 250 := rfl
  unfold writeStores at h
  split at h
  · cases h
  · rename_i haccepts
    obtain ⟨_, hsize⟩ := write_accepts_iff.mp (Bool.not_eq_true _ ▸ haccepts)
    cases h
    refine in_bounds_cons ?_ (in_bounds_cons ?_ (build_in_bounds ?_))
    · decide
    · simp only
      omega
    · rw [size_block]
      omega

theorem sync_read_stores_in_bounds (h : NoWrap n len) {s : List Store}
    (hs : syncReadStores n len = some s) : InBounds s := by
  have hmax : ftsMaxPkt = 250 := rfl
  unfold syncReadStores at hs
  split at hs
  · cases hs
  · rename_i haccepts
    have hsize := sync_read_fits h (Bool.not_eq_true _ ▸ haccepts)
    have hcount : (n + 2).toNat = n.toNat + 2 := size_add rfl (by simp; omega)
    cases hs
    refine in_bounds_cons ?_ (in_bounds_cons ?_ (build_in_bounds ?_))
    · decide
    · simp only
      omega
    · rw [hcount]
      omega

theorem sync_write_stores_in_bounds (h : NoWrap n len) {s : List Store}
    (hs : syncWriteStores n len = some s) : InBounds s := by
  have hmax : ftsMaxPkt = 250 := rfl
  unfold syncWriteStores at hs
  split at hs
  · cases hs
  · rename_i haccepts
    have hsize := sync_write_fits h (Bool.not_eq_true _ ▸ haccepts)
    have hcount : (2 + n * (len.setWidth 64 + 1)).toNat = 2 + n.toNat * (len.toNat + 1) := by
      rw [BitVec.toNat_add, BitVec.toNat_mul, size_block]
      change (2 + n.toNat * (len.toNat + 1) % 2 ^ 64) % 2 ^ 64 = _
      omega
    cases hs
    apply in_bounds_append
    · refine in_bounds_cons (by decide) (blocks_in_bounds ?_)
      change 2 + n.toNat * (len.toNat + 1) ≤ ftsMaxPkt
      omega
    · apply build_in_bounds
      rw [hcount]
      omega

/-- If what passes fits, no sum that passes has wrapped around. -/
theorem no_wrap_of_fits (hread : syncReadRefuses n len = false → n.toNat + 8 ≤ 250)
    (hwrite : syncWriteRefuses n len = false → 2 + n.toNat * (len.toNat + 1) + 6 ≤ 250) :
    NoWrap n len := by
  by_cases hlen : len = 0
  · exact Or.inl hlen
  right
  have hn := n.isLt
  have hsum : n.toNat + 8 < 2 ^ 64 := by
    by_contra hwrap
    have hzero : n ≠ 0 := by
      rintro rfl
      exact hwrap (by decide)
    have hfits := hread (sync_read_accepts_iff.mpr ⟨hzero, hlen, by omega⟩)
    omega
  refine ⟨hsum, ?_⟩
  by_contra hwrap
  obtain ⟨hlarge, hsmall⟩ := not_or.mp hwrap
  have hzero : n ≠ 0 := by
    rintro rfl
    simp at hlarge
  have hfits := hwrite (sync_write_accepts_iff.mpr ⟨hzero, hlen, by omega⟩)
  omega

theorem stores_in_bounds (h : NoWrap n len) {s : List Store} (hs : writeStores len = some s ∨
    syncReadStores n len = some s ∨ syncWriteStores n len = some s) : InBounds s := by
  rcases hs with hs | hs | hs
  · exact write_stores_in_bounds hs
  · exact sync_read_stores_in_bounds h hs
  · exact sync_write_stores_in_bounds h hs

theorem write_refused_arg (hrefuses : writeRefuses len = true) {data : List Byte}
    (hdata : data.length = len.toNat) : data.length = 0 ∨ data.length + 7 > ftsMaxPkt := by
  by_contra hfits
  obtain ⟨hpos, hle⟩ := not_or.mp hfits
  have hlen : len ≠ 0 := by
    rintro rfl
    exact hpos hdata
  have hmax : ftsMaxPkt = 250 := rfl
  rw [write_accepts_iff.mpr ⟨hlen, by omega⟩] at hrefuses
  cases hrefuses

/-- The checks do what they are there for exactly where none of their sums wraps. -/
theorem sizes_checked_iff (n : Size) (len : Byte) : SizesChecked n len ↔ NoWrap n len := by
  constructor
  · intro h
    exact no_wrap_of_fits h.sync_read h.sync_write
  · intro h
    constructor
    · exact fun haccepts => (write_accepts_iff.mp haccepts).2
    · exact sync_read_fits h
    · intro haccepts
      have hfits := sync_write_fits h haccepts
      omega
    · exact fun s hs => stores_in_bounds h hs
    · intro hrefuses bus wire id addr data hdata
      rw [ftsWrite, if_pos (write_refused_arg hrefuses hdata)]
    · intro hrefuses bus wire ids addr out hids
      rw [ftsSyncRead, hids, BitVec.ofNat_toNat, BitVec.setWidth_eq, if_pos hrefuses]
    · intro hrefuses bus wire ids addr data hids
      rw [ftsSyncWrite, hids, BitVec.ofNat_toNat, BitVec.setWidth_eq, if_pos hrefuses]

end Checks

/-- A sum and a product that wrap around: both calls pass, and the copy of the ids runs
past the end of its array. -/
theorem sizes_wrap :
    (∃ s, syncReadStores (-1) 1 = some s ∧ ¬ InBounds s) ∧ ¬ SizesChecked (-1) 1 ∧
      syncWriteRefuses (BitVec.ofNat 64 (2 ^ 63)) 1 = false ∧
      ¬ SizesChecked (BitVec.ofNat 64 (2 ^ 63)) 1 := by
  refine ⟨⟨_, if_neg (by decide), fun h => ?_⟩, fun h => ?_, by decide, fun h => ?_⟩
  · have hlast := h ⟨.params, 2, (-1 : Size).toNat⟩ (by simp) 248 (by decide)
    exact absurd hlast (by decide)
  · exact absurd (h.sync_read (by decide)) (by decide)
  · exact absurd (h.sync_write (by decide)) (by decide)

end RequestSizes
