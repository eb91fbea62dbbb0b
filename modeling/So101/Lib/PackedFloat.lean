import So101.Lib.FloatModel

/-!
# The 32 bits of a float

Every word of 32 bits unpacks to a datum of the format, and a datum whose exponent fits is
packed without loss.
-/
namespace FloatModel

open Float.Model
open Float.Model.UnpackedFloat
open Rounding

theorem implicit_bit (m : BitVec 23) : (1#1 ++ m).toNat = 2 ^ 23 + m.toNat := by
  rw [BitVec.toNat_append, ← Nat.shiftLeft_add_eq_or_of_lt m.isLt]
  rfl

theorem full_mantissa {m : ℕ} (hlow : 2 ^ 23 ≤ m) (hhigh : m < 2 ^ 24) :
    (1#1 ++ BitVec.ofNat 23 m).toNat = m := by
  rw [implicit_bit, BitVec.toNat_ofNat]
  omega

theorem to_nat_pos {w : ℕ} {b : BitVec w} (h : b ≠ 0) : 0 < b.toNat :=
  Nat.pos_of_ne_zero (fun h0 => h (BitVec.eq_of_toNat_eq h0))

theorem unpack_canonical (b : BitVec Format.binary32.numBits) :
    Canonical (UnpackedFloat.unpack Format.binary32 b) := by
  have hbias : Format.binary32.exponentBias = 127 := rfl
  unfold UnpackedFloat.unpack
  simp only [hbias]
  split_ifs with hall hmant hzero hmant
  · trivial
  · trivial
  · trivial
  · have hlt : (unpackMantissa b).toNat < 2 ^ 23 := (unpackMantissa b).isLt
    simp only [Canonical, hzero, BitVec.toNat_zero]
    omega
  · have hlt : (unpackMantissa b).toNat < 2 ^ 23 := (unpackMantissa b).isLt
    have hpos : 0 < (unpackExponent b).toNat := to_nat_pos hzero
    simp only [Canonical, implicit_bit]
    omega

def Fits : UnpackedFloat → Prop
  | .finite _ _ e _ => e ≤ 104
  | _ => True

theorem unpack_fits (b : BitVec Format.binary32.numBits) :
    Fits (UnpackedFloat.unpack Format.binary32 b) := by
  have hbias : Format.binary32.exponentBias = 127 := rfl
  have hlt : (unpackExponent b).toNat < 2 ^ 8 := (unpackExponent b).isLt
  unfold UnpackedFloat.unpack
  simp only [hbias]
  split_ifs with hall hmant hzero hmant
  · trivial
  · trivial
  · trivial
  · simp only [Fits, hzero, BitVec.toNat_zero]
    omega
  · have hne : (unpackExponent b).toNat ≠ 255 := fun h => hall (BitVec.eq_of_toNat_eq h)
    simp only [Fits]
    omega

theorem unpack_sign (s : Sign) (e : BitVec 8) (m : BitVec 23) :
    Sign.ofBitVec (unpackSign (packComponents Format.binary32 s e m)) = s := by
  have hbit : unpackSign (packComponents Format.binary32 s e m) = s.toBitVec := by
    ext i hi
    obtain rfl : i = 0 := by omega
    have htop : (s.toBitVec ++ e ++ m).getLsbD 31 = (s.toBitVec ++ e).getLsbD 8 :=
      BitVec.getLsbD_append
    have hfirst : (s.toBitVec ++ e).getLsbD 8 = s.toBitVec.getLsbD 0 := BitVec.getLsbD_append
    simp [unpackSign, packComponents]
    exact htop.trans hfirst
  rw [hbit]
  cases s <;> rfl

theorem finite_congr {s : Sign} {m n : ℕ} {e d : ℤ} (hm : 0 < m) (hn : 0 < n) (hmn : m = n)
    (hed : e = d) : UnpackedFloat.finite s m e hm = .finite s n d hn := by
  subst hmn hed
  rfl

theorem unpack_full (s : Sign) {k m : ℕ} (hk : 0 < k) (hk' : k < 255) (hm : 0 < m)
    (hlow : 2 ^ 23 ≤ m) (hhigh : m < 2 ^ 24) :
    UnpackedFloat.unpack Format.binary32
      (packComponents Format.binary32 s (BitVec.ofNat 8 k) (BitVec.ofNat 23 m)) =
        .finite s m (k - 150) hm := by
  have hexp : (BitVec.ofNat 8 k).toNat = k := by
    rw [BitVec.toNat_ofNat]
    omega
  have hall : BitVec.ofNat 8 k ≠ -1#8 := by
    intro h
    have hval := congrArg BitVec.toNat h
    rw [hexp] at hval
    exact hk'.ne hval
  have hzero : BitVec.ofNat 8 k ≠ 0#8 := by
    intro h
    have hval := congrArg BitVec.toNat h
    rw [hexp] at hval
    exact hk.ne' hval
  unfold UnpackedFloat.unpack
  simp only [unpackMantissa_packComponents, unpackExponent_packComponents, unpack_sign, if_neg hall,
    if_neg hzero]
  apply finite_congr
  · exact full_mantissa hlow hhigh
  · rw [hexp]
    rfl

theorem unpack_subnormal (s : Sign) {m : ℕ} (hm : 0 < m) (hhigh : m < 2 ^ 23) :
    UnpackedFloat.unpack Format.binary32
      (packComponents Format.binary32 s 0#8 (BitVec.ofNat 23 m)) = .finite s m (-149) hm := by
  have hmant : (BitVec.ofNat 23 m).toNat = m := by
    rw [BitVec.toNat_ofNat, Nat.mod_eq_of_lt hhigh]
  have hzero : BitVec.ofNat 23 m ≠ 0#23 := by
    intro h
    have hval := congrArg BitVec.toNat h
    rw [hmant] at hval
    exact hm.ne' hval
  unfold UnpackedFloat.unpack
  simp only [unpackMantissa_packComponents, unpackExponent_packComponents, unpack_sign,
    dif_neg hzero]
  rw [if_neg (by decide), if_pos trivial]
  apply finite_congr
  · exact hmant
  · rfl

theorem unpack_pack {s : Sign} {m : ℕ} {e : ℤ} (hm : 0 < m)
    (hf : Canonical (.finite s m e hm)) (he : e ≤ 104) :
    UnpackedFloat.unpack Format.binary32 (UnpackedFloat.pack Format.binary32 (.finite s m e hm)) =
      .finite s m e hm := by
  obtain ⟨hhigh, hmin, hfull⟩ := hf
  have hdef : UnpackedFloat.pack Format.binary32 (.finite s m e hm) =
      if 256 ≤ (e + 127 + 23).toNat + 1 then packedInfinity Format.binary32 s
      else if m.log2 + 1 = 24 then
        packComponents Format.binary32 s (BitVec.ofNat 8 (e + 127 + 23).toNat) (BitVec.ofNat 23 m)
      else packComponents Format.binary32 s 0#8 (BitVec.ofNat 23 m) := rfl
  rw [hdef, if_neg (by omega)]
  by_cases hlow : 2 ^ 23 ≤ m
  · have hlog : m.log2 + 1 = 24 := by
      have hle := (Nat.le_log2 hm.ne').mpr hlow
      have hlt := (Nat.log2_lt hm.ne').mpr hhigh
      omega
    rw [if_pos hlog, unpack_full s (by omega) (by omega) hm hlow hhigh]
    apply finite_congr
    · rfl
    · omega
  · have hlog : m.log2 + 1 ≠ 24 := by
      have hlt := (Nat.log2_lt hm.ne').mpr (not_le.mp hlow)
      omega
    obtain rfl := hfull.resolve_left hlow
    rw [if_neg hlog]
    exact unpack_subnormal s hm (not_le.mp hlow)

theorem unpack_pack_zero (s : Sign) :
    UnpackedFloat.unpack Format.binary32 (UnpackedFloat.pack Format.binary32 (.zero s)) =
      .zero s := by
  cases s <;> rfl

def number (f : Float32.Model) : Option ℚ := value f.unpack

theorem abs_rounded_le {q : ℚ} (h : |q| ≤ 2 ^ 64) : |rounded q| ≤ 2 ^ 64 := by
  have hmono : Monotone rounded := round_to_mono (by norm_num)
  have hup : rounded ((1 : ℤ) * 2 ^ (64 : ℤ)) = (1 : ℤ) * 2 ^ (64 : ℤ) :=
    round_to_eq_self (by norm_num) (by norm_num)
  have hdown : rounded ((-1 : ℤ) * 2 ^ (64 : ℤ)) = (-1 : ℤ) * 2 ^ (64 : ℤ) :=
    round_to_eq_self (by norm_num) (by norm_num)
  obtain ⟨hlo, hhi⟩ := abs_le.mp h
  apply abs_le.mpr
  constructor
  · calc (-2 ^ 64 : ℚ) = rounded (-2 ^ 64) := by simpa using hdown.symm
      _ ≤ rounded q := hmono hlo
  · calc rounded q ≤ rounded (2 ^ 64) := hmono hhi
      _ = 2 ^ 64 := by simpa using hup

theorem abs_signed (s : Sign) (x : ℚ) : |signed s x| = |x| := by
  cases s
  · exact abs_neg x
  · rfl

theorem number_pack {f : UnpackedFloat} {q : ℚ} (hf : Canonical f) (hq : value f = some q)
    (h : |q| ≤ 2 ^ 64) : number (Float32.Model.pack f) = some q := by
  change value (UnpackedFloat.unpack Format.binary32 (UnpackedFloat.pack Format.binary32 f)) =
    some q
  cases f with
  | infinity s => cases hq
  | notANumber => cases hq
  | zero s =>
    rw [unpack_pack_zero]
    exact hq
  | finite s m e hm =>
    have he : e ≤ 104 := by
      by_contra hlarge
      have hfull : 2 ^ 23 ≤ m := hf.2.2.resolve_right (by omega)
      have hmq : (2 ^ 23 : ℚ) ≤ m := by exact_mod_cast hfull
      have hpow : (2 : ℚ) ^ (64 : ℤ) ≤ 2 ^ e := zpow_le_zpow_right₀ (by norm_num) (by omega)
      have hpos : (0 : ℚ) < m * 2 ^ e := by positivity
      have hlarge : (2 ^ 23 * 2 ^ (64 : ℤ) : ℚ) ≤ m * 2 ^ e :=
        mul_le_mul hmq hpow (by positivity) (by positivity)
      rw [← Option.some_inj.mp hq, abs_signed, abs_of_pos hpos] at h
      exact absurd (hlarge.trans h) (by norm_num)
    rw [unpack_pack hm hf he]
    exact hq

theorem number_rounded {f : UnpackedFloat} {q : ℚ}
    (hf : value f = some (rounded q) ∧ Canonical f) (h : |q| ≤ 2 ^ 64) :
    number (Float32.Model.pack f) = some (rounded q) :=
  number_pack hf.2 hf.1 (abs_rounded_le h)

variable {f g : Float32.Model} {p q : ℚ}

theorem number_of_int {n : ℤ} (h : |n| ≤ 2 ^ 32) :
    number (Float32.Model.ofInt n) = some (rounded n) := by
  have hval := normalize_value n 0 .positive
  rw [zpow_zero, mul_one] at hval
  have hq : |(n : ℚ)| ≤ 2 ^ 32 := by exact_mod_cast h
  exact number_rounded hval (hq.trans (by norm_num))

theorem number_add (hp : number f = some p) (hq : number g = some q) (h : |p + q| ≤ 2 ^ 64) :
    number (f + g) = some (rounded (p + q)) :=
  number_rounded (add_value (unpack_canonical _) (unpack_canonical _) hp hq) h

theorem number_sub (hp : number f = some p) (hq : number g = some q) (h : |p - q| ≤ 2 ^ 64) :
    number (f - g) = some (rounded (p - q)) :=
  number_rounded (sub_value (unpack_canonical _) (unpack_canonical _) hp hq) h

theorem number_mul (hp : number f = some p) (hq : number g = some q) (h : |p * q| ≤ 2 ^ 64) :
    number (f * g) = some (rounded (p * q)) :=
  number_rounded (mul_value (unpack_canonical _) (unpack_canonical _) hp hq) h

theorem number_div (hp : number f = some p) (hq : number g = some q) (hq0 : q ≠ 0)
    (h : |p / q| ≤ 2 ^ 64) : number (f / g) = some (rounded (p / q)) :=
  number_rounded (div_value hp hq hq0) h

theorem number_neg (hp : number f = some p) : number (-f) = some (-p) := by
  change value (UnpackedFloat.unpack Format.binary32
    (UnpackedFloat.pack Format.binary32 f.unpack.neg)) = some (-p)
  have hfits := unpack_fits f.toBits.toBitVec
  have hcan := unpack_canonical f.toBits.toBitVec
  change Fits f.unpack at hfits
  change Canonical f.unpack at hcan
  have hneg := neg_value hp
  cases hf : f.unpack with
  | infinity s => simp [number, hf, value] at hp
  | notANumber => simp [number, hf, value] at hp
  | zero s =>
    rw [hf] at hneg
    change value (UnpackedFloat.unpack Format.binary32
      (UnpackedFloat.pack Format.binary32 (.zero (-s)))) = some (-p)
    rw [unpack_pack_zero]
    exact hneg
  | finite s m e hm =>
    rw [hf] at hneg hfits hcan
    change value (UnpackedFloat.unpack Format.binary32
      (UnpackedFloat.pack Format.binary32 (.finite (-s) m e hm))) = some (-p)
    rw [unpack_pack hm (neg_canonical hcan) hfits]
    exact hneg

theorem number_lt (hp : number f = some p) (hq : number g = some q) :
    Float32.Model.lt f g = true ↔ p < q :=
  lt_value (unpack_canonical _) (unpack_canonical _) hp hq

theorem number_to_int32 (hp : number f = some p) (h : |p| < 2 ^ 31) :
    (0 ≤ p → f.toInt32.toInt = ⌊p⌋) ∧ (p ≤ 0 → f.toInt32.toInt = -⌊-p⌋) := by
  obtain ⟨hlo, hhi⟩ := abs_lt.mp h
  obtain ⟨hpos, hneg⟩ := to_int_value Int32.minValue.toInt Int32.maxValue.toInt hp
  have hclamp : ∀ n : ℤ, -2 ^ 31 ≤ n → n < 2 ^ 31 → (Int32.ofIntClamp n).toInt = n := by
    intro n hmin hmax
    apply Int32.toInt_ofIntClamp
    · exact hmin
    · exact Int.le_of_lt_add_one hmax
  change (0 ≤ p → (Int32.ofIntClamp (f.unpack.toInt _ _)).toInt = ⌊p⌋) ∧
    (p ≤ 0 → (Int32.ofIntClamp (f.unpack.toInt _ _)).toInt = -⌊-p⌋)
  constructor
  · intro hp0
    have hfloor : 0 ≤ ⌊p⌋ := Int.floor_nonneg.mpr hp0
    have hlt : ⌊p⌋ < 2 ^ 31 := Int.floor_lt.mpr (by exact_mod_cast hhi)
    rw [hpos hp0]
    exact hclamp _ (by omega) hlt
  · intro hp0
    have hfloor : 0 ≤ ⌊-p⌋ := Int.floor_nonneg.mpr (neg_nonneg.mpr hp0)
    have hlt : ⌊-p⌋ < 2 ^ 31 := by
      apply Int.floor_lt.mpr
      push_cast
      linarith
    rw [hneg hp0]
    exact hclamp _ (by omega) (by omega)

end FloatModel
