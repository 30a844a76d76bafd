import Mathlib
import Protean.Number.Text

/-!
# Proofs — Number — whole numbers are exact

A whole number below 2^53 is a double: its mantissa, shifted until the first of 53 bits is set, times a power
of two (`unpack_ofIndex`).  To count up, to compare and to go back to an index is therefore exact
(`ofIndex_add_one`, `ofIndex_lt`, `toIndex_ofIndex`).  All of it comes from one fact about the rounding of
doubles: it keeps such a number, with whatever exponent the number is written (`round_whole`).

* `fullMantissa`, `biasedExponent`, `wholeParts`: the parts of the double of a whole number.
* `pack_wholeParts`, `unpack_pack_wholeParts`: they are kept when they are packed into 64 bits.
* `add_wholeParts_one`, `compare_whole`: arithmetic on the parts.
* `lt_iff_unpack`, `le_iff_unpack`: comparison of doubles is comparison of their parts.
-/

namespace Protean.Number

open Float.Model Float.Model.UnpackedFloat

variable {j k : Nat}

/-! ### Rounding

A mantissa of 53 bits is not changed by rounding, however it has been shifted. -/

/-- A factor of a power of two is a shift. -/
theorem log2_mul_two_pow {k : Nat} (hk : k ≠ 0) (j : Nat) : (k * 2 ^ j).log2 = k.log2 + j := by
  induction j with
  | zero => simp
  | succ j ih =>
    have hne : k * 2 ^ j ≠ 0 := Nat.mul_ne_zero hk (Nat.two_pow_pos j).ne'
    rw [Nat.pow_succ, ← Nat.mul_assoc, Nat.mul_comm, Nat.log2_two_mul hne, ih, Nat.add_assoc]

/-- Shifting out zeros loses nothing. -/
theorem shiftRight_exact (m d : Nat) :
    ExtendedMantissa.ofMantissaAndAccuracy (m * 2 ^ d) .exact >>> d = ⟨m, false, false⟩ := by
  change Nat.repeat ExtendedMantissa.shiftRightOne d _ = _
  induction d generalizing m with
  | zero => simp [Nat.repeat, ExtendedMantissa.ofMantissaAndAccuracy]
  | succ d ih =>
    rw [Nat.repeat, Nat.pow_succ, Nat.mul_comm (2 ^ d), ← Nat.mul_assoc, ih (m * 2)]
    simp [ExtendedMantissa.shiftRightOne]

/-- The exponent at which a number of `log2 + 1` bits has 53 of them. -/
theorem targetExponent_eq {m : Nat} {e : Int} (he : -1074 ≤ (m.log2 : Int) + e - 52) :
    Format.binary64.targetExponent (totalExponent m e) = m.log2 + e - 52 := by
  rw [Format.targetExponent, totalExponent, Format.minExponent, Format.mantissaBits]
  norm_num
  omega

/-- A mantissa of 53 bits is brought back to these from any shift, without a bit lost. -/
theorem shiftToTargetExponent_exact {m d : Nat} {e : Int} (hm : m.log2 = 52) (he : -1074 ≤ e + d) :
    shiftToTargetExponent Format.binary64 (m * 2 ^ d) e .exact = (⟨m, false, false⟩, e + d) := by
  have hm0 : m ≠ 0 := by rintro rfl; simp at hm
  have ht := targetExponent_eq (m := m * 2 ^ d) (e := e) (by rw [log2_mul_two_pow hm0, hm]; push_cast; omega)
  rw [log2_mul_two_pow hm0, hm] at ht
  have hshift : (((52 + d : Nat) : Int) + e - 52 - e).toNat = d := by omega
  rw [shiftToTargetExponent, ht, shiftToExponent, hshift, shiftRight_exact]

theorem roundWithAccuracy_exact {m d : Nat} {e : Int} (hm : m.log2 = 52) (he : -1074 ≤ e + d) (hpos : 0 < m) :
    roundWithAccuracy Format.binary64 .positive (m * 2 ^ d) e .exact = .finite .positive m (e + d) hpos := by
  have hrounded : (⟨m, false, false⟩ : ExtendedMantissa).roundedMantissa = m := rfl
  have hagain := shiftToTargetExponent_exact (d := 0) (e := e + d) hm (by omega)
  rw [Nat.pow_zero, Nat.mul_one] at hagain
  rw [roundWithAccuracy]
  simp only [shiftToTargetExponent_exact hm he, hrounded, hagain]
  rw [dif_neg hpos.ne']
  simp

/-- A number below 2^53 has no more than 53 bits. -/
theorem log2_le (hk : k ≠ 0) (hlt : k < 2 ^ 53) : k.log2 ≤ 52 :=
  Nat.le_of_lt_succ ((Nat.log2_lt hk).mpr hlt)

/-- The mantissa with which a whole number is stored: 53 bits, the first of which is set. -/
def fullMantissa (k : Nat) : Nat := k * 2 ^ (52 - k.log2)

/-- Shifted until the first of 53 bits is set, it has 53 bits. -/
theorem log2_fullMantissa (hk : k ≠ 0) (hlt : k < 2 ^ 53) : (fullMantissa k).log2 = 52 := by
  rw [fullMantissa, log2_mul_two_pow hk]
  have := log2_le hk hlt
  omega

theorem fullMantissa_pos (hk : k ≠ 0) : 0 < fullMantissa k :=
  Nat.mul_pos (Nat.pos_of_ne_zero hk) (Nat.two_pow_pos _)

/-- The parts of the double that is a whole number. -/
def wholeParts (k : Nat) : UnpackedFloat :=
  if hk : k = 0 then .zero .positive else .finite .positive (fullMantissa k) (k.log2 - 52) (fullMantissa_pos hk)

/-- **Rounding a whole number keeps it**, with whatever exponent it is written. -/
theorem round_whole (hk : k ≠ 0) (hlt : k < 2 ^ 53) (j : Nat) :
    Float.Model.UnpackedFloat.round Format.binary64 .positive (k * 2 ^ j) (-j) = wholeParts k := by
  rw [wholeParts, dif_neg hk]
  have hlog := log2_le hk hlt
  have ht := targetExponent_eq (m := k * 2 ^ j) (e := -j) (by rw [log2_mul_two_pow hk]; push_cast; omega)
  rw [log2_mul_two_pow hk, show ((k.log2 + j : Nat) : Int) + -j - 52 = k.log2 - 52 by push_cast; omega] at ht
  rw [Float.Model.UnpackedFloat.round, ht, decreaseExponent]
  obtain ⟨s, hs⟩ : ∃ s, (-(j : Int) - (k.log2 - 52)).toNat = s := ⟨_, rfl⟩
  rw [hs]
  have hmantissa : (k * 2 ^ j) <<< s = fullMantissa k * 2 ^ (j + s - (52 - k.log2)) := by
    rw [Nat.shiftLeft_eq, fullMantissa, Nat.mul_assoc, Nat.mul_assoc, ← Nat.pow_add, ← Nat.pow_add]
    congr 2
    omega
  simp only [hmantissa]
  rw [roundWithAccuracy_exact (log2_fullMantissa hk hlt) (by omega) (fullMantissa_pos hk)]
  congr 1
  omega

/-! ### Packing

The parts of a double fit into their bits and are read back from them. -/

theorem unpackSign_packComponents (e : BitVec 11) (m : BitVec 52) :
    Sign.ofBitVec (unpackSign (packComponents Format.binary64 .positive e m)) = .positive := by
  simp only [unpackSign, packComponents, BitVec.extractLsb]
  rw [BitVec.extractLsb'_append_eq_of_le (by omega), BitVec.extractLsb'_append_eq_of_le (by omega)]
  rfl

/-- The bits of a double are those of its exponent and those of its mantissa. -/
theorem toNat_packComponents (e : BitVec 11) (m : BitVec 52) :
    (packComponents Format.binary64 .positive e m).toNat = e.toNat * 2 ^ 52 + m.toNat := by
  rw [packComponents, BitVec.toNat_append, BitVec.toNat_append, ← Nat.shiftLeft_add_eq_or_of_lt m.isLt,
    ← Nat.shiftLeft_add_eq_or_of_lt e.isLt, Nat.shiftLeft_eq, Nat.shiftLeft_eq]
  simp [Sign.toBitVec]

/-- The exponent with which a whole number is stored. -/
def biasedExponent (k : Nat) : Nat := k.log2 + 1023

theorem toNat_biasedExponent (hk : k ≠ 0) (hlt : k < 2 ^ 53) :
    (BitVec.ofNat 11 (biasedExponent k)).toNat = biasedExponent k := by
  have hlog := log2_le hk hlt
  rw [BitVec.toNat_ofNat, Nat.mod_eq_of_lt (by rw [biasedExponent]; omega)]

/-- The mantissa is a number of 53 bits. -/
theorem fullMantissa_bounds (hk : k ≠ 0) (hlt : k < 2 ^ 53) :
    2 ^ 52 ≤ fullMantissa k ∧ fullMantissa k < 2 ^ 53 := by
  have hlog := log2_fullMantissa hk hlt
  have hne := (fullMantissa_pos hk).ne'
  exact ⟨(Nat.le_log2 hne).mp hlog.ge, (Nat.log2_lt hne).mp (by omega)⟩

/-- The first bit of the mantissa is left out, the other 52 bits are kept. -/
theorem toNat_fraction (hk : k ≠ 0) (hlt : k < 2 ^ 53) :
    (BitVec.ofNat 52 (fullMantissa k)).toNat = fullMantissa k - 2 ^ 52 := by
  obtain ⟨hle, hlt'⟩ := fullMantissa_bounds hk hlt
  rw [BitVec.toNat_ofNat]
  omega

/-- The parts of a whole number are packed as a normal number. -/
theorem pack_wholeParts (hk : k ≠ 0) (hlt : k < 2 ^ 53) :
    UnpackedFloat.pack Format.binary64 (wholeParts k) =
      packComponents Format.binary64 .positive (BitVec.ofNat _ (biasedExponent k))
        (BitVec.ofNat _ (fullMantissa k)) := by
  rw [wholeParts, dif_neg hk]
  have hlog := log2_le hk hlt
  have hbiased : (((k.log2 : Int) - 52) + Format.binary64.exponentBias + 52).toNat = biasedExponent k := by
    simp [Format.exponentBias, biasedExponent]
    omega
  rw [UnpackedFloat.pack]
  simp only [Nat.cast_ofNat, hbiased]
  rw [if_neg (by simp [biasedExponent]; omega), if_pos (by rw [log2_fullMantissa hk hlt]; rfl)]

theorem unpack_pack_wholeParts (hk : k ≠ 0) (hlt : k < 2 ^ 53) :
    UnpackedFloat.unpack Format.binary64 (UnpackedFloat.pack Format.binary64 (wholeParts k)) =
      wholeParts k := by
  have hlog := log2_le hk hlt
  have hbiased := toNat_biasedExponent hk hlt
  have hones : BitVec.ofNat 11 (biasedExponent k) ≠ -1#11 := fun h => by
    have := congrArg BitVec.toNat h
    rw [hbiased, biasedExponent] at this
    simp at this
    omega
  have hzero : BitVec.ofNat 11 (biasedExponent k) ≠ 0#11 := fun h => by
    have := congrArg BitVec.toNat h
    rw [hbiased, biasedExponent] at this
    simp at this
  have hmantissa : (1#1 ++ BitVec.ofNat 52 (fullMantissa k)).toNat = fullMantissa k := by
    rw [BitVec.toNat_append, ← Nat.shiftLeft_add_eq_or_of_lt (BitVec.isLt _), toNat_fraction hk hlt]
    have := fullMantissa_bounds hk hlt
    simp [Nat.shiftLeft_eq]
    omega
  have hexponent : (biasedExponent k : Int) - ((Format.binary64.exponentBias : Nat) + 52) = k.log2 - 52 := by
    simp [biasedExponent, Format.exponentBias]
    omega
  rw [pack_wholeParts hk hlt, wholeParts, dif_neg hk, UnpackedFloat.unpack]
  simp only [unpackMantissa_packComponents, unpackExponent_packComponents, unpackSign_packComponents]
  rw [if_neg hones, if_neg hzero]
  simp only [hmantissa, hbiased, hexponent, Nat.cast_ofNat]

/-! ### Whole numbers as doubles

Arithmetic, comparison and conversion, by the parts. -/

/-- The double of an index is made of its parts. -/
theorem toModel_ofIndex (hlt : k < 2 ^ 53) :
    (ofIndex k).toModel = Float.Model.pack (wholeParts k) := by
  have hk64 : (UInt64.ofNat k).toNat = k := UInt64.toNat_ofNat_of_lt (by rw [UInt64.size]; omega)
  change Float.Model.pack (UnpackedFloat.ofUInt64 Format.binary64 (UInt64.ofNat k)) = _
  rw [UnpackedFloat.ofUInt64, hk64, UnpackedFloat.ofNat, UnpackedFloat.ofInt, UnpackedFloat.normalize]
  by_cases hk : k = 0
  · subst hk
    rfl
  · have hcompare : compare (k : Int) 0 = .gt := Int.compare_eq_gt.mpr (by omega)
    have hround := round_whole hk hlt 0
    rw [Nat.pow_zero, Nat.mul_one] at hround
    rw [hcompare]
    exact congrArg _ hround

theorem unpack_ofIndex (hlt : k < 2 ^ 53) : (ofIndex k).toModel.unpack = wholeParts k := by
  rw [toModel_ofIndex hlt, Float.Model.unpack, Float.Model.pack]
  by_cases hk : k = 0
  · subst hk
    rfl
  · exact unpack_pack_wholeParts hk hlt

/-- Positive numbers are added by the smaller of their exponents. -/
theorem add_positive {m₁ m₂ : Nat} {e₁ e₂ : Int} (h₁ : 0 < m₁) (h₂ : 0 < m₂) :
    UnpackedFloat.add Format.binary64 (.finite .positive m₁ e₁ h₁) (.finite .positive m₂ e₂ h₂) =
      UnpackedFloat.normalize Format.binary64
        (((m₁ <<< (e₁ - min e₁ e₂).toNat : Nat) : Int) + ((m₂ <<< (e₂ - min e₁ e₂).toNat : Nat) : Int))
        (min e₁ e₂) .positive := rfl

theorem add_wholeParts_one (hlt : k + 1 < 2 ^ 53) :
    UnpackedFloat.add Format.binary64 (wholeParts k) (wholeParts 1) = wholeParts (k + 1) := by
  by_cases hk : k = 0
  · subst hk
    rfl
  have hlog := log2_le hk (by omega)
  have hone : Nat.log2 1 = 0 := rfl
  rw [wholeParts, dif_neg hk, wholeParts, dif_neg Nat.one_ne_zero, add_positive, hone]
  have hmin : min ((k.log2 : Int) - 52) (((0 : Nat) : Int) - 52) = -((52 : Nat) : Int) := by omega
  -- both summands in units of the last bit of 1
  have hleft : fullMantissa k <<< ((k.log2 : Int) - 52 - -((52 : Nat) : Int)).toNat = k * 2 ^ 52 := by
    rw [Nat.shiftLeft_eq, fullMantissa, Nat.mul_assoc, ← Nat.pow_add]
    congr 2
    omega
  have hright : fullMantissa 1 <<< (((0 : Nat) : Int) - 52 - -((52 : Nat) : Int)).toNat = 2 ^ 52 := rfl
  have hsum : ((k * 2 ^ 52 : Nat) : Int) + ((2 ^ 52 : Nat) : Int) = ((k + 1) * 2 ^ 52 : Nat) := by
    push_cast
    ring
  have hcompare : compare (((k + 1) * 2 ^ 52 : Nat) : Int) 0 = .gt := Int.compare_eq_gt.mpr (by omega)
  rw [hmin, hleft, hright, hsum, UnpackedFloat.normalize, hcompare]
  exact round_whole k.succ_ne_zero hlt 52

/-- **Counting is exact.** -/
theorem ofIndex_add_one (hlt : k < 2 ^ 53) : ofIndex k + 1 = ofIndex (k + 1) := by
  obtain hlt' | rfl : k + 1 < 2 ^ 53 ∨ k = 2 ^ 53 - 1 := by omega
  · have hone : (1 : Float).toModel.unpack = wholeParts 1 := rfl
    have hmodel : (ofIndex k + 1).toModel = (ofIndex (k + 1)).toModel := by
      change Float.Model.pack (UnpackedFloat.add Format.binary64 (ofIndex k).toModel.unpack
        (1 : Float).toModel.unpack) = _
      rw [unpack_ofIndex hlt, hone, add_wholeParts_one hlt', toModel_ofIndex hlt']
    exact congrArg Float.ofModel hmodel
  · -- the first number of 54 bits, which is a power of two
    exact congrArg Float.ofModel (show Float.Model.pack _ = _ by decide +kernel)

theorem lt_of_log2_lt (hj : j ≠ 0) (hk : k ≠ 0) (hlog : j.log2 < k.log2) : j < k :=
  ((Nat.log2_lt hj).mp hlog).trans_le ((Nat.le_log2 hk).mp le_rfl)

/-- A positive factor does not change which number is larger. -/
theorem compare_mul_right {c : Nat} (hc : 0 < c) : compare (j * c) (k * c) = compare j k := by
  rcases Nat.lt_trichotomy j k with h | h | h
  · rw [Nat.compare_eq_lt.mpr h, Nat.compare_eq_lt.mpr (Nat.mul_lt_mul_of_pos_right h hc)]
  · rw [h, Nat.compare_eq_eq.mpr rfl, Nat.compare_eq_eq.mpr rfl]
  · rw [Nat.compare_eq_gt.mpr h, Nat.compare_eq_gt.mpr (Nat.mul_lt_mul_of_pos_right h hc)]

/-- Doubles of whole numbers compare as the numbers do: by their exponents, which are their numbers of bits, and
where these are the same by their mantissas, which are shifted by the same number of bits. -/
theorem compare_whole (hj : j < 2 ^ 53) (hk : k < 2 ^ 53) :
    (wholeParts j).compare (wholeParts k) = some (compare j k) := by
  by_cases hj0 : j = 0 <;> by_cases hk0 : k = 0
  · subst hj0 hk0
    rfl
  · subst hj0
    rw [wholeParts, dif_pos rfl, wholeParts, dif_neg hk0, Nat.compare_eq_lt.mpr (Nat.pos_of_ne_zero hk0)]
    rfl
  · subst hk0
    rw [wholeParts, dif_neg hj0, wholeParts, dif_pos rfl, Nat.compare_eq_gt.mpr (Nat.pos_of_ne_zero hj0)]
    rfl
  · rw [wholeParts, dif_neg hj0, wholeParts, dif_neg hk0, UnpackedFloat.compare]
    congr 1
    rcases Nat.lt_trichotomy j.log2 k.log2 with hlog | hlog | hlog
    · rw [Int.compare_eq_lt.mpr (by omega), Nat.compare_eq_lt.mpr (lt_of_log2_lt hj0 hk0 hlog)]
      rfl
    · rw [hlog, Int.compare_eq_eq.mpr rfl, fullMantissa, fullMantissa, hlog]
      exact compare_mul_right (Nat.two_pow_pos _)
    · rw [Int.compare_eq_gt.mpr (by omega), Nat.compare_eq_gt.mpr (lt_of_log2_lt hk0 hj0 hlog)]
      rfl

theorem lt_iff_unpack (x y : Float) :
    x < y ↔ (x.toModel.unpack.compare y.toModel.unpack == some .lt) = true := by
  change decide ((_ == some Ordering.lt) = true) = true ↔ _
  rw [decide_eq_true_iff]

theorem le_iff_unpack (x y : Float) :
    x ≤ y ↔ ((x.toModel.unpack.compare y.toModel.unpack).any (·.isLE)) = true := by
  change decide (Option.any _ _ = true) = true ↔ _
  rw [decide_eq_true_iff]

/-- Doubles of whole numbers are in the order of the numbers. -/
theorem ofIndex_lt (hj : j < 2 ^ 53) (hk : k < 2 ^ 53) : ofIndex j < ofIndex k ↔ j < k := by
  rw [lt_iff_unpack, unpack_ofIndex hj, unpack_ofIndex hk, compare_whole hj hk, beq_iff_eq, Option.some_inj,
    Nat.compare_eq_lt]

theorem zero_le_ofIndex (hlt : k < 2 ^ 53) : 0 ≤ ofIndex k := by
  have hzero : (0 : Float).toModel.unpack = wholeParts 0 := rfl
  rw [le_iff_unpack, hzero, unpack_ofIndex hlt, compare_whole (by omega) hlt, Option.any_some, Nat.isLE_compare]
  exact k.zero_le

/-- An index is read back from its double. -/
theorem toIndex_ofIndex (hlt : k < 2 ^ 53) : toIndex (ofIndex k) = k := by
  change (UInt64.ofNatClamp ((ofIndex k).toModel.unpack.toInt 0 (UInt64.size - 1)).toNat).toNat = k
  have hint : (wholeParts k).toInt 0 (UInt64.size - 1) = k := by
    by_cases hk : k = 0
    · subst hk
      rfl
    · have hlog := log2_le hk hlt
      have hnone : ((k.log2 : Int) - 52 - 0).toNat = 0 := by omega
      have hshift : (0 - ((k.log2 : Int) - 52 - ((0 : Nat) : Int))).toNat = 52 - k.log2 := by omega
      rw [wholeParts, dif_neg hk, UnpackedFloat.toInt, roundToInt, decreaseExponent]
      simp only [hnone, Nat.shiftLeft_zero]
      unfold shiftToExponent
      simp only [hshift]
      rw [fullMantissa, shiftRight_exact]
      rfl
  rw [unpack_ofIndex hlt, hint, Int.toNat_natCast, UInt64.toNat_ofNatClamp_of_lt (by rw [UInt64.size]; omega)]

/-- The bits of the double of a whole number, as a number. -/
theorem toBits_ofIndex (hk : k ≠ 0) (hlt : k < 2 ^ 53) :
    (ofIndex k).toBits.toNat = biasedExponent k * 2 ^ 52 + (fullMantissa k - 2 ^ 52) := by
  change (ofIndex k).toModel.toBits.toNat = _
  rw [toModel_ofIndex hlt]
  change (UnpackedFloat.pack Format.binary64 _).toNat = _
  rw [pack_wholeParts hk hlt, toNat_packComponents, toNat_fraction hk hlt]
  change (BitVec.ofNat 11 (biasedExponent k)).toNat * _ + _ = _
  rw [toNat_biasedExponent hk hlt]

theorem ofFloat?_ofIndex (hk : k ≠ 0) (hlt : k < 2 ^ 53) :
    Binary.ofFloat? (ofIndex k) = some ⟨false, fullMantissa k, (k.log2 : Int) - 52⟩ := by
  obtain ⟨hle, hlt'⟩ := fullMantissa_bounds hk hlt
  have hlog := log2_le hk hlt
  have hbiased : biasedExponent k = k.log2 + 1023 := rfl
  have h52 : twoTo 52 = 2 ^ 52 := rfl
  have h11 : twoTo 11 = 2 ^ 11 := rfl
  have h63 : twoTo 63 = 2 ^ 63 := rfl
  have hexponent : (biasedExponent k * 2 ^ 52 + (fullMantissa k - 2 ^ 52)) / 2 ^ 52 % 2 ^ 11 =
      biasedExponent k := by omega
  have hfraction : (biasedExponent k * 2 ^ 52 + (fullMantissa k - 2 ^ 52)) % 2 ^ 52 =
      fullMantissa k - 2 ^ 52 := by omega
  have hpositive : decide (2 ^ 63 ≤ biasedExponent k * 2 ^ 52 + (fullMantissa k - 2 ^ 52)) = false := by
    rw [decide_eq_false_iff_not]
    omega
  have hscale : (biasedExponent k : Int) - 1075 = k.log2 - 52 := by omega
  have hfinite : biasedExponent k ≠ 2 ^ 11 - 1 := by omega
  have hnormal : biasedExponent k ≠ 0 := by omega
  simp only [Binary.ofFloat?, toBits_ofIndex hk hlt, h52, h11, h63, hexponent, hfraction, hpositive]
  rw [if_neg hfinite, if_neg hnormal, Nat.sub_add_cancel hle, hscale]

/-- The double of a whole number is recognised as whole. -/
theorem isWhole_ofIndex (hlt : k < 2 ^ 53) : isWhole (ofIndex k) = true := by
  by_cases hk : k = 0
  · subst hk
    decide +kernel
  have hlog := log2_le hk hlt
  have hwhole : (⟨false, fullMantissa k, (k.log2 : Int) - 52⟩ : Binary).whole.2 = 0 := by
    rw [Binary.whole]
    split
    · rfl
    · change k * 2 ^ (52 - k.log2) % 2 ^ (-((k.log2 : Int) - 52)).toNat = 0
      rw [show (-((k.log2 : Int) - 52)).toNat = 52 - k.log2 by omega, Nat.mul_mod_left]
  rw [isWhole, ofFloat?_ofIndex hk hlt]
  exact beq_iff_eq.mpr hwhole

end Protean.Number
