import Mathlib
import Lox.Decimal.Literal
import Lox.Proofs.Decimal.Rounding

/-!
Doubles by their bits, and decimals that are read as them.

A positive finite double is the significand and the exponent that its bits hold.  A decimal literal
is read as the double that the number it writes rounds to, whether that takes one division of exact
doubles or more digits than a double holds.  Nothing that is read has a sign or is no number.
-/

namespace Lox
namespace Decimal

open Float.Model Float.Model.UnpackedFloat

/-! ## Bits -/

def exponentBits (x : Float) : ℕ := x.toBits.toNat / 2 ^ 52 % 2 ^ 11

def fractionBits (x : Float) : ℕ := x.toBits.toNat % 2 ^ 52

/-- The significand of a finite double. -/
def significand (x : Float) : ℕ :=
  if exponentBits x = 0 then fractionBits x else 2 ^ 52 + fractionBits x

/-- The exponent of a finite double, by which its significand is scaled. -/
def exponent (x : Float) : ℤ := (max (exponentBits x) 1 : ℕ) - 1075

/-- Whether a double is a finite number above zero. -/
structure Positive (x : Float) : Prop where
  sign : x.toBits.toNat < 2 ^ 63
  finite : exponentBits x ≠ 2047
  pos : 0 < significand x

instance (x : Float) : Decidable (Positive x) :=
  decidable_of_iff (x.toBits.toNat < 2 ^ 63 ∧ exponentBits x ≠ 2047 ∧ 0 < significand x)
    ⟨fun h => ⟨h.1, h.2.1, h.2.2⟩, fun h => ⟨h.sign, h.finite, h.pos⟩⟩

theorem exponentBits_lt (x : Float) : exponentBits x < 2 ^ 11 := Nat.mod_lt _ (by decide)

theorem fractionBits_lt (x : Float) : fractionBits x < 2 ^ 52 := Nat.mod_lt _ (by decide)

variable {x y : Float}

theorem unpackExponent_toNat :
    (@unpackExponent .binary64 x.toBits.toBitVec).toNat = exponentBits x := by
  simp [unpackExponent, exponentBits, BitVec.extractLsb_toNat, Nat.shiftRight_eq_div_pow]

theorem unpackMantissa_toNat :
    (@unpackMantissa .binary64 x.toBits.toBitVec).toNat = fractionBits x := by
  simp [unpackMantissa, fractionBits, BitVec.extractLsb_toNat]

namespace Positive

theorem canonical (hx : Positive x) : Canonical (significand x) (exponent x) where
  pos := hx.pos
  lt := by
    have := fractionBits_lt x
    unfold significand
    split <;> omega
  least := by
    unfold exponent
    omega
  normal := by
    unfold significand exponent
    split
    · next h => exact .inr (by rw [h]; rfl)
    · exact .inl (Nat.le_add_right _ _)

theorem unpack_eq (hx : Positive x) :
    x.toModel.unpack = .finite .positive (significand x) (exponent x) hx.pos := by
  have hexponent := unpackExponent_toNat (x := x)
  have hfraction := unpackMantissa_toNat (x := x)
  have hsign : @unpackSign .binary64 x.toBits.toBitVec = 0#1 := by
    apply BitVec.eq_of_toNat_eq
    have := hx.sign
    simp [unpackSign, BitVec.extractLsb_toNat, Nat.shiftRight_eq_div_pow]
    omega
  have hfinite : @unpackExponent .binary64 x.toBits.toBitVec ≠ -1#_ := fun h => by
    rw [h] at hexponent
    exact hx.finite hexponent.symm
  have hpos := hx.pos
  show UnpackedFloat.unpack .binary64 x.toBits.toBitVec = _
  unfold UnpackedFloat.unpack
  dsimp only
  rw [hsign, if_neg hfinite]
  by_cases hzero : exponentBits x = 0
  · have hsignificand : significand x = fractionBits x := if_pos hzero
    have hE : @unpackExponent .binary64 x.toBits.toBitVec = 0#_ :=
      BitVec.eq_of_toNat_eq (hexponent.trans hzero)
    have hF : @unpackMantissa .binary64 x.toBits.toBitVec ≠ 0#_ := fun h => by
      rw [hsignificand, ← hfraction, h] at hpos
      exact absurd hpos (Nat.lt_irrefl 0)
    have hexp : exponent x = -1074 := by
      unfold exponent
      rw [hzero]
      rfl
    rw [if_pos hE, dif_neg hF]
    simp only [hsignificand, hexp, hfraction, hexponent, hzero]
    rfl
  · have hsignificand : significand x = 2 ^ 52 + fractionBits x := if_neg hzero
    have hE : @unpackExponent .binary64 x.toBits.toBitVec ≠ 0#_ := fun h => by
      rw [h] at hexponent
      exact hzero hexponent.symm
    have happend (F : BitVec 52) : (1#1 ++ F).toNat = 2 ^ 52 + F.toNat := by
      rw [BitVec.toNat_append, ← Nat.shiftLeft_add_eq_or_of_lt F.isLt]
      rfl
    have hexp : exponent x = (exponentBits x : ℤ) - 1075 := by
      unfold exponent
      omega
    rw [if_neg hE]
    simp only [hsignificand, hexp, happend, hfraction, hexponent]
    rfl

/-- Packing a positive double again gives it back. -/
theorem ofModel_pack (hx : Positive x) :
    Float.ofModel (.pack (.finite .positive (significand x) (exponent x) hx.pos)) = x := by
  rw [← hx.unpack_eq]
  exact x.ofBits_toBits

end Positive

/-! ## Natural numbers and powers of ten -/

variable {m : ℕ} {e : ℤ}

theorem unpack_packComponents {format : Format} {s : Sign} {E : BitVec format.exponentBits}
    {F : BitVec format.mantissaBitsWithoutImplicit} (hfinite : E ≠ -1#_) (hnormal : E ≠ 0#_) :
    UnpackedFloat.unpack format (packComponents format s E F) =
      .finite s (1#1 ++ F).toNat
        ((E.toNat : ℤ) - (format.exponentBias + format.mantissaBitsWithoutImplicit)) (by simp) := by
  unfold UnpackedFloat.unpack
  simp only [unpackExponent_packComponents, unpackMantissa_packComponents,
    unpackSign_packComponents, if_neg hfinite, if_neg hnormal, Sign.ofBitVec_toBitVec]

/-- A double with all its 53 bits survives packing. -/
theorem unpack_pack (hm : 2 ^ 52 ≤ m) (hlt : m < 2 ^ 53) (hleast : -1074 ≤ e) (he : e ≤ 971)
    (hpos : 0 < m) :
    UnpackedFloat.unpack .binary64 (UnpackedFloat.pack .binary64 (.finite .positive m e hpos)) =
      .finite .positive m e hpos := by
  have hlog : m.log2 = 52 := by
    have := (Nat.le_log2 hpos.ne').mpr hm
    have := (Nat.log2_lt hpos.ne').mpr hlt
    omega
  have hbiased : ((e + 1075).toNat : ℤ) = e + 1075 := Int.toNat_of_nonneg (by omega)
  have hover : ¬2 ^ Format.binary64.exponentBits ≤ (e + 1075).toNat + 1 := by
    show ¬2048 ≤ (e + 1075).toNat + 1
    omega
  have hbits : e + (Format.binary64.exponentBias : ℤ) +
      (Format.binary64.mantissaBitsWithoutImplicit : ℤ) = e + 1075 := by
    show e + (1023 : ℤ) + 52 = _
    ring
  have hfull : 52 + 1 = Format.binary64.mantissaBits := rfl
  have hpack : UnpackedFloat.pack .binary64 (.finite .positive m e hpos) =
      packComponents .binary64 .positive (BitVec.ofNat _ (e + 1075).toNat) (BitVec.ofNat _ m) := by
    unfold UnpackedFloat.pack
    dsimp only
    rw [hbits, hlog, if_neg hover, if_pos hfull]
  have hE : (BitVec.ofNat Format.binary64.exponentBits (e + 1075).toNat).toNat = (e + 1075).toNat := by
    rw [BitVec.toNat_ofNat, Nat.mod_eq_of_lt]
    omega
  have hinfinite : BitVec.ofNat Format.binary64.exponentBits (e + 1075).toNat ≠ -1#_ := fun h => by
    rw [h] at hE
    have : (2047 : ℕ) = (e + 1075).toNat := hE
    omega
  have hsmall : BitVec.ofNat Format.binary64.exponentBits (e + 1075).toNat ≠ 0#_ := fun h => by
    rw [h] at hE
    have : (0 : ℕ) = (e + 1075).toNat := hE
    omega
  have hmantissa : (1#1 ++ BitVec.ofNat Format.binary64.mantissaBitsWithoutImplicit m).toNat = m := by
    have happend : (1#1 ++ BitVec.ofNat Format.binary64.mantissaBitsWithoutImplicit m).toNat = 2 ^ 52 + m % 2 ^ 52 := by
      rw [BitVec.toNat_append, ← Nat.shiftLeft_add_eq_or_of_lt (BitVec.isLt _), BitVec.toNat_ofNat]
      rfl
    rw [happend]
    omega
  have hexp : ((e + 1075).toNat : ℤ) -
      ((Format.binary64.exponentBias : ℤ) + (Format.binary64.mantissaBitsWithoutImplicit : ℤ)) =
      e := by
    show ((e + 1075).toNat : ℤ) - (1023 + 52) = e
    omega
  rw [hpack, unpack_packComponents hinfinite hsmall]
  simp only [hE, hexp, hmantissa]

/-- A natural number below `2 ^ 53` is a double without rounding. -/
theorem toFloat_unpack {n : ℕ} (hpos : 0 < n) (hlt : n < 2 ^ 53) :
    ∃ (m : ℕ) (e : ℤ) (hm : 0 < m),
      n.toUInt64.toFloat.toModel.unpack = .finite .positive m e hm ∧ (m : ℚ) * 2 ^ e = n := by
  have hlow : 2 ^ n.log2 ≤ n := Nat.log2_self_le hpos.ne'
  have hhigh : n < 2 ^ (n.log2 + 1) := Nat.lt_log2_self
  have hlog : n.log2 < 53 := (Nat.log2_lt hpos.ne').mpr hlt
  obtain ⟨k, hk⟩ : ∃ k, n.log2 + k = 52 := ⟨52 - n.log2, by omega⟩
  have hcanonical : Canonical (n * 2 ^ k) (-k) := by
    have hge : 2 ^ 52 ≤ n * 2 ^ k := by
      rw [← hk, pow_add]
      exact Nat.mul_le_mul_right _ hlow
    refine ⟨by positivity, ?_, by omega, .inl hge⟩
    calc n * 2 ^ k < 2 ^ (n.log2 + 1) * 2 ^ k := Nat.mul_lt_mul_of_pos_right hhigh (by positivity)
      _ = 2 ^ 53 := by rw [← pow_add]; congr 1; omega
  have hvalue : ((n * 2 ^ k : ℕ) : ℚ) * 2 ^ (-k : ℤ) = n := by
    rw [zpow_neg, zpow_natCast]
    push_cast
    field_simp
  refine ⟨n * 2 ^ k, -k, hcanonical.pos, ?_, hvalue⟩
  have hself : RoundsTo n (n * 2 ^ k) (-k) := by
    rw [← hvalue, RoundsTo, mul_div_assoc, div_self (by positivity), mul_one]
    exact .self _ _
  have hround : roundWithAccuracy .binary64 .positive (n * 2 ^ k) (-k) .exact =
      .finite .positive (n * 2 ^ k) (-k) hcanonical.pos := by
    refine roundWithAccuracy_eq hcanonical hself ?_ ?_
    · show (n : ℚ) / 2 ^ (-k : ℤ) = ((n * 2 ^ k : ℕ) : ℚ)
      rw [div_eq_iff (by positivity), hvalue]
    · rw [targetExponent_eq, hcanonical.targetExponent]
  have hnormalize : UnpackedFloat.normalize .binary64 (n : ℤ) 0 .positive =
      roundWithAccuracy .binary64 .positive (n * 2 ^ k) (-k) .exact := by
    have hcompare : compare (n : ℤ) 0 = .gt := compare_gt_iff_gt.mpr (by exact_mod_cast hpos)
    have htarget : Format.binary64.targetExponent (totalExponent n 0) = -k := by
      rw [targetExponent_eq, totalExponent]
      omega
    have hdecrease : decreaseExponent n 0 (-k) = (n * 2 ^ k, (-k : ℤ)) := by
      have hshift : (0 - -(k : ℤ)).toNat = k := by omega
      rw [decreaseExponent, hshift, Nat.shiftLeft_eq, zero_sub]
    unfold UnpackedFloat.normalize
    rw [hcompare]
    dsimp only
    rw [Int.toNat_natCast, UnpackedFloat.round, htarget, hdecrease]
  have hcast : n.toUInt64.toNat = n := by
    rw [Nat.toUInt64_eq, UInt64.toNat_ofNat', Nat.mod_eq_of_lt (by omega)]
  show UnpackedFloat.unpack .binary64 (UnpackedFloat.pack .binary64
    (UnpackedFloat.normalize .binary64 (n.toUInt64.toNat : ℤ) 0 .positive)) = _
  rw [hcast, hnormalize, hround]
  exact unpack_pack (hcanonical.normal.resolve_right (by omega)) hcanonical.lt (by omega) (by omega) _

theorem powersOfTen_unpack {k : ℕ} (hk : k < Float.exactlyRepresentablePowersOfTen.size) :
    ∃ (m : ℕ) (e : ℤ) (hm : 0 < m),
      Float.exactlyRepresentablePowersOfTen[k].toModel.unpack =
        .finite .positive m e hm ∧ (m : ℚ) * 2 ^ e = 10 ^ k := by
  have htable : ∀ k : Fin 23,
      Positive Float.exactlyRepresentablePowersOfTen[k.val] ∧
        significand Float.exactlyRepresentablePowersOfTen[k.val] *
          2 ^ (exponent Float.exactlyRepresentablePowersOfTen[k.val]).toNat =
        10 ^ k.val * 2 ^ (-exponent Float.exactlyRepresentablePowersOfTen[k.val]).toNat := by
    decide +kernel
  obtain ⟨hpositive, hpower⟩ := htable ⟨k, hk⟩
  refine ⟨_, _, _, hpositive.unpack_eq, ?_⟩
  rw [zpow_eq_div, ← mul_div_assoc, div_eq_iff (by positivity)]
  exact_mod_cast hpower

/-! ## Reading -/

/-- A decimal literal is read as the double that the number it writes rounds to. -/
theorem read_eq (hx : Positive x) {whole fraction : List Char}
    (h : RoundsTo (digitsValue (whole ++ fraction) / 10 ^ fraction.length) (significand x)
      (exponent x)) : read whole fraction = x := by
  unfold read
  generalize digitsValue (whole ++ fraction) = c at h
  generalize fraction.length = k at h
  have hc : 0 < c := by
    have hpos : (0 : ℚ) < c / 10 ^ k := lt_of_lt_of_le (by positivity) (h.least hx.canonical)
    rw [div_pos_iff_of_pos_right (by positivity)] at hpos
    exact_mod_cast hpos
  unfold Float.ofScientific
  split
  · next hfast =>
    obtain ⟨a, f, ha, hunpack, hvalue⟩ := toFloat_unpack hc hfast.1
    obtain ⟨b, g, hb, hunpack', hvalue'⟩ := powersOfTen_unpack (Nat.lt_succ_of_le hfast.2)
    rw [← hvalue, ← hvalue'] at h
    have hdiv := div_eq ha hb hx.canonical h
    rw [← hunpack, ← hunpack'] at hdiv
    rw [if_pos rfl]
    refine Eq.trans ?_ hx.ofModel_pack
    exact congrArg (fun u => Float.ofModel (.pack u)) hdiv
  · rw [if_pos rfl]
    refine Eq.trans ?_ hx.ofModel_pack
    exact congrArg (fun u => Float.ofModel (.pack u)) (ofScientific_eq hc hx.canonical h)

/-! ## No signs -/

/-- Whether this is a number, infinity included, without a sign. -/
def IsUnsigned : UnpackedFloat → Prop
  | .notANumber => False
  | .infinity s | .zero s | .finite s _ _ _ => s = .positive

/-- Whether a double is a number, infinity included, without a sign. -/
def Unsigned (x : Float) : Prop := IsUnsigned x.toModel.unpack

theorem isUnsigned_unpack {E : BitVec Format.binary64.exponentBits}
    {F : BitVec Format.binary64.mantissaBitsWithoutImplicit} (h : E = -1#_ → F = 0#_) :
    IsUnsigned (UnpackedFloat.unpack .binary64 (packComponents .binary64 .positive E F)) := by
  unfold UnpackedFloat.unpack
  simp only [unpackExponent_packComponents, unpackMantissa_packComponents,
    unpackSign_packComponents, Sign.ofBitVec_toBitVec]
  split
  · next hE =>
    rw [if_pos (h hE)]
    rfl
  · split
    · split <;> rfl
    · rfl

namespace IsUnsigned

variable {u : UnpackedFloat}

theorem roundWithAccuracy (n : ℕ) (f : ℤ) (a : Accuracy) :
    IsUnsigned (roundWithAccuracy .binary64 .positive n f a) := by
  unfold UnpackedFloat.roundWithAccuracy
  dsimp only
  split <;> rfl

theorem pack (hu : IsUnsigned u) : Unsigned (Float.ofModel (.pack u)) := by
  show IsUnsigned (UnpackedFloat.unpack .binary64 (UnpackedFloat.pack .binary64 u))
  cases u with
  | notANumber => exact hu.elim
  | infinity s =>
    cases hu
    exact isUnsigned_unpack fun _ => rfl
  | zero s =>
    cases hu
    exact isUnsigned_unpack fun _ => rfl
  | finite s n f hn =>
    cases hu
    unfold UnpackedFloat.pack
    dsimp only
    split
    · exact isUnsigned_unpack fun _ => rfl
    · next hover =>
      split
      · refine isUnsigned_unpack fun h => ?_
        generalize (f + (Format.binary64.exponentBias : ℤ) +
          (Format.binary64.mantissaBitsWithoutImplicit : ℤ)).toNat = b at hover h
        have hlt : b + 1 < 2 ^ 11 := Nat.lt_of_not_le hover
        have hb : b % 2 ^ 11 = 2047 := congrArg BitVec.toNat h
        omega
      · exact isUnsigned_unpack fun h => absurd h (by decide)

theorem div {b : ℕ} {g : ℤ} (hu : IsUnsigned u) (hb : 0 < b) :
    IsUnsigned (UnpackedFloat.div .binary64 u (.finite .positive b g hb)) := by
  cases u with
  | notANumber => exact hu.elim
  | infinity s | zero s =>
    cases hu
    rfl
  | finite s n f hn =>
    cases hu
    exact roundWithAccuracy _ _ _

end IsUnsigned

theorem unsigned_toFloat (n : UInt64) : Unsigned n.toFloat := by
  refine IsUnsigned.pack (u := UnpackedFloat.normalize .binary64 (n.toNat : ℤ) 0 .positive) ?_
  unfold UnpackedFloat.normalize
  split
  · next h => exact absurd (compare_lt_iff_lt.mp h) (by omega)
  · rfl
  · exact IsUnsigned.roundWithAccuracy _ _ _

/-- Whatever a decimal literal is read as has no sign and is a number. -/
theorem unsigned_read (whole fraction : List Char) : Unsigned (read whole fraction) := by
  unfold read Float.ofScientific
  split
  · next hfast =>
    obtain ⟨b, g, hb, hunpack, -⟩ := powersOfTen_unpack (Nat.lt_succ_of_le hfast.2)
    have hdiv := (unsigned_toFloat (digitsValue (whole ++ fraction)).toUInt64).div (g := g) hb
    rw [← hunpack] at hdiv
    rw [if_pos rfl]
    exact hdiv.pack
  · rw [if_pos rfl]
    refine IsUnsigned.pack (u := UnpackedFloat.ofScientific .binary64 _ _) ?_
    unfold UnpackedFloat.ofScientific
    split
    · rfl
    · split
      · rfl
      · split
        · rfl
        · split
          · exact IsUnsigned.roundWithAccuracy _ _ _
          · exact IsUnsigned.div (u := .finite .positive _ 0 _) rfl _

namespace Unsigned

theorem isNaN (h : Unsigned x) : x.isNaN = false := by
  show x.toModel.unpack.isNaN = false
  unfold Unsigned at h
  cases hu : x.toModel.unpack with
  | notANumber =>
    rw [hu] at h
    exact h.elim
  | infinity _ | zero _ | finite _ _ _ _ => rfl

theorem sign (h : Unsigned x) : x.toBits.toNat < 2 ^ 63 := by
  have hsign : Sign.ofBitVec (@unpackSign .binary64 x.toBits.toBitVec) = .positive := by
    have hu : IsUnsigned (UnpackedFloat.unpack .binary64 x.toBits.toBitVec) := h
    unfold UnpackedFloat.unpack at hu
    dsimp only at hu
    split at hu
    · split at hu
      · exact hu
      · exact hu.elim
    · split at hu
      · split at hu <;> exact hu
      · exact hu
  have hbit : @unpackSign .binary64 x.toBits.toBitVec = 0#1 := by
    by_contra hne
    rw [Sign.ofBitVec, if_neg hne] at hsign
    exact Sign.noConfusion hsign
  have hnat := congrArg BitVec.toNat hbit
  have hlt := x.toBits.toNat_lt
  simp [unpackSign, BitVec.extractLsb_toNat, Nat.shiftRight_eq_div_pow] at hnat
  omega

/-- A number without a sign is zero, infinity, or a positive finite double. -/
theorem cases (h : Unsigned x) : x = 0 ∨ x.isInf = true ∨ Positive x := by
  by_cases hfinite : exponentBits x = 2047
  · refine .inr (.inl ?_)
    have hE : @unpackExponent .binary64 x.toBits.toBitVec = -1#_ :=
      BitVec.eq_of_toNat_eq (unpackExponent_toNat.trans hfinite)
    have hu : IsUnsigned (UnpackedFloat.unpack .binary64 x.toBits.toBitVec) := h
    show (UnpackedFloat.unpack .binary64 x.toBits.toBitVec).isInf = true
    unfold UnpackedFloat.unpack at hu ⊢
    dsimp only at hu ⊢
    rw [if_pos hE] at hu ⊢
    split at hu
    · next hF =>
      rw [if_pos hF]
      rfl
    · exact hu.elim
  · by_cases hpos : 0 < significand x
    · exact .inr (.inr ⟨h.sign, hfinite, hpos⟩)
    · have hzero : x.toBits.toNat = 0 := by
        have hsign := h.sign
        unfold significand exponentBits fractionBits at hpos
        split at hpos <;> omega
      exact .inl (Float.toBits_inj.mp (UInt64.toNat_inj.mp hzero))

end Unsigned

end Decimal
end Lox
