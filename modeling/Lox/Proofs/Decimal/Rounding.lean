import Mathlib

/-!
How arithmetic on doubles rounds.

A positive double is a significand times a power of two, in the one form that its format prescribes.
The rational numbers that round to it are an interval, which ends half a unit above it and half a
unit below it, or a quarter where the doubles below lie twice as close.  Division and
multiplication round the exact result: what they compute is the double whose interval the exact
result lies in.
-/

namespace Lox
namespace Decimal

open Float.Model Float.Model.UnpackedFloat

/-- A power with any exponent as a quotient of two with natural ones. -/
theorem zpow_eq_div (b : ℚ) (e : ℤ) : b ^ e = b ^ e.toNat / b ^ (-e).toNat := by
  rcases le_total 0 e with h | h
  · rw [Int.toNat_of_nonpos (by omega : -e ≤ 0), pow_zero, div_one, ← zpow_natCast,
      Int.toNat_of_nonneg h]
  · rw [Int.toNat_of_nonpos h, pow_zero, one_div, ← zpow_natCast,
      Int.toNat_of_nonneg (by omega : 0 ≤ -e), zpow_neg, inv_inv]

/-! ## Doubles and what rounds to them -/

/-- The form of positive doubles: `m * 2 ^ e` with 53 bits, or with fewer at the least exponent. -/
structure Canonical (m : ℕ) (e : ℤ) : Prop where
  pos : 0 < m
  lt : m < 2 ^ 53
  least : -1074 ≤ e
  normal : 2 ^ 52 ≤ m ∨ e = -1074

theorem targetExponent_eq (T : ℤ) :
    Format.binary64.targetExponent T = max (T - 53) (-1074) := by
  have hmin : Format.binary64.minExponent = -1074 := by decide
  have hbits : Format.binary64.mantissaBits = 53 := by decide
  rw [Format.targetExponent, hmin, hbits]
  rfl

/-- The format gives a double the exponent that it has. -/
theorem Canonical.targetExponent {m : ℕ} {e : ℤ} (h : Canonical m e) :
    max (totalExponent m e - 53) (-1074) = e := by
  have hlt := (Nat.log2_lt h.pos.ne').mpr h.lt
  have hleast := h.least
  rw [totalExponent]
  rcases h.normal with hnormal | rfl
  · have hge := (Nat.le_log2 h.pos.ne').mpr hnormal
    omega
  · omega

/-- How far below `m * 2 ^ e` numbers still round to it, in units of `2 ^ e`. -/
def below (m : ℕ) (e : ℤ) : ℚ := if m = 2 ^ 52 ∧ -1074 < e then 1 / 4 else 1 / 2

/-- Whether `x * 2 ^ e` rounds to `m * 2 ^ e`.  Halves round to even. -/
def Near (x : ℚ) (m : ℕ) (e : ℤ) : Prop :=
  if m % 2 = 0 then m - below m e ≤ x ∧ x ≤ m + 1 / 2 else m - below m e < x ∧ x < m + 1 / 2

/-- Whether the number `q` rounds to the double `m * 2 ^ e`. -/
def RoundsTo (q : ℚ) (m : ℕ) (e : ℤ) : Prop := Near (q / 2 ^ e) m e

/-- Whether the natural number that is nearest to `x` is `m`.  Halves round to even. -/
structure Nearest (x : ℚ) (m : ℕ) : Prop where
  low : m - 1 / 2 ≤ x
  high : x ≤ m + 1 / 2
  tie : x = m - 1 / 2 ∨ x = m + 1 / 2 → m % 2 = 0

variable {q x : ℚ} {m n : ℕ} {e t : ℤ}

theorem quarter_le_below (m : ℕ) (e : ℤ) : 1 / 4 ≤ below m e := by
  unfold below
  split <;> norm_num

theorem below_le_half (m : ℕ) (e : ℤ) : below m e ≤ 1 / 2 := by
  unfold below
  split <;> norm_num

namespace Near

theorem low (h : Near x m e) : m - below m e ≤ x := by
  unfold Near at h
  split at h
  · exact h.1
  · exact h.1.le

theorem high (h : Near x m e) : x ≤ m + 1 / 2 := by
  unfold Near at h
  split at h
  · exact h.2
  · exact h.2.le

theorem self (m : ℕ) (e : ℤ) : Near m m e := by
  have hb := quarter_le_below m e
  unfold Near
  split <;> constructor <;> linarith

theorem nearest (h : Near x m e) : Nearest x m where
  low := le_trans (by linarith [below_le_half m e]) h.low
  high := h.high
  tie := by
    intro htie
    by_contra hodd
    unfold Near at h
    rw [if_neg hodd] at h
    have hb := below_le_half m e
    rcases htie with rfl | rfl
    · linarith [h.1]
    · linarith [h.2]

end Near

/-- What lies inside of the interval is in it, whatever happens at the ends. -/
theorem RoundsTo.of_lt (hlow : m - below m e < q / 2 ^ e) (hhigh : q / 2 ^ e < m + 1 / 2) :
    RoundsTo q m e := by
  unfold RoundsTo Near
  split
  · exact ⟨hlow.le, hhigh.le⟩
  · exact ⟨hlow, hhigh⟩

theorem RoundsTo.least (hc : Canonical m e) (h : RoundsTo q m e) : 2 ^ (-1075 : ℤ) ≤ q := by
  have hm : (1 : ℚ) ≤ m := by exact_mod_cast hc.pos
  have hhalf : 1 / 2 ≤ q / 2 ^ e := by linarith [Near.low h, below_le_half m e]
  calc (2 : ℚ) ^ (-1075 : ℤ) = 1 / 2 * 2 ^ (-1074 : ℤ) := by
        rw [show (-1075 : ℤ) = -1 + -1074 from rfl, zpow_add₀ two_ne_zero, zpow_neg_one, one_div]
    _ ≤ 1 / 2 * 2 ^ e :=
      mul_le_mul_of_nonneg_left (zpow_le_zpow_right₀ (by norm_num) hc.least) (by norm_num)
    _ ≤ q := (le_div_iff₀ (by positivity)).mp hhalf

/-- The exponent that a format gives to a number that rounds to a double is that of the double,
unless the number lies below a power of two that it rounds to. -/
theorem RoundsTo.exponent (hc : Canonical m e) (h : RoundsTo q m e) {T : ℤ}
    (ht : t = max (T - 53) (-1074)) (hlt : q < 2 ^ T) (hge : t = -1074 ∨ 2 ^ (T - 1) ≤ q) :
    (t = e ∧ Nearest (q / 2 ^ t) m) ∨
      (t + 1 = e ∧ m = 2 ^ 52 ∧ Nearest (q / 2 ^ t) (2 ^ 53)) := by
  unfold RoundsTo at h
  have hq : q = q / 2 ^ e * 2 ^ e := (div_mul_cancel₀ q (by positivity)).symm
  generalize hx : q / 2 ^ e = x at h hq
  have hpos : (0 : ℚ) < 2 ^ e := by positivity
  have hpow : ∀ a : ℤ, (2 : ℚ) ^ a = 2 ^ (a - e) * 2 ^ e := fun a => by
    rw [← zpow_add₀ two_ne_zero, sub_add_cancel]
  rcases lt_trichotomy t e with hte | rfl | hte
  · -- The number lies below a power of two.
    have hnormal : 2 ^ 52 ≤ m := hc.normal.resolve_right (by omega)
    have hm : (2 : ℚ) ^ 52 ≤ m := by exact_mod_cast hnormal
    have hlow := h.low
    have hlt' : x < 2 ^ (T - e) := by
      rw [hq, hpow T] at hlt
      exact lt_of_mul_lt_mul_right hlt hpos.le
    have hle : (2 : ℚ) ^ (T - e) ≤ 2 ^ (t + 53 - e) := zpow_le_zpow_right₀ (by norm_num) (by omega)
    obtain rfl | hfar : e = t + 1 ∨ t + 53 - e ≤ 51 := by omega
    · have hexp : t + 53 - (t + 1) = (52 : ℕ) := by push_cast; ring
      rw [hexp, zpow_natCast] at hle
      have hm52 : m = 2 ^ 52 := by
        have : (m : ℚ) < (2 ^ 52 + 1 : ℕ) := by
          push_cast
          linarith [below_le_half m (t + 1)]
        have := Nat.cast_lt.mp this
        omega
      refine .inr ⟨rfl, hm52, ?_⟩
      have hdouble : q / 2 ^ t = 2 * x := by
        rw [hq, zpow_add_one₀ two_ne_zero]
        field_simp
      have hbelow : below m (t + 1) = 1 / 4 := if_pos ⟨hm52, by have := hc.least; omega⟩
      rw [hbelow, hm52] at hlow
      rw [hdouble]
      push_cast at hlow
      refine ⟨?_, ?_, fun _ => by norm_num⟩ <;> push_cast <;> linarith
    · have hx51 : x < 2 ^ (51 : ℤ) :=
        hlt'.trans_le (hle.trans (zpow_le_zpow_right₀ (by norm_num) hfar))
      norm_num at hx51
      linarith [below_le_half m e]
  · exact .inl ⟨rfl, by rw [hx]; exact h.nearest⟩
  · have hleast := hc.least
    have hge' := hge.resolve_left (by omega)
    rw [hq, hpow] at hge'
    have hx' : (2 : ℚ) ^ (T - 1 - e) ≤ x := le_of_mul_le_mul_right hge' hpos
    have h53 : (2 : ℚ) ^ (53 : ℤ) ≤ 2 ^ (T - 1 - e) := zpow_le_zpow_right₀ (by norm_num) (by omega)
    have hm : (m : ℚ) + 1 ≤ 2 ^ 53 := by exact_mod_cast hc.lt
    norm_num at h53 hm
    linarith [h.high]

/-! ## Significands and the bits behind them -/

/-- Where `x` lies above `m`, as the residual bits tell. -/
def Located (x : ℚ) (m : ℕ) : Accuracy → Prop
  | .exact => x = m
  | .inexact .lt => m < x ∧ x < m + 1 / 2
  | .inexact .eq => x = m + 1 / 2
  | .inexact .gt => m + 1 / 2 < x ∧ x < m + 1

namespace Located

variable {a : Accuracy} {em : ExtendedMantissa}

theorem low (h : Located x m a) : m ≤ x := by
  rcases a with _ | _ | _ | _ <;> unfold Located at h
  · exact h.ge
  · exact h.1.le
  · linarith
  · linarith [h.1]

theorem high (h : Located x m a) : x < m + 1 := by
  rcases a with _ | _ | _ | _ <;> unfold Located at h
  · linarith
  · linarith [h.2]
  · linarith
  · exact h.2

theorem ofMantissaAndAccuracy (h : Located x m a) :
    Located x (ExtendedMantissa.ofMantissaAndAccuracy m a).mantissa
      (ExtendedMantissa.ofMantissaAndAccuracy m a).accuracy := by
  rcases a with _ | _ | _ | _ <;> exact h

theorem shiftRightOne (h : Located x em.mantissa em.accuracy) :
    Located (x / 2) em.shiftRightOne.mantissa em.shiftRightOne.accuracy := by
  obtain ⟨m, r, s⟩ := em
  have hm : (m : ℚ) = 2 * (m / 2 : ℕ) + (m % 2 : ℕ) := by exact_mod_cast (Nat.div_add_mod m 2).symm
  rcases Nat.mod_two_eq_zero_or_one m with hparity | hparity <;> cases r <;> cases s <;>
    simp [Located, ExtendedMantissa.accuracy, ExtendedMantissa.shiftRightOne, hparity] at h hm ⊢ <;>
    first | linarith | constructor <;> linarith

theorem shiftRight (h : Located x em.mantissa em.accuracy) (k : ℕ) :
    Located (x / 2 ^ k) (em >>> k).mantissa (em >>> k).accuracy := by
  show Located (x / 2 ^ k) (k.repeat ExtendedMantissa.shiftRightOne em).mantissa
    (k.repeat ExtendedMantissa.shiftRightOne em).accuracy
  induction k with
  | zero => simpa [Nat.repeat] using h
  | succ k ih =>
    rw [Nat.repeat, pow_succ, ← div_div]
    exact ih.shiftRightOne

theorem roundedMantissa (h : Located x em.mantissa em.accuracy) (hn : Nearest x n) :
    em.roundedMantissa = n := by
  have hlow : em.mantissa ≤ n := by
    have : (em.mantissa : ℚ) < (n + 1 : ℕ) := by
      push_cast
      linarith [h.low, hn.high]
    exact Nat.lt_add_one_iff.mp (Nat.cast_lt.mp this)
  have hhigh : n ≤ em.mantissa + 1 := by
    have : (n : ℚ) < (em.mantissa + 1 + 1 : ℕ) := by
      push_cast
      linarith [h.high, hn.low]
    exact Nat.lt_add_one_iff.mp (Nat.cast_lt.mp this)
  obtain ⟨m, r, s⟩ := em
  obtain rfl | rfl : n = m ∨ n = m + 1 := by
    dsimp only at hlow hhigh
    omega
  · have htie := hn.tie
    have hle := hn.high
    cases r <;> cases s <;>
      simp [Located, ExtendedMantissa.accuracy, ExtendedMantissa.roundedMantissa,
        Accuracy.roundToNearestEven] at h htie hle ⊢
    · exact htie (.inr (by linarith))
    · linarith [h.1]
  · have htie := hn.tie
    have hge := hn.low
    cases r <;> cases s <;>
      simp [Located, ExtendedMantissa.accuracy, ExtendedMantissa.roundedMantissa,
        Accuracy.roundToNearestEven] at h htie hge ⊢
    · linarith
    · linarith [h.2]
    · have := htie (.inl (by linarith))
      omega

end Located

/-! ## Rounding to the format -/

/-- What is located between the bits of a significand is rounded to the double it rounds to, if
all of the bits that this double has are there. -/
theorem roundWithAccuracy_eq {s : Sign} {a : Accuracy} {n : ℕ} {f : ℤ} (hc : Canonical m e)
    (h : RoundsTo q m e) (hloc : Located (q / 2 ^ f) n a)
    (hf : f ≤ Format.binary64.targetExponent (totalExponent n f)) :
    roundWithAccuracy .binary64 s n f a = .finite s m e hc.pos := by
  have hpos : (0 : ℚ) < 2 ^ f := by positivity
  have hq : q = q / 2 ^ f * 2 ^ f := (div_mul_cancel₀ q hpos.ne').symm
  generalize hT : totalExponent n f = T at hf
  have hTlog : T = (n.log2 + 1 : ℕ) + f := by rw [← hT, totalExponent]; push_cast; ring
  rw [targetExponent_eq] at hf
  generalize ht : max (T - 53) (-1074) = t at hf
  have hlt : q < 2 ^ T := by
    have hn : (n : ℚ) + 1 ≤ 2 ^ (n.log2 + 1) := by exact_mod_cast Nat.lt_log2_self
    rw [hq, hTlog, zpow_add₀ two_ne_zero, zpow_natCast]
    exact mul_lt_mul_of_pos_right (hloc.high.trans_le hn) hpos
  have hge : t = -1074 ∨ 2 ^ (T - 1) ≤ q := by
    obtain rfl | hn := Nat.eq_zero_or_pos n
    · have : T = 1 + f := by rw [hTlog]; rfl
      exact .inl (by omega)
    · have hlog : (2 : ℚ) ^ n.log2 ≤ n := by exact_mod_cast Nat.log2_self_le hn.ne'
      have hexp : T - 1 = (n.log2 : ℕ) + f := by rw [hTlog]; push_cast; ring
      rw [hq, hexp, zpow_add₀ two_ne_zero, zpow_natCast]
      exact .inr (mul_le_mul_of_nonneg_right (hlog.trans hloc.low) hpos.le)
  have hshift : ∀ (k : ℕ) (b : Accuracy) (g : ℤ), shiftToTargetExponent .binary64 k g b =
      ((ExtendedMantissa.ofMantissaAndAccuracy k b) >>>
        (max (totalExponent k g - 53) (-1074) - g).toNat,
        g + (max (totalExponent k g - 53) (-1074) - g).toNat) := fun k b g => by
    rw [shiftToTargetExponent, targetExponent_eq]
    rfl
  have hamount : f + (t - f).toNat = t := by omega
  have hlocated : Located (q / 2 ^ t)
      ((ExtendedMantissa.ofMantissaAndAccuracy n a) >>> (t - f).toNat).mantissa
      ((ExtendedMantissa.ofMantissaAndAccuracy n a) >>> (t - f).toNat).accuracy := by
    have hdiv : q / 2 ^ t = q / 2 ^ f / 2 ^ (t - f).toNat := by
      rw [div_div, ← zpow_natCast, ← zpow_add₀ two_ne_zero, hamount]
    rw [hdiv]
    exact hloc.ofMantissaAndAccuracy.shiftRight _
  unfold roundWithAccuracy
  rw [hshift, hT, ht]
  dsimp only
  rw [hamount, hshift]
  rcases h.exponent hc ht.symm hlt hge with ⟨rfl, hnear⟩ | ⟨rfl, rfl, hnear⟩
  · rw [hlocated.roundedMantissa hnear]
    have hexp : max (totalExponent m t - 53) (-1074) = t := hc.targetExponent
    have hzero : (max (totalExponent m t - 53) (-1074) - t).toNat = 0 := by omega
    rw [hzero]
    simp [ExtendedMantissa.ofMantissaAndAccuracy, HShiftRight.hShiftRight, Nat.repeat, hc.pos.ne']
  · rw [hlocated.roundedMantissa hnear]
    have hlog : totalExponent (2 ^ 53) t = 54 + t := by
      rw [totalExponent, Nat.log2_two_pow]
      push_cast
      ring
    have hone : (max (totalExponent (2 ^ 53) t - 53) (-1074) - t).toNat = 1 := by
      have := hc.least
      omega
    rw [hone]
    rfl

/-! ## Arithmetic -/

theorem targetExponent_ge (T : ℤ) : -1074 ≤ Format.binary64.targetExponent T := by
  rw [targetExponent_eq]
  exact le_max_right _ _

theorem located_div {a b : ℕ} (hb : 0 < b) :
    Located ((a : ℚ) / b) (a / b) (accuracyOfFraction (a % b) b) := by
  have hb' : (0 : ℚ) < b := by exact_mod_cast hb
  have hdiv : (a : ℚ) / b = (a / b : ℕ) + (a % b : ℕ) / b := by
    have hmod : (a : ℚ) = b * (a / b : ℕ) + (a % b : ℕ) := by
      exact_mod_cast (Nat.div_add_mod a b).symm
    rw [div_eq_iff hb'.ne', add_mul, div_mul_cancel₀ _ hb'.ne', mul_comm _ (b : ℚ)]
    exact hmod
  have hlt : ((a % b : ℕ) : ℚ) / b < 1 := by
    rw [div_lt_one hb']
    exact_mod_cast Nat.mod_lt a hb
  rw [hdiv]
  generalize a / b = n
  generalize a % b = r at hlt
  unfold accuracyOfFraction
  split
  · next h => simp [Located, h]
  · next h =>
    have hr : (0 : ℚ) < r / b := div_pos (by exact_mod_cast Nat.pos_of_ne_zero h) hb'
    rcases h : compare (2 * r) b with _ | _ | _
    · have : (r : ℚ) / b < 1 / 2 := by
        have : (2 * r : ℚ) < b := by exact_mod_cast Nat.compare_eq_lt.mp h
        rw [div_lt_div_iff₀ hb' two_pos]
        linarith
      exact ⟨by linarith, by linarith⟩
    · have : (r : ℚ) / b = 1 / 2 := by
        have : (2 * r : ℚ) = b := by exact_mod_cast Nat.compare_eq_eq.mp h
        rw [div_eq_div_iff hb'.ne' two_ne_zero]
        linarith
      show (n : ℚ) + r / b = n + 1 / 2
      rw [this]
    · have : 1 / 2 < (r : ℚ) / b := by
        have : (b : ℚ) < 2 * r := by exact_mod_cast Nat.compare_eq_gt.mp h
        rw [div_lt_div_iff₀ two_pos hb']
        linarith
      exact ⟨by linarith, by linarith⟩

/-- The quotient of two positive doubles is the double that the exact quotient rounds to. -/
theorem div_eq {a b : ℕ} {f g : ℤ} (ha : 0 < a) (hb : 0 < b) (hc : Canonical m e)
    (h : RoundsTo (a * 2 ^ f / (b * 2 ^ g)) m e) :
    UnpackedFloat.div .binary64 (.finite .positive a f ha) (.finite .positive b g hb) =
      .finite .positive m e hc.pos := by
  unfold UnpackedFloat.div divCore
  dsimp only
  generalize hd : totalExponent a f - totalExponent b g = d
  generalize ht : min (f - g) (Format.binary64.targetExponent d) = t
  have hdlog : d = a.log2 - b.log2 + (f - g) := by
    rw [← hd, totalExponent, totalExponent]
    ring
  have hshift : ((f - g - t).toNat : ℤ) = f - g - t := Int.toNat_of_nonneg (by omega)
  generalize (f - g - t).toNat = k at hshift
  have hb' : (b : ℚ) ≠ 0 := by exact_mod_cast hb.ne'
  have hquotient : (a : ℚ) * 2 ^ f / (b * 2 ^ g) / 2 ^ t = (a <<< k : ℕ) / b := by
    have hexp : f = k + g + t := by omega
    rw [Nat.shiftLeft_eq, hexp, zpow_add₀ two_ne_zero, zpow_add₀ two_ne_zero, zpow_natCast]
    push_cast
    field_simp
  have hlocated := located_div (a := a <<< k) hb
  rw [← hquotient] at hlocated
  refine roundWithAccuracy_eq hc h hlocated ?_
  rw [targetExponent_eq] at ht
  rcases le_or_gt t (-1074) with hsmall | hlarge
  · exact hsmall.trans (targetExponent_ge _)
  · -- The quotient has at least 53 bits.
    have hbits : 53 + b.log2 ≤ a.log2 + k := by omega
    have hlow : 2 ^ 52 * b ≤ a <<< k := by
      rw [Nat.shiftLeft_eq]
      calc 2 ^ 52 * b ≤ 2 ^ 52 * 2 ^ (b.log2 + 1) :=
            Nat.mul_le_mul_left _ Nat.lt_log2_self.le
        _ = 2 ^ (53 + b.log2) := by ring
        _ ≤ 2 ^ (a.log2 + k) := Nat.pow_le_pow_right two_pos hbits
        _ = 2 ^ a.log2 * 2 ^ k := pow_add _ _ _
        _ ≤ a * 2 ^ k := Nat.mul_le_mul_right _ (Nat.log2_self_le ha.ne')
    have hlog : 52 ≤ (a <<< k / b).log2 := by
      have hge : 2 ^ 52 ≤ a <<< k / b := (Nat.le_div_iff_mul_le hb).mpr hlow
      exact (Nat.le_log2 (by omega)).mpr hge
    rw [targetExponent_eq, totalExponent]
    omega

/-- No number rounds to two doubles. -/
theorem RoundsTo.unique {m' : ℕ} {e' : ℤ} (hc : Canonical m e) (hc' : Canonical m' e')
    (h : RoundsTo q m e) (h' : RoundsTo q m' e') : m = m' ∧ e = e' := by
  have hq : 0 < q := lt_of_lt_of_le (by positivity) (h.least hc)
  obtain ⟨a, ha⟩ : ∃ a : ℕ, q.num = a := ⟨q.num.toNat, (Int.toNat_of_nonneg (by positivity)).symm⟩
  have hfraction : (a : ℚ) * 2 ^ (0 : ℤ) / (q.den * 2 ^ (0 : ℤ)) = q := by
    rw [zpow_zero, mul_one, mul_one, ← Int.cast_natCast, ← ha, Rat.num_div_den]
  have hpos : 0 < a := by
    have := Rat.num_pos.mpr hq
    omega
  rw [← hfraction] at h h'
  have hsame := (div_eq hpos q.den_pos hc h).symm.trans (div_eq hpos q.den_pos hc' h')
  exact ⟨by injection hsame, by injection hsame⟩

/-- What rounds to a lesser double is less. -/
theorem RoundsTo.lt {q' : ℚ} {m' : ℕ} {e' : ℤ} (hc : Canonical m e) (hc' : Canonical m' e')
    (h : RoundsTo q m e) (h' : RoundsTo q' m' e') (hlt : e < e' ∨ e = e' ∧ m < m') : q < q' := by
  have hpos : (0 : ℚ) < 2 ^ e := by positivity
  have hpos' : (0 : ℚ) < 2 ^ e' := by positivity
  have hhigh : q ≤ (m + 1 / 2) * 2 ^ e := (div_le_iff₀ hpos).mp (Near.high h)
  have hlow : (m' - below m' e') * 2 ^ e' ≤ q' := (le_div_iff₀ hpos').mp (Near.low h')
  have hends : ((m : ℚ) + 1 / 2) * 2 ^ e ≤ (m' - below m' e') * 2 ^ e' := by
    rcases hlt with hlt | ⟨rfl, hlt⟩
    · have hle : (2 : ℚ) * 2 ^ e ≤ 2 ^ e' := by
        rw [mul_comm, ← zpow_add_one₀ two_ne_zero]
        exact zpow_le_zpow_right₀ (by norm_num) (by omega)
      have hm : (m : ℚ) + 1 ≤ 2 ^ 53 := by exact_mod_cast hc.lt
      have hleast := hc.least
      have hm' : 2 ^ 52 - 1 / 4 ≤ (m' : ℚ) - below m' e' := by
        rcases (hc'.normal.resolve_right (by omega)).eq_or_lt with heq | hgt
        · rw [below, if_pos ⟨heq.symm, by omega⟩, ← heq]
          norm_num
        · have : (2 : ℚ) ^ 52 + 1 ≤ m' := by exact_mod_cast hgt
          linarith [below_le_half m' e']
      calc ((m : ℚ) + 1 / 2) * 2 ^ e ≤ (2 ^ 52 - 1 / 4) * (2 * 2 ^ e) := by
            rw [← mul_assoc]
            exact mul_le_mul_of_nonneg_right (by linarith) hpos.le
        _ ≤ (2 ^ 52 - 1 / 4) * 2 ^ e' := mul_le_mul_of_nonneg_left hle (by norm_num)
        _ ≤ (m' - below m' e') * 2 ^ e' := mul_le_mul_of_nonneg_right hm' hpos'.le
    · have : (m : ℚ) + 1 ≤ m' := by exact_mod_cast hlt
      exact mul_le_mul_of_nonneg_right (by linarith [below_le_half m' e]) hpos.le
  refine lt_of_le_of_ne (hhigh.trans (hends.trans hlow)) ?_
  rintro rfl
  obtain ⟨rfl, rfl⟩ := h.unique hc hc' h'
  omega

/-- Decimals with places behind the point are read as the doubles that they round to. -/
theorem ofScientific_eq {c k : ℕ} (hpos : 0 < c) (hc : Canonical m e)
    (h : RoundsTo (c / 10 ^ k) m e) :
    UnpackedFloat.ofScientific .binary64 c (Int.negOfNat k) = .finite .positive m e hc.pos := by
  have hneg : Int.negOfNat k = -(k : ℤ) := Int.negOfNat_eq
  have hsmall : (k : ℤ) ≤ 2 ^ 11 + c.log2 := by
    by_contra hk
    -- The number would be too small to round to a double.
    have hc' : (c : ℚ) < 2 ^ (c.log2 + 1) := by exact_mod_cast Nat.lt_log2_self
    have hten : (2 : ℚ) ^ (3 * k) ≤ 10 ^ k := by
      rw [pow_mul]
      exact pow_le_pow_left₀ (by norm_num) (by norm_num) k
    have hlow := h.least hc
    rw [le_div_iff₀ (by positivity)] at hlow
    have hpow : (2 : ℚ) ^ ((3 * k : ℕ) - 1075 : ℤ) < 2 ^ ((c.log2 + 1 : ℕ) : ℤ) := by
      rw [zpow_sub₀ two_ne_zero, zpow_natCast, zpow_natCast, div_eq_mul_inv, mul_comm,
        ← zpow_neg]
      exact (mul_le_mul_of_nonneg_left hten (by positivity)).trans_lt (hlow.trans_lt hc')
    rw [zpow_lt_zpow_iff_right₀ (by norm_num)] at hpow
    push_cast at hpow
    omega
  have hbits : Format.binary64.exponentBits = 11 := rfl
  unfold UnpackedFloat.ofScientific
  rw [dif_neg hpos.ne', hneg, hbits, if_neg (by omega), if_neg (by omega)]
  split
  · next hk =>
    obtain rfl : k = 0 := by omega
    have hround : roundWithAccuracy .binary64 .positive (c <<< 53 * 10 ^ 0) (-53 + 0) .exact =
        .finite .positive m e hc.pos := by
      refine roundWithAccuracy_eq hc h ?_ ?_
      · show (c : ℚ) / 10 ^ 0 / 2 ^ (-53 + 0 : ℤ) = (c <<< 53 * 10 ^ 0 : ℕ)
        rw [Nat.shiftLeft_eq]
        push_cast
        norm_num
        ring
      · have hlog : 53 ≤ (c <<< 53 * 10 ^ 0).log2 := by
          rw [pow_zero, mul_one, Nat.shiftLeft_eq]
          have hge : 2 ^ 53 ≤ c * 2 ^ 53 := Nat.le_mul_of_pos_left _ hpos
          exact (Nat.le_log2 (by omega)).mpr hge
        rw [targetExponent_eq, totalExponent]
        omega
    exact hround
  · have hk : (-(-(k : ℤ))).toNat = k := by omega
    refine div_eq hpos (Nat.pow_pos (by decide)) hc ?_
    rw [hk]
    simpa using h

end Decimal
end Lox
