import Mathlib
import Lox.Proofs.Decimal.Numerals

/-!
The doubles that are written without an exponent.

Positive doubles are ordered by their exponents, and by their significands where these agree.  The
numbers that round to a greater double are greater, so a bound on a double is a bound on the decimal
that stands for it, and on the place of its first digit.  From a millionth up to a thousand trillion
millions, the text of a double is therefore a literal of the language, and it is read as that
double.
-/

namespace Lox
namespace Decimal

open Float.Model Float.Model.UnpackedFloat

variable {x y : Float} {q : ℚ} {c : ℕ} {place : ℤ}

/-! ## The order of doubles -/

theorem lt_iff_compare : x < y ↔ x.toModel.unpack.compare y.toModel.unpack = some .lt := by
  have hlt : x < y ↔ (x.toModel.unpack.compare y.toModel.unpack == some .lt) = true :=
    decide_eq_true_iff
  rw [hlt, beq_iff_eq]

theorem le_iff_compare :
    x ≤ y ↔ (x.toModel.unpack.compare y.toModel.unpack).any (·.isLE) = true :=
  decide_eq_true_iff

namespace Positive

theorem compare_eq (hx : Positive x) (hy : Positive y) :
    x.toModel.unpack.compare y.toModel.unpack =
      some ((compare (exponent x) (exponent y)).then (compare (significand x) (significand y))) := by
  rw [hx.unpack_eq, hy.unpack_eq]
  rfl

theorem lt_iff (hx : Positive x) (hy : Positive y) : x < y ↔
    exponent x < exponent y ∨ exponent x = exponent y ∧ significand x < significand y := by
  rw [lt_iff_compare, hx.compare_eq hy, Option.some_inj, Ordering.then_eq_lt, compare_lt_iff_lt,
    compare_eq_iff_eq, compare_lt_iff_lt]

theorem lt_or_eq_of_le (hx : Positive x) (hy : Positive y) (h : x ≤ y) : x < y ∨ x = y := by
  have hcompare := le_iff_compare.mp h
  rw [hx.compare_eq hy, Option.any_some] at hcompare
  rcases Ordering.isLE_iff_eq_lt_or_eq_eq.mp hcompare with hlt | heq
  · exact .inl (lt_iff_compare.mpr ((hx.compare_eq hy).trans (congrArg some hlt)))
  · rw [Ordering.then_eq_eq, compare_eq_iff_eq, compare_eq_iff_eq] at heq
    refine .inr ?_
    rw [← hx.ofModel_pack, ← hy.ofModel_pack]
    simp only [heq.1, heq.2]

/-- What stands between two positive doubles is one of them. -/
theorem of_between {z : Float} (hx : Positive x) (hz : Positive z) (hlow : x ≤ y) (hhigh : y < z) :
    Positive y := by
  rw [le_iff_compare, hx.unpack_eq] at hlow
  rw [lt_iff_compare, hz.unpack_eq] at hhigh
  have hunsigned : Unsigned y := by
    unfold Unsigned
    cases hy : y.toModel.unpack with
    | notANumber | zero => rw [hy] at hlow; cases hlow
    | infinity s | finite s =>
      rw [hy] at hlow
      cases s with
      | positive => rfl
      | negative => cases hlow
  rcases hunsigned.cases with rfl | hinf | hy
  · cases hlow
  · have hinf : y.toModel.unpack.isInf = true := hinf
    unfold Unsigned at hunsigned
    cases hy : y.toModel.unpack with
    | infinity s =>
      rw [hy] at hhigh hunsigned
      cases hunsigned
      cases hhigh
    | notANumber | zero | finite =>
      rw [hy] at hinf
      cases hinf
  · exact hy

end Positive

/-! ## The place of the first digit -/

/-- The place of the first digit of a decimal. -/
theorem scaled_bounds (hc : 0 < c) (place : ℤ) :
    (10 : ℚ) ^ (place + (Nat.toDigits 10 c).length - 1) ≤ c * 10 ^ place ∧
      (c : ℚ) * 10 ^ place < 10 ^ (place + (Nat.toDigits 10 c).length - 1 + 1) := by
  obtain ⟨k, hk, hlow, hhigh⟩ := length_toDigits hc
  have hplace : place + (Nat.toDigits 10 c).length - 1 = k + place := by omega
  have hnext : (k : ℤ) + place + 1 = (k + 1 : ℕ) + place := by omega
  rw [hplace, hnext, zpow_add₀ (by norm_num), zpow_add₀ (by norm_num), zpow_natCast, zpow_natCast]
  have hpos : (0 : ℚ) < 10 ^ place := by positivity
  constructor
  · exact mul_le_mul_of_nonneg_right (by exact_mod_cast hlow) hpos.le
  · exact mul_lt_mul_of_pos_right (by exact_mod_cast hhigh) hpos

theorem positive_bounds : Positive 1e-6 ∧ Positive 1e21 := by decide +kernel

/-- From a millionth on, the decimal that stands for a double is no less than a millionth. -/
theorem le_shortest (hx : Positive x) (h : 1e-6 ≤ x) :
    (10 : ℚ) ^ (-6 : ℤ) ≤ (shortest (.of x)).coefficient * 10 ^ (shortest (.of x)).place := by
  rcases positive_bounds.1.lt_or_eq_of_le hx h with hlt | rfl
  · have hround : RoundsTo ((1 : ℕ) * 10 ^ (-6 : ℤ)) (significand 1e-6) (exponent 1e-6) :=
      (Rounding.holds_iff positive_bounds.1).mp (by decide +kernel)
    have := hround.lt positive_bounds.1.canonical hx.canonical (shortest_roundsTo hx)
      ((positive_bounds.1.lt_iff hx).mp hlt)
    rw [Nat.cast_one, one_mul] at this
    exact this.le
  · have hshortest : (shortest (.of 1e-6)).coefficient = 10 ∧ (shortest (.of 1e-6)).place = -7 := by
      decide +kernel
    rw [hshortest.1, hshortest.2]
    norm_num

theorem shortest_lt (hx : Positive x) (h : x < 1e21) :
    ((shortest (.of x)).coefficient : ℚ) * 10 ^ (shortest (.of x)).place < 10 ^ (21 : ℤ) := by
  have hround : RoundsTo ((1 : ℕ) * 10 ^ (21 : ℤ)) (significand 1e21) (exponent 1e21) :=
    (Rounding.holds_iff positive_bounds.2).mp (by decide +kernel)
  have := (shortest_roundsTo hx).lt hx.canonical positive_bounds.2.canonical hround
    ((hx.lt_iff positive_bounds.2).mp h)
  rwa [Nat.cast_one, one_mul] at this

/-- Between these bounds, the text of a double is one of digits with at most one point, and writes
a number that rounds to the double. -/
theorem text_numeral (hlow : 1e-6 ≤ x) (hhigh : x < 1e21) : Positive x ∧
    ∃ q, Numeral (Decimal.text x).toList q ∧ RoundsTo q (significand x) (exponent x) := by
  have hx := positive_bounds.1.of_between positive_bounds.2 hlow hhigh
  obtain ⟨digits, hdigits, hvalue, hlayout⟩ := scaled_eq (coefficient_pos hx)
  obtain ⟨hbelow, habove⟩ := scaled_bounds (coefficient_pos hx) (shortest (.of x)).place
  have hle := (zpow_lt_zpow_iff_right₀ (by norm_num)).mp ((le_shortest hx hlow).trans_lt habove)
  have hlt := (zpow_lt_zpow_iff_right₀ (by norm_num)).mp (hbelow.trans_lt (shortest_lt hx hhigh))
  rw [if_pos ⟨by omega, hlt⟩] at hlayout
  refine ⟨hx, _, ?_, shortest_roundsTo hx⟩
  rw [text_eq hx, hlayout, hvalue]
  exact positional_numeral hdigits _

/-- The text of a double between these bounds is a literal, which is read as the double. -/
theorem text_lexeme (hlow : 1e-6 ≤ x) (hhigh : x < 1e21) :
    Lexeme (.token (.number x)) (Decimal.text x).toList := by
  obtain ⟨hx, q, hnumeral, hround⟩ := text_numeral hlow hhigh
  generalize (Decimal.text x).toList = text at hnumeral
  cases hnumeral with
  | integer hwhole =>
    have hread : read text [] = x := read_eq hx (by
      rwa [List.append_nil, List.length_nil, pow_zero, div_one])
    rw [← hread]
    exact .integer hwhole
  | fraction hwhole hfraction =>
    rw [← read_eq hx hround]
    exact .fraction hwhole hfraction

theorem read_zero : read ['0'] [] = 0 := Float.toBits_inj.mp (by decide +kernel)

theorem text_zero_lexeme : Lexeme (.token (.number 0)) (Decimal.text 0).toList := by
  rw [text_zero, ← read_zero]
  exact .integer (digits_toDigits 0)

end Decimal
end Lox
