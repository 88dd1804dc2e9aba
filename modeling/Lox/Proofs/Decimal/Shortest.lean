import Mathlib
import Lox.Decimal.Shortest
import Lox.Proofs.Decimal.Doubles

/-!
The shortest decimal of a double rounds to it.

The search compares natural numbers that stand for rational ones.  It takes nothing but decimals
that round to the double, and with seventeen digits there always is one: the decimals of so many
digits lie closer together than the ends of the interval.
-/

namespace Lox
namespace Decimal

/-- The interval of the numbers that round to a double. -/
def Rounding.of (x : Float) : Rounding := .ofBits (exponentBits x) (fractionBits x)

variable {x : Float}

/-- A number has as many digits as its size says. -/
theorem length_toDigits {n : ℕ} (hn : 0 < n) :
    ∃ k, (Nat.toDigits 10 n).length = k + 1 ∧ 10 ^ k ≤ n ∧ n < 10 ^ (k + 1) := by
  obtain ⟨k, hk⟩ : ∃ k, (Nat.toDigits 10 n).length = k + 1 :=
    ⟨_, (Nat.succ_pred_eq_of_pos Nat.length_toDigits_pos).symm⟩
  refine ⟨k, hk, ?_, (Nat.length_toDigits_le_iff (by decide) (Nat.succ_pos k)).mp hk.le⟩
  rcases Nat.eq_zero_or_pos k with rfl | hpos
  · exact hn
  · refine Nat.le_of_not_lt fun hlt => ?_
    have := (Nat.length_toDigits_le_iff (b := 10) (by decide) hpos).mpr hlt
    omega

namespace Rounding

variable {r : Rounding} {n a b : ℕ} {place : ℤ}

/-! ## Comparisons -/

/-- The natural numbers that are compared are the rational ones times one positive factor. -/
theorem scales_eq (r : Rounding) (place : ℤ) : ∃ d : ℚ, 0 < d ∧
    ((r.scales place).1 : ℚ) = 10 ^ place * d ∧ ((r.scales place).2 : ℚ) = 2 ^ r.unit * d := by
  refine ⟨10 ^ (-place).toNat * 2 ^ (-r.unit).toNat, by positivity, ?_, ?_⟩
  · rw [zpow_eq_div 10 place]
    simp only [scales, Nat.pow_eq]
    push_cast
    field_simp
  · rw [zpow_eq_div 2 r.unit]
    simp only [scales, Nat.pow_eq]
    push_cast
    field_simp

theorem scales_le : a * (r.scales place).2 ≤ b * (r.scales place).1 ↔
    (a : ℚ) * 2 ^ r.unit ≤ b * 10 ^ place := by
  obtain ⟨d, hd, hscale, hunit⟩ := r.scales_eq place
  rw [← Nat.cast_le (α := ℚ), Nat.cast_mul, Nat.cast_mul, hscale, hunit, ← mul_assoc, ← mul_assoc,
    mul_le_mul_iff_of_pos_right hd]

theorem le_scales : b * (r.scales place).1 ≤ a * (r.scales place).2 ↔
    (b : ℚ) * 10 ^ place ≤ a * 2 ^ r.unit := by
  obtain ⟨d, hd, hscale, hunit⟩ := r.scales_eq place
  rw [← Nat.cast_le (α := ℚ), Nat.cast_mul, Nat.cast_mul, hscale, hunit, ← mul_assoc, ← mul_assoc,
    mul_le_mul_iff_of_pos_right hd]

theorem scales_pos (r : Rounding) (place : ℤ) : 0 < (r.scales place).1 := by
  simp only [scales]
  exact Nat.mul_pos (Nat.pow_pos (by decide)) (Nat.pow_pos (by decide))

theorem unit_of (x : Float) : (of x).unit = exponent x - 2 := by
  show ((max (exponentBits x) 1 : ℕ) : ℤ) - 1077 = exponent x - 2
  unfold exponent
  omega

theorem value_of (x : Float) : (of x).value = 4 * significand x := rfl

theorem closed_of (x : Float) : (of x).closed = decide (significand x % 2 = 0) := rfl

theorem high_of (x : Float) : ((of x).high : ℚ) = 4 * (significand x + 1 / 2) := by
  have hhigh : (of x).high = 4 * significand x + 2 := rfl
  rw [hhigh]
  push_cast
  ring

theorem low_of (hx : Positive x) :
    ((of x).low : ℚ) = 4 * (significand x - below (significand x) (exponent x)) := by
  have hlow : (of x).low =
      4 * significand x - if fractionBits x = 0 ∧ 1 < exponentBits x then 1 else 2 := rfl
  have hpower : (significand x = 2 ^ 52 ∧ -1074 < exponent x) ↔
      (fractionBits x = 0 ∧ 1 < exponentBits x) := by
    have := fractionBits_lt x
    unfold significand exponent
    split <;> omega
  have hpos := hx.pos
  unfold below
  rw [hlow]
  simp only [hpower]
  split <;> rw [Nat.cast_sub (by omega)] <;> push_cast <;> ring

/-- A decimal is in the interval exactly if it rounds to the double. -/
theorem holds_iff (hx : Positive x) : (of x).holds n place = true ↔
    RoundsTo (n * 10 ^ place) (significand x) (exponent x) := by
  have hquarter : (2 : ℚ) ^ (of x).unit = 2 ^ exponent x / 4 := by
    rw [unit_of, zpow_sub₀ two_ne_zero]
    norm_num
  have hpos : (0 : ℚ) < 2 ^ exponent x := by positivity
  have hlow : ((of x).low : ℚ) * 2 ^ (of x).unit =
      (significand x - below (significand x) (exponent x)) * 2 ^ exponent x := by
    rw [low_of hx, hquarter]
    ring
  have hhigh : ((of x).high : ℚ) * 2 ^ (of x).unit =
      (significand x + 1 / 2) * 2 ^ exponent x := by
    rw [high_of, hquarter]
    ring
  unfold holds RoundsTo Near
  dsimp only
  by_cases heven : significand x % 2 = 0
  · have hclosed : (of x).closed = true := (closed_of x).trans (decide_eq_true heven)
    rw [if_pos hclosed, if_pos heven, Bool.and_eq_true, decide_eq_true_eq, decide_eq_true_eq,
      scales_le, le_scales, hlow, hhigh, le_div_iff₀ hpos, div_le_iff₀ hpos]
  · have hclosed : ¬(of x).closed = true := by
      rw [closed_of, decide_eq_true_eq]
      exact heven
    rw [if_neg hclosed, if_neg heven, Bool.and_eq_true, decide_eq_true_eq, decide_eq_true_eq,
      ← not_le, ← not_le, scales_le, le_scales, hlow, hhigh, not_le, not_le, lt_div_iff₀ hpos,
      div_lt_iff₀ hpos]

/-! ## The search -/

theorem holds_of_nearest {m : ℕ} (h : r.nearest? place = some m) : r.holds m place = true := by
  unfold nearest? at h
  dsimp only at h
  split at h
  · next h₁ h₂ =>
    split at h <;> cases h
    · exact h₁
    · exact h₂
  · next h₁ _ =>
    cases h
    exact h₁
  · next _ h₂ =>
    cases h
    exact h₂
  · cases h

theorem floorAt_le (r : Rounding) (place : ℤ) :
    (r.floorAt place : ℚ) * 10 ^ place ≤ r.value * 2 ^ r.unit :=
  le_scales.mp (Nat.div_mul_le_self _ _)

theorem lt_floorAt_succ (r : Rounding) (place : ℤ) :
    (r.value : ℚ) * 2 ^ r.unit < (r.floorAt place + 1 : ℕ) * 10 ^ place := by
  rw [← not_le, ← le_scales, not_le]
  exact (Nat.div_lt_iff_lt_mul (r.scales_pos place)).mp (Nat.lt_succ_self _)

/-- The place of the first digit is not too high. -/
theorem leadingPlace_le (hv : 0 < r.value) :
    (10 : ℚ) ^ r.leadingPlace ≤ r.value * 2 ^ r.unit := by
  have hunit : 0 < (r.scales 0).2 := by
    simp only [scales]
    exact Nat.mul_pos (Nat.pow_pos (by decide)) (Nat.pow_pos (by decide))
  unfold leadingPlace
  dsimp only
  split
  · next hsmall =>
    generalize hn : ((r.scales 0).1 + r.value * (r.scales 0).2 - 1) / (r.value * (r.scales 0).2) -
      1 = n
    generalize hd : (Nat.toDigits 10 n).length = d
    have hlt : n < 10 ^ d := by
      rw [← Nat.length_toDigits_le_iff (by decide) (by rw [← hd]; exact Nat.length_toDigits_pos), hd]
    have hle : 1 * (r.scales 0).1 ≤ (r.value * 10 ^ d) * (r.scales 0).2 := by
      have hpos : 0 < r.value * (r.scales 0).2 := Nat.mul_pos hv hunit
      have hceil := Nat.lt_mul_div_succ ((r.scales 0).1 + r.value * (r.scales 0).2 - 1) hpos
      have hmul : r.value * (r.scales 0).2 *
          (((r.scales 0).1 + r.value * (r.scales 0).2 - 1) / (r.value * (r.scales 0).2) + 1) ≤
          r.value * (r.scales 0).2 * (10 ^ d + 1) := Nat.mul_le_mul_left _ (by omega)
      have hexpand : r.value * (r.scales 0).2 * (10 ^ d + 1) =
          r.value * 10 ^ d * (r.scales 0).2 + r.value * (r.scales 0).2 := by ring
      omega
    have hcompare := le_scales.mp hle
    push_cast at hcompare
    rw [zpow_neg, zpow_natCast, inv_le_iff_one_le_mul₀ (by positivity)]
    linarith
  · next hlarge =>
    generalize hwhole : r.value * (r.scales 0).2 / (r.scales 0).1 = whole at hlarge
    obtain ⟨k, hk, hpower, -⟩ := length_toDigits (Nat.pos_of_ne_zero hlarge)
    have hcompare := floorAt_le r 0
    rw [zpow_zero, mul_one] at hcompare
    rw [hk, Nat.cast_succ, add_sub_cancel_right, zpow_natCast]
    refine le_trans ?_ hcompare
    have hfloor : r.floorAt 0 = whole := hwhole
    rw [hfloor]
    exact_mod_cast hpower

theorem value_eq (x : Float) :
    ((of x).value : ℚ) * 2 ^ (of x).unit = significand x * 2 ^ exponent x := by
  rw [value_of, unit_of, zpow_sub₀ two_ne_zero]
  push_cast
  ring

/-- Seventeen digits suffice: the two decimals around the double are not both too far away. -/
theorem nearest_isSome (hx : Positive x) :
    ((of x).nearest? ((of x).leadingPlace - 16)).isSome = true := by
  by_contra hnone
  have hpos : (0 : ℚ) < 2 ^ exponent x := by positivity
  have hleading : (10 : ℚ) ^ ((of x).leadingPlace - 16) ≤
      significand x / 10 ^ 16 * 2 ^ exponent x := by
    have hle := leadingPlace_le (r := of x) (Nat.mul_pos (by decide) hx.pos)
    rw [value_eq] at hle
    rw [zpow_sub₀ (by norm_num), div_mul_eq_mul_div]
    exact div_le_div_of_nonneg_right hle (by norm_num)
  generalize (of x).leadingPlace - 16 = place at hnone hleading
  have hfloor := floorAt_le (of x) place
  have hceil := lt_floorAt_succ (of x) place
  rw [value_eq] at hfloor hceil
  have houtside : ¬RoundsTo ((of x).floorAt place * 10 ^ place) (significand x) (exponent x) ∧
      ¬RoundsTo (((of x).floorAt place + 1 : ℕ) * 10 ^ place) (significand x) (exponent x) := by
    rw [← holds_iff hx, ← holds_iff hx]
    unfold nearest? at hnone
    dsimp only at hnone
    split at hnone <;> simp_all
  have hlow : (of x).floorAt place * 10 ^ place ≤
      (significand x - below (significand x) (exponent x)) * 2 ^ exponent x := by
    by_contra hgt
    refine houtside.1 (.of_lt ?_ ?_)
    · rwa [lt_div_iff₀ hpos, ← not_le]
    · rw [div_lt_iff₀ hpos]
      linarith
  have hhigh : ((significand x : ℚ) + 1 / 2) * 2 ^ exponent x ≤
      ((of x).floorAt place + 1 : ℕ) * 10 ^ place := by
    by_contra hlt
    refine houtside.2 (.of_lt ?_ ?_)
    · rw [lt_div_iff₀ hpos]
      linarith [mul_le_mul_of_nonneg_right (quarter_le_below (significand x) (exponent x)) hpos.le]
    · rwa [div_lt_iff₀ hpos, ← not_le]
  -- The decimals lie closer together than the ends of the interval.
  have hstep : (1 / 2 + below (significand x) (exponent x)) * 2 ^ exponent x ≤
      significand x / 10 ^ 16 * 2 ^ exponent x := by
    push_cast at hhigh
    linarith
  have hwide := le_of_mul_le_mul_right hstep hpos
  have hlt : (significand x : ℚ) < 2 ^ 53 := by exact_mod_cast hx.canonical.lt
  unfold below at hwide
  split at hwide
  · next hpower =>
    rw [hpower.1] at hwide
    norm_num at hwide
  · norm_num at hwide
    linarith

end Rounding

/-- The shortest decimal of a double is a decimal that rounds to it. -/
theorem shortest_roundsTo (hx : Positive x) :
    RoundsTo ((shortest (.of x)).coefficient * 10 ^ (shortest (.of x)).place) (significand x)
      (exponent x) := by
  unfold shortest
  dsimp only
  generalize hfound : (List.range 17).findSome? (fun further : ℕ =>
    ((Rounding.of x).nearest? ((Rounding.of x).leadingPlace - further)).map
      (Scaled.mk · ((Rounding.of x).leadingPlace - further))) = found
  cases found with
  | none =>
    have hlast := List.findSome?_eq_none_iff.mp hfound 16 (List.mem_range.mpr (by decide))
    rw [Option.map_eq_none_iff] at hlast
    have hsome := Rounding.nearest_isSome hx
    rw [show ((16 : ℕ) : ℤ) = 16 from rfl] at hlast
    rw [hlast] at hsome
    cases hsome
  | some s =>
    obtain ⟨further, -, hs⟩ := List.exists_of_findSome?_eq_some hfound
    obtain ⟨n, hn, rfl⟩ := Option.map_eq_some_iff.mp hs
    exact (Rounding.holds_iff hx).mp (Rounding.holds_of_nearest hn)

end Decimal
end Lox
