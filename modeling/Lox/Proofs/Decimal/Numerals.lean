import Mathlib
import Lox.Decimal.Text
import Lox.Proofs.Decimal.Shortest
import Lox.Proofs.Source.Lexemes

/-!
The numbers that texts of doubles write.

A text writes a rational number in digits with at most one point, perhaps scaled by a power of ten.
It writes no more than one, and the text of a positive double writes one that rounds to it.  So
different doubles have different texts.
-/

namespace Lox

/-- A text can be cut in one way only such that `p` holds up to the cut and not behind it. -/
theorem append_inj_of_boundary {α : Type} {p : α → Bool} {a b a' b' : List α}
    (ha : ∀ x ∈ a, p x = true) (ha' : ∀ x ∈ a', p x = true) (hb : ∀ x ∈ b.head?, p x = false)
    (hb' : ∀ x ∈ b'.head?, p x = false) (h : a ++ b = a' ++ b') : a = a' ∧ b = b' := by
  have htake {a b : List α} (ha : ∀ x ∈ a, p x = true) (hb : ∀ x ∈ b.head?, p x = false) :
      (a ++ b).takeWhile p = a := by
    rw [List.takeWhile_append_of_pos ha]
    cases b with
    | nil => rw [List.takeWhile_nil, List.append_nil]
    | cons x b =>
      rw [List.takeWhile_cons_of_neg (by simpa using hb x rfl), List.append_nil]
  have hsame : a = a' := by rw [← htake ha hb, h, htake ha' hb']
  subst hsame
  exact ⟨rfl, List.append_cancel_left h⟩

namespace Decimal

/-! ## Texts and numbers -/

theorem append_cons_inj {c : Char} {a b a' b' : List Char} (ha : c ∉ a) (ha' : c ∉ a')
    (h : a ++ c :: b = a' ++ c :: b') : a = a' ∧ b = b' := by
  have hne {a : List Char} (ha : c ∉ a) : ∀ x ∈ a, (x != c) = true := fun x hx =>
    bne_iff_ne.mpr (ne_of_mem_of_not_mem hx ha)
  have hstop {b : List Char} : ∀ x ∈ (c :: b).head?, (x != c) = false := by
    rintro x ⟨⟩
    exact bne_self_eq_false c
  obtain ⟨hsame, hrest⟩ := append_inj_of_boundary (hne ha) (hne ha') hstop hstop h
  exact ⟨hsame, List.tail_eq_of_cons_eq hrest⟩

/-- Whether a text of digits with at most one point writes a number. -/
inductive Numeral : List Char → ℚ → Prop
  | integer {whole : List Char} : Digits whole → Numeral whole (digitsValue whole)
  | fraction {whole fraction : List Char} : Digits whole → Digits fraction →
      Numeral (whole ++ '.' :: fraction) (digitsValue (whole ++ fraction) / 10 ^ fraction.length)

/-- Whether a text writes a number, with an exponent or without. -/
inductive Writes : List Char → ℚ → Prop
  | positional {text : List Char} {q : ℚ} : Numeral text q → Writes text q
  | raised {text digits : List Char} {q : ℚ} : Numeral text q → Digits digits →
      Writes (text ++ 'e' :: '+' :: digits) (q * 10 ^ digitsValue digits)
  | lowered {text digits : List Char} {q : ℚ} : Numeral text q → Digits digits →
      Writes (text ++ 'e' :: '-' :: digits) (q / 10 ^ digitsValue digits)

variable {text digits : List Char} {q q' : ℚ} {c : Char} {n w : ℕ}

theorem Digits.not_mem (h : Digits text) (hc : ¬IsDigit c) : c ∉ text := fun hmem => hc (h.2 c hmem)

namespace Numeral

theorem mem (h : Numeral text q) (hc : c ∈ text) : IsDigit c ∨ c = '.' := by
  cases h with
  | integer hw => exact .inl (hw.2 c hc)
  | fraction hw hf =>
    rcases List.mem_append.mp hc with hc | hc
    · exact .inl (hw.2 c hc)
    · rcases List.mem_cons.mp hc with rfl | hc
      · exact .inr rfl
      · exact .inl (hf.2 c hc)

theorem not_mem_mark (h : Numeral text q) : 'e' ∉ text := fun hmem => by
  rcases h.mem hmem with hdigit | heq
  · exact absurd hdigit (by unfold IsDigit; decide)
  · exact absurd heq (by decide)

theorem starts (h : Numeral text q) : ∃ c rest, text = c :: rest ∧ IsDigit c := by
  have hwhole {whole : List Char} (hw : Digits whole) (rest : List Char) :
      ∃ c more, whole ++ rest = c :: more ∧ IsDigit c := by
    obtain ⟨hne, hdigits⟩ := hw
    cases whole with
    | nil => exact absurd rfl hne
    | cons c more => exact ⟨c, more ++ rest, rfl, hdigits c List.mem_cons_self⟩
  cases h with
  | integer hw =>
    have := hwhole hw []
    rwa [List.append_nil] at this
  | fraction hw _ => exact hwhole hw _

theorem unique (h : Numeral text q) (h' : Numeral text q') : q = q' := by
  have hpoint {whole : List Char} (hw : Digits whole) : '.' ∉ whole :=
    Digits.not_mem hw (by unfold IsDigit; decide)
  generalize htext : text = text' at h'
  cases h with
  | integer hw =>
    cases h' with
    | integer _ => rw [htext]
    | fraction _ _ => exact absurd (by rw [htext]; simp) (hpoint hw)
  | fraction hw _ =>
    cases h' with
    | integer hw' => exact absurd (by rw [← htext]; simp) (hpoint hw')
    | fraction hw' _ =>
      obtain ⟨rfl, rfl⟩ := append_cons_inj (hpoint hw) (hpoint hw') htext
      rfl

end Numeral

namespace Writes

theorem mem (h : Writes text q) (hc : c ∈ text) : IsDigit c ∨ c ∈ ['.', 'e', '+', '-'] := by
  have hnumeral {text : List Char} {q : ℚ} (h : Numeral text q) (hc : c ∈ text) :
      IsDigit c ∨ c ∈ ['.', 'e', '+', '-'] :=
    (h.mem hc).imp_right fun heq => by simp [heq]
  cases h with
  | positional h => exact hnumeral h hc
  | raised h hd | lowered h hd =>
    rcases List.mem_append.mp hc with hc | hc
    · exact hnumeral h hc
    · simp only [List.mem_cons] at hc
      rcases hc with rfl | rfl | hc
      · exact .inr (by decide)
      · exact .inr (by decide)
      · exact .inl (hd.2 c hc)

theorem starts (h : Writes text q) : ∃ c rest, text = c :: rest ∧ IsDigit c := by
  cases h with
  | positional h => exact h.starts
  | raised h _ | lowered h _ =>
    obtain ⟨c, rest, rfl, hc⟩ := h.starts
    exact ⟨c, _, List.cons_append .., hc⟩

/-- A text writes one number at most. -/
theorem unique (h : Writes text q) (h' : Writes text q') : q = q' := by
  generalize htext : text = text' at h'
  cases h with
  | positional h =>
    cases h' with
    | positional h' =>
      subst htext
      exact h.unique h'
    | raised h' _ | lowered h' _ => exact absurd (by rw [htext]; simp) h.not_mem_mark
  | raised h _ | lowered h _ =>
    cases h' with
    | positional h' => exact absurd (by rw [← htext]; simp) h'.not_mem_mark
    | raised h' _ | lowered h' _ =>
      obtain ⟨rfl, hexponent⟩ := append_cons_inj h.not_mem_mark h'.not_mem_mark htext
      rw [List.cons.injEq] at hexponent
      first
        | exact absurd hexponent.1 (by decide)
        | rw [h.unique h', hexponent.2]

end Writes

/-! ## What layouts write -/

theorem digitsValue_append (a b : List Char) :
    digitsValue (a ++ b) = 10 ^ b.length * digitsValue a + digitsValue b :=
  (Nat.ofDigitChars_append 0).trans Nat.ofDigitChars_eq_ofDigitChars_zero

theorem digitsValue_zeros (k : ℕ) : digitsValue (List.replicate k '0') = 0 :=
  Nat.ofDigitChars_replicate_zero.trans (Nat.mul_zero _)

theorem digitsValue_toDigits (n : ℕ) : digitsValue (Nat.toDigits 10 n) = n :=
  Nat.ofDigitChars_ten_toDigits

theorem digits_toDigits (n : ℕ) : Digits (Nat.toDigits 10 n) :=
  ⟨Nat.toDigits_ne_nil, fun _ hc =>
    isDigit_iff.mp (Nat.isDigit_of_mem_toDigits (by decide) (by decide) hc)⟩

theorem isDigit_zero : IsDigit '0' := by
  unfold IsDigit
  decide

theorem digits_zeros {k : ℕ} {rest : List Char} (hrest : ∀ c ∈ rest, IsDigit c)
    (hne : List.replicate k '0' ++ rest ≠ []) : Digits (List.replicate k '0' ++ rest) := by
  refine ⟨hne, fun c hc => ?_⟩
  rcases List.mem_append.mp hc with hc | hc
  · rw [List.eq_of_mem_replicate hc]
    exact isDigit_zero
  · exact hrest c hc

/-- A point behind the first digits divides by a power of ten. -/
theorem pointed_numeral (hd : Digits digits) (hw : 0 < w) :
    Numeral (layout.pointed digits w) (digitsValue digits / 10 ^ (digits.length - w)) := by
  have hsplit := List.take_append_drop w digits
  unfold Layout.pointed
  split
  · next hdrop =>
    rw [Nat.sub_eq_zero_of_le (List.drop_eq_nil_iff.mp hdrop), pow_zero, div_one]
    exact .integer hd
  · next fraction hne =>
    have hnil : digits.drop w ≠ [] := hne
    have hlength : w < digits.length := Nat.lt_of_not_le (mt List.drop_eq_nil_iff.mpr hnil)
    have hwhole : Digits (digits.take w) := by
      refine ⟨fun h => ?_, fun c hc => hd.2 c (List.mem_of_mem_take hc)⟩
      rcases List.take_eq_nil_iff.mp h with rfl | h
      · exact absurd hw (Nat.lt_irrefl 0)
      · exact hd.1 h
    have hfraction : Digits (digits.drop w) := ⟨hnil, fun c hc => hd.2 c (List.mem_of_mem_drop hc)⟩
    have h := Numeral.fraction hwhole hfraction
    rw [hsplit, List.length_drop] at h
    exact h

/-- All digits written out, the first one standing for units of `10 ^ leading`. -/
theorem positional_numeral (hd : Digits digits) (leading : ℤ) :
    Numeral (layout.positional digits leading)
      (digitsValue digits * 10 ^ (leading + 1 - digits.length)) := by
  unfold Layout.positional
  split
  · next hneg =>
    generalize hk : (-leading).toNat - 1 = k
    have hexp : leading + 1 - digits.length = -((k + digits.length : ℕ) : ℤ) := by omega
    have hfraction : Digits (List.replicate k '0' ++ digits) :=
      digits_zeros hd.2 (List.append_ne_nil_of_right_ne_nil _ hd.1)
    have hwhole : Digits ['0'] := ⟨by simp, by simpa using isDigit_zero⟩
    have h := Numeral.fraction hwhole hfraction
    have hvalue : digitsValue (['0'] ++ (List.replicate k '0' ++ digits)) = digitsValue digits := by
      have hzeros : ['0'] ++ (List.replicate k '0' ++ digits) =
          List.replicate (k + 1) '0' ++ digits := rfl
      rw [hzeros, digitsValue_append, digitsValue_zeros, Nat.mul_zero, Nat.zero_add]
    rw [hvalue, List.length_append, List.length_replicate] at h
    rw [hexp, zpow_neg, zpow_natCast, ← div_eq_mul_inv]
    exact h
  · next hpos =>
    dsimp only
    generalize hw : leading.toNat + 1 = w
    have hpadded : Digits (digits ++ List.replicate (w - digits.length) '0') := by
      refine ⟨List.append_ne_nil_of_left_ne_nil hd.1 _, fun c hc => ?_⟩
      rcases List.mem_append.mp hc with hc | hc
      · exact hd.2 c hc
      · rw [List.eq_of_mem_replicate hc]
        exact isDigit_zero
    have h := pointed_numeral hpadded (w := w) (by omega)
    rw [digitsValue_append, digitsValue_zeros, List.length_append, List.length_replicate,
      Nat.add_zero] at h
    have hvalue : ((10 ^ (w - digits.length) * digitsValue digits : ℕ) : ℚ) /
        10 ^ (digits.length + (w - digits.length) - w) =
        digitsValue digits * 10 ^ (leading + 1 - digits.length) := by
      rcases le_total digits.length w with hle | hle
      · have hexp : leading + 1 - digits.length = ((w - digits.length : ℕ) : ℤ) := by omega
        rw [Nat.add_sub_cancel' hle, Nat.sub_self, pow_zero, div_one, hexp, zpow_natCast]
        push_cast
        ring
      · have hexp : leading + 1 - digits.length = -((digits.length - w : ℕ) : ℤ) := by omega
        rw [Nat.sub_eq_zero_of_le hle, pow_zero, Nat.one_mul, Nat.add_zero, hexp, zpow_neg,
          zpow_natCast, ← div_eq_mul_inv]
    rw [← hvalue]
    exact h

theorem exponential_writes (hd : Digits digits) (leading : ℤ) :
    Writes (layout.exponential digits leading)
      (digitsValue digits * 10 ^ (leading + 1 - digits.length)) := by
  have hlength : 0 < digits.length := List.length_pos_iff.mpr hd.1
  have hnumeral := pointed_numeral hd (w := 1) Nat.one_pos
  have hmagnitude := digits_toDigits leading.natAbs
  have hvalue : (digitsValue digits : ℚ) * 10 ^ (leading + 1 - digits.length) =
      digitsValue digits / 10 ^ (digits.length - 1) * 10 ^ leading := by
    have hexp : leading + 1 - digits.length = leading - ((digits.length - 1 : ℕ) : ℤ) := by omega
    rw [hexp, zpow_sub₀ (by norm_num), zpow_natCast]
    ring
  rw [hvalue]
  unfold Layout.exponential
  dsimp only
  split
  · next hneg =>
    have h := Writes.lowered hnumeral hmagnitude
    rw [digitsValue_toDigits] at h
    have hexp : leading = -(leading.natAbs : ℤ) := by omega
    rw [hexp, zpow_neg, zpow_natCast, ← div_eq_mul_inv, Int.natAbs_neg, Int.natAbs_natCast,
      List.append_assoc]
    exact h
  · next hpos =>
    have h := Writes.raised hnumeral hmagnitude
    rw [digitsValue_toDigits] at h
    have hexp : leading = (leading.natAbs : ℤ) := by omega
    rw [hexp, zpow_natCast, Int.natAbs_natCast, List.append_assoc]
    exact h

/-! ## Texts of doubles -/

/-- Zeros at the end of a coefficient only scale it. -/
theorem coefficient_eq (hn : 0 < n) :
    ∃ digits k, Digits digits ∧ Nat.toDigits 10 n = digits ++ List.replicate k '0' ∧
      ((Nat.toDigits 10 n).reverse.dropWhile (· == '0')).reverse = digits := by
  generalize hall : Nat.toDigits 10 n = all
  have hzeros : ∀ c ∈ all.reverse.takeWhile (· == '0'), c = '0' := fun c hc => by
    simpa using List.mem_takeWhile_imp hc
  have hsplit : all = (all.reverse.dropWhile (· == '0')).reverse ++
      List.replicate (all.reverse.takeWhile (· == '0')).length '0' := by
    rw [← List.reverse_replicate, ← List.eq_replicate_of_mem hzeros, ← List.reverse_append,
      List.takeWhile_append_dropWhile, List.reverse_reverse]
  refine ⟨_, _, ⟨fun hnil => ?_, fun c hc => ?_⟩, hsplit, rfl⟩
  · rw [hnil, List.nil_append] at hsplit
    have hvalue := digitsValue_toDigits n
    rw [hall, hsplit, digitsValue_zeros] at hvalue
    omega
  · refine (hall ▸ digits_toDigits n).2 c ?_
    rw [hsplit]
    exact List.mem_append_left _ hc

theorem scaled_eq {s : Scaled} (hs : 0 < s.coefficient) : ∃ digits, Digits digits ∧
    (s.coefficient : ℚ) * 10 ^ s.place = digitsValue digits *
      10 ^ (s.place + (Nat.toDigits 10 s.coefficient).length - 1 + 1 - digits.length) ∧
    layout.scaled s =
      if -6 ≤ s.place + (Nat.toDigits 10 s.coefficient).length - 1 ∧
          s.place + (Nat.toDigits 10 s.coefficient).length - 1 < 21 then
        layout.positional digits (s.place + (Nat.toDigits 10 s.coefficient).length - 1)
      else layout.exponential digits (s.place + (Nat.toDigits 10 s.coefficient).length - 1) := by
  obtain ⟨digits, k, hd, hall, hdigits⟩ := coefficient_eq hs
  refine ⟨digits, hd, ?_, ?_⟩
  · have hcoefficient : s.coefficient = digitsValue digits * 10 ^ k := by
      rw [← digitsValue_toDigits s.coefficient, hall, digitsValue_append, digitsValue_zeros,
        List.length_replicate, Nat.add_zero, Nat.mul_comm]
    have hexp : s.place + (Nat.toDigits 10 s.coefficient).length - 1 + 1 - digits.length =
        k + s.place := by
      rw [hall, List.length_append, List.length_replicate]
      push_cast
      ring
    rw [hexp, zpow_add₀ (by norm_num), zpow_natCast, ← mul_assoc]
    rw [hcoefficient]
    push_cast
    ring
  · unfold Layout.scaled
    dsimp only
    rw [hdigits]
    rfl

theorem scaled_writes {s : Scaled} (hs : 0 < s.coefficient) :
    Writes (layout.scaled s) (s.coefficient * 10 ^ s.place) := by
  obtain ⟨digits, hd, hvalue, hlayout⟩ := scaled_eq hs
  rw [hvalue, hlayout]
  split
  · exact .positional (positional_numeral hd _)
  · exact exponential_writes hd _

variable {x y : Float}

theorem text_eq (hx : Positive x) :
    (Decimal.text x).toList = layout.scaled (shortest (.of x)) := by
  have hexponent : x.toBits.toNat / Nat.pow 2 52 % Nat.pow 2 11 = exponentBits x := rfl
  have hfraction : x.toBits.toNat % Nat.pow 2 52 = fractionBits x := rfl
  have hnonzero : ¬(exponentBits x = 0 ∧ fractionBits x = 0) := fun h => by
    have hpos := hx.pos
    rw [significand, if_pos h.1, h.2] at hpos
    exact absurd hpos (Nat.lt_irrefl 0)
  have hsign : x.toBits.toNat < Nat.pow 2 63 := hx.sign
  unfold Decimal.text Layout.number
  dsimp only
  rw [hexponent, hfraction, if_pos hsign, if_neg hx.finite, if_neg hnonzero, String.empty_append,
    String.toList_ofList]
  rfl

theorem coefficient_pos (hx : Positive x) : 0 < (shortest (.of x)).coefficient := by
  have hpos := (zpow_pos two_pos _).trans_le ((shortest_roundsTo hx).least hx.canonical)
  rw [mul_pos_iff_of_pos_right (by positivity)] at hpos
  exact_mod_cast hpos

/-- The text of a positive double writes a number that rounds to it. -/
theorem text_writes (hx : Positive x) :
    ∃ q, Writes (Decimal.text x).toList q ∧ RoundsTo q (significand x) (exponent x) :=
  ⟨_, by rw [text_eq hx]; exact scaled_writes (coefficient_pos hx), shortest_roundsTo hx⟩

theorem text_zero : Decimal.text 0 = "0" := by
  have hbits : (0 : Float).toBits.toNat = 0 := by decide
  unfold Decimal.text Layout.number
  rw [hbits]
  rfl

theorem writes_zero : Writes (Decimal.text 0).toList 0 := by
  have h := Writes.positional (.integer (digits_toDigits 0))
  rw [digitsValue_toDigits, Nat.cast_zero] at h
  rw [text_zero]
  exact h

/-- Different doubles without a sign have different texts. -/
theorem text_injective (hx : Unsigned x) (hy : Unsigned y) (hx' : x.isInf = false)
    (hy' : y.isInf = false) (h : Decimal.text x = Decimal.text y) : x = y := by
  have hpositive {z : Float} (hz : Positive z) (hzero : Decimal.text 0 = Decimal.text z) :
      False := by
    obtain ⟨q, hq, hround⟩ := text_writes hz
    rw [← hzero] at hq
    have hpos := (zpow_pos two_pos _).trans_le (hround.least hz.canonical)
    exact hpos.ne (writes_zero.unique hq)
  rcases hx.cases with rfl | hinf | hpx
  · rcases hy.cases with rfl | hinf | hpy
    · rfl
    · exact absurd hinf (by simp [hy'])
    · exact (hpositive hpy h).elim
  · exact absurd hinf (by simp [hx'])
  · rcases hy.cases with rfl | hinf | hpy
    · exact (hpositive hpx h.symm).elim
    · exact absurd hinf (by simp [hy'])
    · obtain ⟨q, hq, hround⟩ := text_writes hpx
      obtain ⟨q', hq', hround'⟩ := text_writes hpy
      rw [h] at hq
      rw [hq.unique hq'] at hround
      obtain ⟨hm, he⟩ := hround.unique hpx.canonical hpy.canonical hround'
      rw [← hpx.ofModel_pack, ← hpy.ofModel_pack]
      simp only [hm, he]

/-- The text of a double without a sign, unless that is infinity, writes a number. -/
theorem exists_writes (hx : Unsigned x) (hx' : x.isInf = false) :
    ∃ q, Writes (Decimal.text x).toList q := by
  rcases hx.cases with rfl | hinf | hpos
  · exact ⟨0, writes_zero⟩
  · exact absurd hinf (by simp [hx'])
  · obtain ⟨q, hq, -⟩ := text_writes hpos
    exact ⟨q, hq⟩

end Decimal
end Lox
