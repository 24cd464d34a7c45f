import AccessFilter.Proofs.Number.Token
import Mathlib.Data.Nat.Digits.Defs

/-!
# Whole numbers that do not fit 64 bits with sign

A number may be a whole number of 64 bits without sign, and is then written in full.  What a query
reads as a whole number has to fit 64 bits with sign, so the upper half of them comes back as
floats.

* `nearest_lt` — the float nearest to such a number is finite.
* **`exists_ofQueryToken?_intText`** — the text of such a number is read as the nearest float.
-/

namespace AccessFilter

namespace Binary64

lemma roundDiv_le (num den : Nat) : roundDiv num den ≤ num / den + 1 := by
  unfold roundDiv
  split_ifs <;> omega

/-- A number keeps 53 bits when it is divided by the power of two that `nearest` chooses. -/
lemma div_two_pow_lt (m : Nat) : m / 2 ^ (m.log2 - 52) < 2 ^ 53 := by
  refine Nat.div_lt_of_lt_mul ?_
  calc m < 2 ^ (m.log2 + 1) := Nat.lt_log2_self
    _ ≤ 2 ^ (m.log2 - 52 + 53) := Nat.pow_le_pow_right (by omega) (by omega)
    _ = 2 ^ (m.log2 - 52) * 2 ^ 53 := Nat.pow_add ..

lemma log2_mul_pow_lt {n e : Nat} (hpos : n ≠ 0) (h : n < 2 ^ e) (k : Nat) :
    (n * Nat.pow 2 k).log2 < e + k := by
  rw [Nat.pow_eq, Nat.log2_lt (Nat.mul_ne_zero hpos (Nat.two_pow_pos k).ne'), Nat.pow_add]
  exact Nat.mul_lt_mul_of_pos_right h (Nat.two_pow_pos k)

/-- The exponent field comes from the leading bit of a number, and rounding adds at most a carry to
it. -/
lemma exponent_add_roundDiv_lt {m e : Nat} (h : m.log2 < e) (he : e ≤ 2096) :
    (m.log2 - 52) * 2 ^ 52 + roundDiv m (2 ^ (m.log2 - 52)) < 2047 * 2 ^ 52 := by
  have hbits := div_two_pow_lt m
  have hround := roundDiv_le m (2 ^ (m.log2 - 52))
  omega

/-- **The float nearest to a whole number of 64 bits is finite.** -/
lemma nearest_lt {n : Nat} (hpos : n ≠ 0) (h : n < 2 ^ 64) :
    nearest n 1 < 2047 * Nat.pow 2 52 := by
  rw [nearest, Nat.div_one, Nat.one_mul]
  exact exponent_add_roundDiv_lt (log2_mul_pow_lt hpos h _) (by decide)

end Binary64

namespace Number

/-- The digits of a whole number of 64 bits are worth the float nearest to it. -/
lemma decimalMagnitude_of_lt {n : Nat} (hpos : n ≠ 0) (h : n < 2 ^ 64) :
    Literal.decimalMagnitude ⟨n, 0⟩ = Binary64.nearest n 1 := by
  have hlength : (Nat.toDigits 10 n).length ≤ 20 :=
    Nat.toDigits_length 10 n 20 (by omega) (by omega)
  have hbelow : ¬ ((Nat.toDigits 10 n).length : Int) < -400 := by omega
  have habove : ¬ 400 < (Nat.toDigits 10 n).length := by omega
  simp [Literal.decimalMagnitude, hpos, hbelow, habove]

/-- **A whole number of 64 bits that does not fit them with sign is read as a float,** the one
nearest to it. -/
theorem exists_ofQueryToken?_intText {n : Nat} (hwide : 0x8000000000000000 ≤ n) (h : n < 2 ^ 64) :
    ∃ x : Binary64, x.negative = false ∧ x.magnitude = Binary64.nearest n 1 ∧
      ofQueryToken? (intText n) = some (float x) := by
  have hpos : n ≠ 0 := by omega
  have hfinite := Binary64.nearest_lt hpos h
  have hdigits : ∀ c ∈ Nat.toDigits 10 n, c.isDigit = true := fun c hc =>
    Nat.isDigit_of_mem_toDigits (by decide) (by decide) hc
  have hl : Literal.ofChars? (intText n) = some ⟨false, Nat.toDigits 10 n, none, none⟩ := by
    rw [intText, if_neg (by omega), Int.natAbs_natCast]
    exact ofChars?_digits Nat.toDigits_ne_nil hdigits
  have hint : Literal.int? ⟨false, Nat.toDigits 10 n, none, none⟩ = some (n : Int) := by
    simp [Literal.int?]
  have hfloat : Literal.nearest? ⟨false, Nat.toDigits 10 n, none, none⟩ =
      some ⟨false, Binary64.nearest n 1, hfinite⟩ := by
    have hvalue : (0 : Int) - (([] : List Char).length : Int) = 0 := rfl
    simp only [Literal.nearest?, Option.getD_none, List.append_nil, Nat.ofDigitChars_ten_toDigits,
      hvalue, decimalMagnitude_of_lt hpos h]
    exact dif_pos hfinite
  refine ⟨⟨false, Binary64.nearest n 1, hfinite⟩, rfl, rfl, ?_⟩
  have hunfit : ¬ (-0x8000000000000000 ≤ (n : Int) ∧ (n : Int) < 0x8000000000000000) := by omega
  simp only [ofQueryToken?, hl, hint, if_neg hunfit, hfloat, Option.map_some]

end Number

end AccessFilter
