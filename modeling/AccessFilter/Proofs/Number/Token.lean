import AccessFilter.Number.Literal
import Mathlib.Data.List.TakeWhile
import Mathlib.Tactic.Common

/-!
# Numbers as tokens

A number in a query is a bare token.  What is read as one has only characters that cannot be
mistaken for anything else in a query, and a whole number of 64 bits is read back from its text.

* `isNumberChar` — the characters of numeric literals.
* **`isNumberChar_of_ofQueryToken?`** — a token that is a number has no others.
* **`ofQueryToken?_intText`** — the text of a whole number of 64 bits with sign is that number.
-/

namespace AccessFilter

namespace Literal

/-- The characters of numeric literals: digits, the point, the signs and the letter e. -/
def isNumberChar (c : Char) : Bool :=
  c.isDigit || c == '.' || c == '+' || c == '-' || c == 'e' || c == 'E'

lemma isNumberChar_of_isDigit {c : Char} (h : c.isDigit = true) : isNumberChar c = true := by
  simp [isNumberChar, h]

lemma isNumberChar_of_mem_takeWhile {s : List Char} {c : Char} (h : c ∈ s.takeWhile Char.isDigit) :
    isNumberChar c = true :=
  isNumberChar_of_isDigit (List.mem_takeWhile_imp h)

lemma isNumberChar_of_signedDigits? {s : List Char} {n : Int} (h : signedDigits? s = some n) :
    ∀ c ∈ s, isNumberChar c = true := by
  have hdigits : ∀ {t : List Char}, t ≠ [] ∧ t.all Char.isDigit = true →
      ∀ c ∈ t, isNumberChar c = true := by
    intro t ht c hc
    exact isNumberChar_of_isDigit (List.all_eq_true.mp ht.2 c hc)
  unfold signedDigits? at h
  split at h
  all_goals
    split_ifs at h with hs
    first
      | exact hdigits hs
      | exact List.forall_mem_cons.mpr ⟨by decide, hdigits hs⟩

lemma isNumberChar_of_exponent? {s : List Char} {e : Option Int} (h : exponent? s = some e) :
    ∀ c ∈ s, isNumberChar c = true := by
  unfold exponent? at h
  split at h
  · simp
  · next c s =>
    split_ifs at h with hc
    obtain ⟨n, hn, -⟩ := Option.map_eq_some_iff.mp h
    refine List.forall_mem_cons.mpr ⟨?_, isNumberChar_of_signedDigits? hn⟩
    simp only [Bool.or_eq_true, beq_iff_eq] at hc
    rcases hc with rfl | rfl <;> decide

lemma isNumberChar_of_unsigned? {negative : Bool} {s : List Char} {l : Literal}
    (h : unsigned? negative s = some l) : ∀ c ∈ s, isNumberChar c = true := by
  intro c hc
  rw [← List.takeWhile_append_dropWhile (p := Char.isDigit) (l := s), List.mem_append] at hc
  rcases hc with hc | hc
  · exact isNumberChar_of_mem_takeWhile hc
  unfold unsigned? at h
  dsimp only at h
  split at h
  · next r hr =>
    split_ifs at h
    obtain ⟨e, he, -⟩ := Option.map_eq_some_iff.mp h
    rw [hr] at hc
    rcases List.mem_cons.mp hc with rfl | hc
    · decide
    rw [← List.takeWhile_append_dropWhile (p := Char.isDigit) (l := r), List.mem_append] at hc
    rcases hc with hc | hc
    · exact isNumberChar_of_mem_takeWhile hc
    · exact isNumberChar_of_exponent? he c hc
  · split_ifs at h
    obtain ⟨e, he, -⟩ := Option.map_eq_some_iff.mp h
    exact isNumberChar_of_exponent? he c hc

lemma isNumberChar_of_ofChars? {s : List Char} {l : Literal} (h : ofChars? s = some l) :
    ∀ c ∈ s, isNumberChar c = true := by
  unfold ofChars? at h
  split at h
  · exact List.forall_mem_cons.mpr ⟨by decide, isNumberChar_of_unsigned? h⟩
  · exact List.forall_mem_cons.mpr ⟨by decide, isNumberChar_of_unsigned? h⟩
  · exact isNumberChar_of_unsigned? h

/-- Digits alone are a literal without point and exponent. -/
lemma unsigned?_digits (negative : Bool) {s : List Char} (hne : s ≠ [])
    (h : ∀ c ∈ s, c.isDigit = true) : unsigned? negative s = some ⟨negative, s, none, none⟩ := by
  have htake : s.takeWhile Char.isDigit = s := List.takeWhile_eq_self_iff.mpr h
  have hdrop : s.dropWhile Char.isDigit = [] := List.dropWhile_eq_nil_iff.mpr h
  simp [unsigned?, htake, hdrop, hne, exponent?]

end Literal

namespace Number

/-- **A token that is a number has the characters of numeric literals only.** -/
lemma isNumberChar_of_ofQueryToken? {s : List Char} {n : Number} (h : ofQueryToken? s = some n) :
    ∀ c ∈ s, Literal.isNumberChar c = true := by
  unfold ofQueryToken? at h
  split at h
  · cases h
  · next l hl => exact Literal.isNumberChar_of_ofChars? hl

/-- A text that begins with a digit has no sign. -/
lemma ofChars?_digits {s : List Char} (hne : s ≠ []) (h : ∀ c ∈ s, c.isDigit = true) :
    Literal.ofChars? s = some ⟨false, s, none, none⟩ := by
  rw [← Literal.unsigned?_digits false hne h]
  unfold Literal.ofChars?
  split
  · exact absurd (h '+' List.mem_cons_self) (by decide)
  · exact absurd (h '-' List.mem_cons_self) (by decide)
  · rfl

lemma ofChars?_intText (n : Int) :
    ∃ l, Literal.ofChars? (intText n) = some l ∧ l.int? = some n := by
  have hne : Nat.toDigits 10 n.natAbs ≠ [] := Nat.toDigits_ne_nil
  have hdigits : ∀ c ∈ Nat.toDigits 10 n.natAbs, c.isDigit = true := fun c hc =>
    Nat.isDigit_of_mem_toDigits (by decide) (by decide) hc
  rw [intText]
  split_ifs with h
  · refine ⟨_, Literal.unsigned?_digits true hne hdigits, ?_⟩
    simp only [Literal.int?, Nat.ofDigitChars_ten_toDigits, if_true, Option.some.injEq]
    omega
  · refine ⟨_, ofChars?_digits hne hdigits, ?_⟩
    simp only [Literal.int?, Nat.ofDigitChars_ten_toDigits, Option.some.injEq]
    simp
    omega

/-- **A whole number that fits 64 bits with sign is read back from its text.** -/
theorem ofQueryToken?_intText {n : Int}
    (h : -0x8000000000000000 ≤ n ∧ n < 0x8000000000000000) :
    ofQueryToken? (intText n) = some (int n) := by
  obtain ⟨l, hl, hn⟩ := ofChars?_intText n
  rw [ofQueryToken?, hl]
  dsimp only
  rw [hn]
  exact if_pos h

end Number

end AccessFilter
