import AccessFilter.Text.Utf8
import Mathlib.Tactic.Common

/-!
# ASCII bytes inside a text

A byte below `0x80` is a character of its own wherever it stands in the UTF-8 form of a text, since
the forms of all other characters consist of larger bytes.  So bytes can be judged piecewise around
ASCII bytes, and exchanging one ASCII text for another does not change whether they spell a text.

* `utf8EncodeChar_of_lt` — an ASCII character is its own byte.
* `eq_of_mem_utf8EncodeChar` — an ASCII byte occurs in the form of one character only.
* **`isSome_decode?_append_cons`** — an ASCII byte splits bytes into two parts that spell texts or
  not independently of each other.
-/

namespace AccessFilter.Text

@[simp] lemma encode_append (s t : List Char) : encode (s ++ t) = encode s ++ encode t := by
  induction s with
  | nil => rfl
  | cons c s ih => rw [List.cons_append, encode, encode, ih, List.append_assoc]

lemma encode_singleton (c : Char) : encode [c] = String.utf8EncodeChar c := by
  rw [encode, encode, List.append_nil]

/-! ## One character -/

/-- An ASCII character takes one byte, its code point. -/
lemma utf8EncodeChar_of_lt {c : Char} (h : c.toNat < 0x80) :
    String.utf8EncodeChar c = [UInt8.ofNat c.toNat] := by
  have hc : c.val.toNat ≤ 0x7f := Nat.le_of_lt_succ h
  simp only [String.utf8EncodeChar, hc, if_true]
  rfl

/-- The bytes of any other character are not ASCII. -/
lemma le_of_mem_utf8EncodeChar {c : Char} (h : 0x80 ≤ c.toNat) {b : UInt8}
    (hb : b ∈ String.utf8EncodeChar c) : 0x80 ≤ b.toNat := by
  have hc : ¬ c.val.toNat ≤ 0x7f := Nat.not_le_of_lt h
  simp only [String.utf8EncodeChar, hc, if_false] at hb
  split_ifs at hb <;> simp only [List.mem_cons, List.not_mem_nil, or_false] at hb
  · rcases hb with rfl | rfl <;> rw [UInt8.toNat_ofNat'] <;> omega
  · rcases hb with rfl | rfl | rfl <;> rw [UInt8.toNat_ofNat'] <;> omega
  · rcases hb with rfl | rfl | rfl | rfl <;> rw [UInt8.toNat_ofNat'] <;> omega

/-- An ASCII byte occurs only in the form of the character with that code point, which it makes up
alone. -/
lemma eq_of_mem_utf8EncodeChar {c : Char} {b : UInt8} (hb : b.toNat < 0x80)
    (h : b ∈ String.utf8EncodeChar c) : c.toNat = b.toNat ∧ String.utf8EncodeChar c = [b] := by
  by_cases hc : c.toNat < 0x80
  · rw [utf8EncodeChar_of_lt hc] at h ⊢
    rw [List.mem_singleton] at h
    refine ⟨?_, by rw [h]⟩
    rw [h, UInt8.toNat_ofNat']
    omega
  · exact absurd (le_of_mem_utf8EncodeChar (Nat.le_of_not_lt hc) h) (by omega)

/-! ## Splitting at an ASCII byte -/

/-- Where an ASCII byte stands in the form of a text, a character ends before it and one begins
after it. -/
lemma exists_of_encode_eq {b : UInt8} (hb : b.toNat < 0x80) {t : List UInt8} :
    ∀ {s : List Char} {p : List UInt8}, encode s = p ++ b :: t →
      ∃ u v, p = encode u ∧ t = encode v
  | [], p, h => by
      have h' := h.symm
      rw [encode, List.append_eq_nil_iff] at h'
      exact absurd h'.2 (by simp)
  | c :: s, p, h => by
      rw [encode] at h
      by_cases hm : b ∈ String.utf8EncodeChar c
      · -- the character is the byte itself, so the part before it is empty or begins with it
        obtain ⟨-, hc⟩ := eq_of_mem_utf8EncodeChar hb hm
        cases p with
        | nil =>
            rw [hc, List.nil_append, List.singleton_append] at h
            exact ⟨[], s, rfl, (List.cons.inj h).2.symm⟩
        | cons a p =>
            rw [hc, List.singleton_append, List.cons_append] at h
            obtain ⟨rfl, hs⟩ := List.cons.inj h
            obtain ⟨u, v, rfl, rfl⟩ := exists_of_encode_eq hb hs
            exact ⟨c :: u, v, by rw [encode, hc, List.singleton_append], rfl⟩
      · -- the byte stands behind the character, which therefore belongs to the part before it
        rcases List.append_eq_append_iff.mp h with ⟨q, rfl, hs⟩ | ⟨q, hc, hs⟩
        · obtain ⟨u, v, rfl, rfl⟩ := exists_of_encode_eq hb hs
          exact ⟨c :: u, v, rfl, rfl⟩
        · cases q with
          | nil =>
              rw [List.append_nil] at hc
              obtain ⟨u, v, hu, rfl⟩ := exists_of_encode_eq (p := []) hb hs.symm
              exact ⟨[c], v, by rw [encode_singleton, hc], rfl⟩
          | cons a q =>
              obtain ⟨rfl, -⟩ := List.cons.inj hs
              exact absurd (by rw [hc]; simp) hm

lemma isSome_decode?_iff {bytes : List UInt8} :
    (decode? bytes).isSome ↔ ∃ s, bytes = encode s := by
  rw [Option.isSome_iff_exists]
  exact exists_congr fun s => decode?_eq_some_iff

/-- **An ASCII byte splits bytes into two independent parts.** -/
theorem isSome_decode?_append_cons {b : UInt8} (hb : b.toNat < 0x80) (p t : List UInt8) :
    (decode? (p ++ b :: t)).isSome ↔ (decode? p).isSome ∧ (decode? t).isSome := by
  simp only [isSome_decode?_iff]
  constructor
  · rintro ⟨s, h⟩
    obtain ⟨u, v, hu, hv⟩ := exists_of_encode_eq hb h.symm
    exact ⟨⟨u, hu⟩, ⟨v, hv⟩⟩
  · rintro ⟨⟨u, rfl⟩, ⟨v, rfl⟩⟩
    have hv : b.toNat.isValidChar := Or.inl (by omega)
    have hc : (Char.ofNat b.toNat).toNat = b.toNat := by
      rw [Char.ofNat, dif_pos hv]
      rfl
    refine ⟨u ++ Char.ofNat b.toNat :: v, ?_⟩
    rw [encode_append, encode, utf8EncodeChar_of_lt (by omega), hc, UInt8.ofNat_toNat,
      List.singleton_append]

/-- An ASCII text in the middle splits bytes in the same way, whatever the text is. -/
lemma isSome_decode?_append_encode {w : List Char} (hw : ∀ c ∈ w, c.toNat < 0x80) (hne : w ≠ [])
    (p t : List UInt8) :
    (decode? (p ++ encode w ++ t)).isSome ↔ (decode? p).isSome ∧ (decode? t).isSome := by
  induction w generalizing p with
  | nil => exact absurd rfl hne
  | cons c w ih =>
      have hc : c.toNat < 0x80 := hw c List.mem_cons_self
      have hb : (UInt8.ofNat c.toNat).toNat < 0x80 := by rw [UInt8.toNat_ofNat']; omega
      rw [encode, utf8EncodeChar_of_lt hc, List.singleton_append, List.append_assoc,
        List.cons_append, isSome_decode?_append_cons hb]
      cases w with
      | nil => rfl
      | cons d w =>
          have h := ih (fun e he => hw e (List.mem_cons_of_mem c he)) (by simp) []
          rw [List.nil_append] at h
          rw [h]
          have hnil : (decode? []).isSome := isSome_decode?_iff.mpr ⟨[], rfl⟩
          simp [hnil]

end AccessFilter.Text
