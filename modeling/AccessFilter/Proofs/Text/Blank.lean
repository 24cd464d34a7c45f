import AccessFilter.Text.Blank
import Mathlib.Data.List.TakeWhile
import Mathlib.Tactic.Common

/-!
# Texts that trimming leaves alone

* `isBlank_of_isAlphanum` — letters and digits are no blanks.
* `EndsVisibly` — the last character of a text is no blank.
* **`trim_eq_self`** — a text that neither begins nor ends with a blank is left as it is.
* `exists_append_trim` — what trimming takes away is blank.
* `trimmed_eq_empty_iff` — it takes away all of a text exactly if that is blank.
-/

namespace AccessFilter.Text

/-- The visible characters of ASCII are no blanks. -/
lemma isBlank_of_visible {c : Char} (h : 0x21 ≤ c.toNat ∧ c.toNat ≤ 0x7e) : isBlank c = false := by
  have hb : ¬ isBlank c = true := by
    simp only [isBlank, Bool.or_eq_true, Bool.and_eq_true, decide_eq_true_eq, beq_iff_eq]
    omega
  simpa using hb

/-- Letters and digits are visible characters of ASCII. -/
lemma visible_of_isAlphanum {c : Char} (h : c.isAlphanum = true) :
    0x21 ≤ c.toNat ∧ c.toNat ≤ 0x7e := by
  have hrange : ∀ {a b : Char}, a.val ≤ c.val ∧ c.val ≤ b.val → 0x21 ≤ a.toNat ∧ b.toNat ≤ 0x7e →
      0x21 ≤ c.toNat ∧ c.toNat ≤ 0x7e := by
    intro a b hc hab
    exact ⟨hab.1.trans (UInt32.le_iff_toNat_le.mp hc.1),
      (UInt32.le_iff_toNat_le.mp hc.2).trans hab.2⟩
  rcases (Bool.or_eq_true _ _).mp h with hletter | hdigit
  · rcases (Bool.or_eq_true _ _).mp hletter with hupper | hlower
    · exact hrange (of_decide_eq_true hupper) (by decide)
    · obtain ⟨hle, hge⟩ := (Bool.and_eq_true _ _).mp hlower
      exact hrange ⟨of_decide_eq_true hle, of_decide_eq_true hge⟩ (by decide)
  · obtain ⟨hle, hge⟩ := (Bool.and_eq_true _ _).mp hdigit
    exact hrange ⟨of_decide_eq_true hle, of_decide_eq_true hge⟩ (by decide)

lemma isBlank_of_isAlphanum {c : Char} (h : c.isAlphanum = true) : isBlank c = false :=
  isBlank_of_visible (visible_of_isAlphanum h)

/-- A text whose last character is no blank. -/
def EndsVisibly (s : List Char) : Prop :=
  ∃ w c, s = w ++ [c] ∧ isBlank c = false

lemma EndsVisibly.append {t : List Char} (h : EndsVisibly t) (s : List Char) :
    EndsVisibly (s ++ t) := by
  obtain ⟨w, c, rfl, hc⟩ := h
  exact ⟨s ++ w, c, (List.append_assoc s w [c]).symm, hc⟩

lemma endsVisibly_of_forall {s : List Char} (hne : s ≠ []) (h : ∀ c ∈ s, isBlank c = false) :
    EndsVisibly s :=
  ⟨s.dropLast, s.getLast hne, (List.dropLast_concat_getLast hne).symm,
    h _ (List.getLast_mem hne)⟩

lemma trimLeft_eq_self {s : List Char} (h : ∀ c ∈ s.head?, isBlank c = false) :
    trimLeft s = s := by
  cases s with
  | nil => rfl
  | cons c s => rw [trimLeft, List.dropWhile_cons_of_neg (by simp [h c rfl])]

/-- **A text without blanks at its ends is left as it is.** -/
theorem trim_eq_self {s : List Char} (hfirst : ∀ c ∈ s.head?, isBlank c = false)
    (hlast : EndsVisibly s) : trim s = s := by
  have h : trimLeft s.reverse = s.reverse := by
    obtain ⟨w, c, rfl, hc⟩ := hlast
    refine trimLeft_eq_self ?_
    simpa using hc
  rw [trim, trimLeft_eq_self hfirst, trimRight, ← trimLeft, h, List.reverse_reverse]

/-- **Trimming leaves a text alone that neither begins nor ends with a blank,** whatever stands
behind it. -/
lemma exists_trim_append_eq {s : List Char} (hfirst : ∀ c ∈ s.head?, isBlank c = false)
    (hlast : EndsVisibly s) (behind : List Char) :
    ∃ rest : List Char, trim (s ++ behind) = s ++ rest := by
  obtain ⟨w, c, rfl, hc⟩ := hlast
  have hleft : trimLeft (w ++ [c] ++ behind) = w ++ [c] ++ behind := by
    refine trimLeft_eq_self ?_
    cases w <;> simpa using hfirst
  have hstop : ([c] ++ w.reverse).dropWhile isBlank = [c] ++ w.reverse :=
    List.dropWhile_cons_of_neg (by simp [hc])
  refine ⟨(behind.reverse.dropWhile isBlank).reverse, ?_⟩
  rw [trim, hleft, trimRight, List.reverse_append, List.reverse_append, List.reverse_singleton,
    List.dropWhile_append, hstop]
  split_ifs with hempty
  · simp [List.isEmpty_iff.mp hempty]
  · simp

/-- Nothing is left of a text without the blanks around it exactly if it is blank. -/
lemma trimmed_eq_empty_iff (s : String) : trimmed s = "" ↔ isBlankText s = true := by
  rw [trimmed, String.ofList_eq_empty_iff, trim_eq_nil_iff, isBlankText, List.all_eq_true]

lemma exists_append_trimLeft (s : List Char) :
    ∃ lead : List Char, (∀ c ∈ lead, isBlank c = true) ∧ s = lead ++ trimLeft s :=
  ⟨s.takeWhile isBlank, fun _ => List.mem_takeWhile_imp, List.takeWhile_append_dropWhile.symm⟩

/-- The trimmed text stands behind the blanks that a text begins with, and in front of blanks. -/
lemma exists_takeWhile_append_trim (s : List Char) :
    ∃ trail : List Char, (∀ c ∈ trail, isBlank c = true) ∧
      s = s.takeWhile isBlank ++ (trim s ++ trail) := by
  obtain ⟨trail, htrail, ht⟩ := exists_append_trimLeft (trimLeft s).reverse
  refine ⟨trail.reverse, by simpa using htrail, ?_⟩
  have hright : trimLeft s = trimRight (trimLeft s) ++ trail.reverse := by
    rw [trimRight, ← List.reverse_append, ← trimLeft, ← ht, List.reverse_reverse]
  rw [trim, ← hright, trimLeft, List.takeWhile_append_dropWhile]

/-- **What trimming takes away is blank.** -/
lemma exists_append_trim (s : List Char) :
    ∃ lead trail : List Char, (∀ c ∈ lead, isBlank c = true) ∧ (∀ c ∈ trail, isBlank c = true) ∧
      s = lead ++ (trim s ++ trail) := by
  obtain ⟨trail, htrail, hs⟩ := exists_takeWhile_append_trim s
  exact ⟨s.takeWhile isBlank, trail, fun _ => List.mem_takeWhile_imp, htrail, hs⟩

end AccessFilter.Text
