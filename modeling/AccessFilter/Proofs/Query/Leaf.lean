import AccessFilter.Proofs.Number.Wide
import AccessFilter.Proofs.Query.Normal
import AccessFilter.Proofs.Text.Position

/-!
# Single comparisons in a query

What comes back of one comparison that is written as a query and read again, for every comparison
that has one value, every name that the notation can spell and every value that JSON writes without
brackets and fractions.

**Names.**  A name that is the word that matches everything is taken for this word, and what stands
behind it cannot be used.  All other names are read as themselves, even if they begin with a word.

**Values.**  A whole number of JSON has 64 bits with or without sign, but what a query reads as a
whole number has to fit them with sign.  The others come back as floats.

* `IsLeaf` — the comparisons in question.
* `IsAllWord`, `IsWide` — the names and the values that do not come back.
* `ComesBack` — what a value comes back as.
* **`parse_text_append`** — a query with something behind it is rejected there.
* **`parse_print_leaf`** — what is read of a written comparison, and when it is the comparison.
-/

namespace AccessFilter.Query

/-! ## Comparisons with one value -/

/-- A letter, then letters, digits, points, underscores and colons. -/
def IsPath (name : String) : Prop :=
  name.toList.head?.any Char.isAlpha = true ∧ name.toList.all isNameChar = true

/-- The word that matches everything, in any letter case. -/
def IsAllWord (name : String) : Prop :=
  Text.lower name.toList = ['t', 'r', 'u', 'e']

/-- A text, a boolean, null or a whole number of 64 bits with or without sign. -/
def IsScalar : Json → Prop
  | .string _ | .bool _ | .null => True
  | .number (.int n) => -0x8000000000000000 ≤ n ∧ n < 0x10000000000000000
  | .number (.float _) | .array _ | .object _ => False

/-- A whole number that does not fit 64 bits with sign. -/
def IsWide (j : Json) : Prop :=
  ∃ n : Nat, 0x8000000000000000 ≤ n ∧ j = .number (.int n)

/-- A comparison with one value; presence has none, which is null. -/
structure IsLeaf (c : Comparison) (t : Target) : Prop where
  single : c ≠ .hasChanged ∧ c ≠ .isIn
  path : IsPath t.name
  scalar : IsScalar t.value
  absent : c = .exists → t.value = .null

instance (name : String) : Decidable (IsPath name) :=
  inferInstanceAs (Decidable (_ ∧ _))

instance (name : String) : Decidable (IsAllWord name) :=
  inferInstanceAs (Decidable (_ = _))

lemma isName_iff {name : String} : IsName name ↔ IsPath name ∧ ¬ IsAllWord name :=
  and_assoc.symm

/-! ## Values -/

/-- What a value comes back as: itself, or the float nearest to it if it is too wide. -/
inductive ComesBack : Json → Json → Prop where
  | same {j : Json} (fits : ¬ IsWide j) : ComesBack j j
  | nearest {n : Nat} {x : Binary64} (wide : 0x8000000000000000 ≤ n)
    (sign : x.negative = false) (magnitude : x.magnitude = Binary64.nearest n 1) :
    ComesBack (.number (.int n)) (.number (.float x))

lemma ComesBack.eq_null {j : Json} (h : ComesBack .null j) : j = .null := by
  cases h with
  | same fits => rfl

/-- A value comes back as itself exactly if it is not too wide. -/
lemma ComesBack.eq_iff {j k : Json} (h : ComesBack j k) : k = j ↔ ¬ IsWide j := by
  cases h with
  | same fits => exact iff_of_true rfl fits
  | nearest wide => exact iff_of_false nofun fun hwide => hwide ⟨_, wide, rfl⟩

/-- **The text of a value is a form of what it comes back as.** -/
lemma exists_form {j : Json} (h : IsScalar j) :
    ∃ v : ValueForm, v.text = literal j ∧ ComesBack j v.json := by
  have hnull : ¬ IsWide .null := by simp [IsWide]
  have hbool : ∀ b, ¬ IsWide (.bool b) := by simp [IsWide]
  have hstring : ∀ s, ¬ IsWide (.string s) := by simp [IsWide]
  cases j with
  | null => exact ⟨.null, rfl, .same hnull⟩
  | bool b => cases b <;> exact ⟨.bool _, rfl, .same (hbool _)⟩
  | string s =>
      obtain ⟨v, hv, hjson⟩ := exists_quote s.toList
      rw [String.ofList_toList] at hjson
      refine ⟨v, hv, ?_⟩
      rw [hjson]
      exact .same (hstring s)
  | array items => exact h.elim
  | object members => exact h.elim
  | number n =>
      cases n with
      | float x => exact h.elim
      | int n =>
          obtain ⟨hlow, hhigh⟩ := h
          by_cases hn : n < 0x8000000000000000
          · refine ⟨.number _ _ (Number.ofQueryToken?_intText ⟨hlow, hn⟩), rfl, .same ?_⟩
            rintro ⟨m, hm, heq⟩
            obtain rfl := Number.int.inj (Json.number.inj heq)
            omega
          · obtain ⟨m, rfl⟩ := Int.eq_ofNat_of_zero_le (by omega : 0 ≤ n)
            have hwide : 0x8000000000000000 ≤ m := by omega
            obtain ⟨x, hsign, hmagnitude, hx⟩ :=
              Number.exists_ofQueryToken?_intText hwide (by omega)
            exact ⟨.number _ _ hx, rfl, .nearest hwide hsign hmagnitude⟩

/-! ## Texts -/

/-- What stands behind the name in the text of a comparison with one value. -/
def behindName (c : Comparison) (value : List Char) : List Char :=
  match word? c with
  | some word => ' ' :: word ++ ' ' :: value
  | none => [' ', 'p', 'r']

section

variable {c : Comparison} (hc : c ≠ .hasChanged ∧ c ≠ .isIn)
include hc

/-- A comparison with one value is for presence, or has a word and the value behind it. -/
lemma behindName_cases (value : List Char) :
    (c = .exists ∧ behindName c value = [' ', 'p', 'r']) ∨
      ∃ word, (word, c) ∈ comparisonWords ∧ behindName c value = ' ' :: word ++ ' ' :: value := by
  cases c with
  | hasChanged => exact absurd rfl hc.1
  | isIn => exact absurd rfl hc.2
  | «exists» => exact .inl ⟨rfl, rfl⟩
  | equals | contains | startsWith | endsWith | greaterThan | greaterOrEqual | lessThan
  | lessOrEqual => exact .inr ⟨_, by decide, rfl⟩

lemma compareText_eq (t : Target) :
    compareText c t = t.name.toList ++ behindName c (literal t.value) := by
  cases c with
  | hasChanged => exact absurd rfl hc.1
  | isIn => exact absurd rfl hc.2
  | «exists» => rfl
  | equals | contains | startsWith | endsWith | greaterThan | greaterOrEqual | lessThan
  | lessOrEqual => simp [compareText, comparisonText, behindName, word?]

/-- No word that joins operands stands behind the name. -/
lemma stops_behindName (value : List Char) : Stops (behindName c value) := by
  cases c with
  | hasChanged => exact absurd rfl hc.1
  | isIn => exact absurd rfl hc.2
  | «exists» | equals | contains | startsWith | endsWith | greaterThan | greaterOrEqual | lessThan
  | lessOrEqual => exact ⟨.inr rfl, rfl, rfl⟩

lemma behindName_endsVisibly (v : ValueForm) : Text.EndsVisibly (behindName c v.text) := by
  rcases behindName_cases hc v.text with ⟨-, h⟩ | ⟨word, -, h⟩
  · exact ⟨[' ', 'p'], 'r', h, rfl⟩
  · rw [h, ← List.singleton_append (l := v.text), ← List.append_assoc]
    exact v.endsVisibly.append _

/-- Behind the name no parenthesis opens. -/
lemma peak_behindName (v : ValueForm) : peak 0 false (behindName c v.text) = 0 := by
  rcases behindName_cases hc v.text with ⟨-, h⟩ | ⟨word, hlisted, h⟩
  · rw [h]
    rfl
  · have hmark : ∀ d ∈ word, isMark d = false :=
      (ComparisonWord.small hlisted).spelling.isMark (ComparisonWord.small hlisted).isWord
    have htext : behindName c v.text =
        space.chars ++ (word ++ (space.chars ++ (v.text ++ []))) := by
      rw [h, List.append_nil]
      rfl
    rw [htext, peak_append_of_forall space.isMark, peak_append_of_forall hmark,
      peak_append_of_forall space.isMark, peak_value, peak]

/-- A name, the word of the comparison and a value, unless the comparison is for presence. -/
lemma derives_behindName {name : String} (hname : IsName name) (v : ValueForm)
    (habsent : c = .exists → v.json = .null) :
    DerivesOperand (name.toList ++ behindName c v.text) 0 (.compare c ⟨name, v.json⟩) := by
  rcases behindName_cases hc v.text with ⟨rfl, h⟩ | ⟨word, hlisted, h⟩
  · rw [h, habsent rfl]
    exact derives_present hname
  · rw [h, ← List.append_assoc]
    exact derives_comparison hname hlisted v

end

/-! ## Reading -/

/-- **A query with something behind it is rejected there,** if what stands behind it neither goes on
with its last word nor joins a further operand to it. -/
theorem parse_text_append {d : Disjunction} {s : List Char} (hs : Stops s)
    (hlast : Text.EndsVisibly s) (hnesting : nesting (d.text ++ s) ≤ nestingLimit) :
    parse (String.ofList (d.text ++ s)) =
      .error (.unexpected (Text.byteSize d.text) .unspecified) := by
  obtain ⟨a, t, ht, ha⟩ := d.exists_text_eq
  have htrim : Text.trim (d.text ++ s) = d.text ++ s := by
    refine Text.trim_eq_self ?_ (hlast.append d.text)
    rw [ht]
    simpa using ha
  have hlead : (d.text ++ s).takeWhile Text.isBlank = [] := by
    rw [ht, List.cons_append, List.takeWhile_cons_of_neg (by simp [ha])]
  have hheight : d.height ≤ (d.text ++ s).length := by
    have hlength := nesting_le_length d.text
    rw [d.nesting_text] at hlength
    rw [List.length_append]
    omega
  have hwhole : wholeExpression (d.text ++ s).length (d.text ++ s) = .error (.stuck s) := by
    obtain ⟨w, b, rfl, -⟩ := hlast
    rw [wholeExpression, expression_text _ d hs hheight]
    simp
  have hempty : (d.text ++ s).isEmpty = false := by
    rw [ht]
    rfl
  have hkeeps := (keepsNestingLimit_iff _).mpr hnesting
  simp only [parse, String.toList_ofList, htrim, hlead, hempty, hkeeps, hwhole]
  simp [Text.byteSize]

/-- A comparison is written as its text. -/
lemma print_leaf {c : Comparison} {t : Target} (h : IsLeaf c t) :
    print (some (.compare c t)) =
      String.ofList (t.name.toList ++ behindName c (literal t.value)) := by
  have hne : t.name.toList ≠ [] := by
    intro hnil
    have hfirst := h.path.1
    rw [hnil] at hfirst
    cases hfirst
  rw [← compareText_eq h.single, print, Option.map_some, Option.getD_some, exprText]
  split
  · next hnil =>
    rw [compareText_eq h.single, List.append_eq_nil_iff] at hnil
    exact absurd hnil.1 hne
  · next hcons => rw [hcons]

/-- Behind the word that matches everything nothing of a comparison can be read. -/
lemma parse_print_of_isAllWord {c : Comparison} {t : Target} (h : IsLeaf c t)
    (hall : IsAllWord t.name) :
    parse (print (some (.compare c t))) = .error (.unexpected 4 .unspecified) := by
  obtain ⟨v, hv, -⟩ := exists_form h.scalar
  let w : Spelling ['t', 'r', 'u', 'e'] := ⟨t.name.toList, hall⟩
  have htext : Disjunction.text (.single (.single (.all w))) = t.name.toList := by
    rw [Disjunction.text, Conjunction.text, Operand.text]
  have hnesting : nesting (t.name.toList ++ behindName c v.text) ≤ nestingLimit := by
    rw [nesting, peak_append_of_forall (w.isMark isWord_all), peak_behindName h.single]
    exact Nat.zero_le _
  have hsize : Text.byteSize t.name.toList = 4 := by
    have hletters : ∀ a ∈ t.name.toList, a.isAlphanum = true := fun a ha =>
      (Bool.or_eq_true _ _).mpr (.inl (w.isAlpha isWord_all a ha))
    rw [Text.byteSize_of_forall_isAlphanum hletters]
    simpa [Text.lower] using congrArg List.length hall
  rw [← htext] at hnesting
  have hparse := parse_text_append (stops_behindName h.single v.text)
    (behindName_endsVisibly h.single v) hnesting
  rwa [htext, hsize, hv, ← print_leaf h] at hparse

/-- Any other comparison is read, with what its value comes back as. -/
lemma exists_parse_print_eq {c : Comparison} {t : Target} (h : IsLeaf c t)
    (hall : ¬ IsAllWord t.name) : ∃ j, ComesBack t.value j ∧
      parse (print (some (.compare c t))) = .ok (.compare c ⟨t.name, j⟩) := by
  obtain ⟨v, hv, hback⟩ := exists_form h.scalar
  have habsent : c = .exists → v.json = .null := by
    intro hexists
    rw [h.absent hexists] at hback
    exact hback.eq_null
  obtain ⟨d, hd, hheight, hexpr⟩ :=
    derives_operand (derives_behindName h.single (isName_iff.mpr ⟨h.path, hall⟩) v habsent)
  refine ⟨v.json, hback, ?_⟩
  rw [print_leaf h, ← hv, ← hd, parse_text, d.nesting_text, hheight, if_pos (Nat.zero_le _), hexpr]

/-- **What is read of a written comparison.**  A name that is the word that matches everything makes
the text fail behind the name.  With any other name the comparison is read, but a value that is too
wide is a float then.  So the comparison is read as itself if and only if neither is the case. -/
theorem parse_print_leaf {c : Comparison} {t : Target} (h : IsLeaf c t) :
    (IsAllWord t.name → parse (print (some (.compare c t))) =
      .error (.unexpected 4 .unspecified)) ∧
    (¬ IsAllWord t.name → ∃ j, ComesBack t.value j ∧
      parse (print (some (.compare c t))) = .ok (.compare c ⟨t.name, j⟩)) ∧
    (parse (print (some (.compare c t))) = .ok (.compare c t) ↔
      ¬ IsAllWord t.name ∧ ¬ IsWide t.value) := by
  refine ⟨parse_print_of_isAllWord h, exists_parse_print_eq h, ?_⟩
  by_cases hall : IsAllWord t.name
  · rw [parse_print_of_isAllWord h hall]
    simp [hall]
  · obtain ⟨j, hback, hparse⟩ := exists_parse_print_eq h hall
    obtain ⟨name, value⟩ := t
    rw [hparse, ← hback.eq_iff]
    simp [hall]

/-- The largest whole number that JSON can write in 64 bits. -/
def widestTarget : Target :=
  ⟨"a", .number (.int 18446744073709551615)⟩

lemma isLeaf_widestTarget : IsLeaf .equals widestTarget :=
  ⟨by decide, by decide, ⟨by decide, by decide⟩, nofun⟩

lemma isWide_widestTarget : IsWide widestTarget.value :=
  ⟨18446744073709551615, by decide, rfl⟩

/-- **Not every comparison is read as itself:** the widest number comes back as a float. -/
theorem not_forall_parse_print_leaf :
    ¬ ∀ (c : Comparison) (t : Target), IsLeaf c t →
      parse (print (some (.compare c t))) = .ok (.compare c t) := by
  intro h
  obtain ⟨j, hback, hparse⟩ := exists_parse_print_eq isLeaf_widestTarget (by decide)
  rw [h .equals widestTarget isLeaf_widestTarget, Except.ok.injEq, Expr.compare.injEq] at hparse
  have hsame : j = widestTarget.value := (congrArg Target.value hparse.2).symm
  exact hback.eq_iff.mp hsame isWide_widestTarget

/-- The widest number comes back as a float, and presence of a name that is the word that matches
everything is rejected behind the name. -/
theorem parse_print_leaf_widestTarget :
    print (some (.compare .equals widestTarget)) = "a eq 18446744073709551615" ∧
      (∃ j, ComesBack widestTarget.value j ∧ j ≠ widestTarget.value ∧
        parse (print (some (.compare .equals widestTarget))) = .ok (.compare .equals ⟨"a", j⟩)) ∧
      print (some (.compare .exists ⟨"True", .null⟩)) = "True pr" ∧
      parse (print (some (.compare .exists ⟨"True", .null⟩))) =
        .error (.unexpected 4 .unspecified) := by
  have hpresent : IsLeaf .exists ⟨"True", .null⟩ := ⟨by decide, by decide, trivial, fun _ => rfl⟩
  obtain ⟨j, hback, hparse⟩ := (parse_print_leaf isLeaf_widestTarget).2.1 (by decide)
  have hne : j ≠ widestTarget.value := fun heq => hback.eq_iff.mp heq isWide_widestTarget
  exact ⟨by decide, ⟨j, hback, hne, hparse⟩, by decide, (parse_print_leaf hpresent).1 (by decide)⟩

end AccessFilter.Query
