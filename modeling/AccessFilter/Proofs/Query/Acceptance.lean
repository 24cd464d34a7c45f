import AccessFilter.Proofs.Except
import AccessFilter.Proofs.Query.Grammar
import AccessFilter.Proofs.Text.Blank
import Mathlib.Data.List.Basic
import Mathlib.Data.List.TakeWhile
import Mathlib.Tactic.Common

/-!
# The readers accept the grammar of queries

What the grammar derives is read, and read as the expression of the derivation.  Every lemma is
about a derived text with something behind it, since that is what a reader meets.

**What may stand behind.**  Names, words and bare tokens end at the first character that cannot be
part of them, so behind an operand there is nothing, a blank or a closing parenthesis (`Ends`).  A
chain goes on as long as its joining word comes next, so behind a disjunction neither word does
(`Stops`).

**Budget.**  `expression` with a budget reads the derivations that are no higher than it
(`expression_text`), and the length of a text is budget enough.
-/

namespace AccessFilter.Query

/-! ## What may stand behind -/

/-- Whether a text begins with a blank. -/
def startsBlank : List Char → Bool
  | [] => false
  | c :: _ => Text.isSpaceOrTab c

/-- What may stand behind an operand. -/
def Ends : List Char → Prop
  | [] => True
  | c :: _ => c = ')' ∨ Text.isSpaceOrTab c = true

/-- What may stand behind a disjunction. -/
def Stops (s : List Char) : Prop :=
  Ends s ∧ joiner? ['a', 'n', 'd'] s = none ∧ joiner? ['o', 'r'] s = none

lemma eq_of_isSpaceOrTab {c : Char} (h : Text.isSpaceOrTab c = true) : c = ' ' ∨ c = '\t' := by
  simpa [Text.isSpaceOrTab] using h

lemma startsWithNameChar_of_ends {s : List Char} (h : Ends s) : startsWithNameChar s = false := by
  cases s with
  | nil => rfl
  | cons c s =>
      rcases h with rfl | h
      · rfl
      · rcases eq_of_isSpaceOrTab h with rfl | rfl <;> rfl

/-- A gap with something behind it begins with a blank. -/
lemma Gap.exists_append_eq (g : Gap) (s : List Char) :
    ∃ c t, Text.isSpaceOrTab c = true ∧ g.chars ++ s = c :: t := by
  obtain ⟨⟨cs, hblank⟩, hne⟩ := g
  cases cs with
  | nil => exact absurd rfl hne
  | cons c cs => exact ⟨c, cs ++ s, hblank c List.mem_cons_self, rfl⟩

lemma Gap.ends (g : Gap) (s : List Char) : Ends (g.chars ++ s) := by
  obtain ⟨c, t, hc, h⟩ := g.exists_append_eq s
  rw [h]
  exact .inr hc

/-! ## Blanks -/

lemma skipBlanks_eq_self {s : List Char} (h : startsBlank s = false) : skipBlanks s = s := by
  cases s with
  | nil => rfl
  | cons c s =>
      rw [startsBlank] at h
      rw [skipBlanks, List.dropWhile_cons_of_neg (by simp [h])]

lemma skipBlanks_text (b : Blanks) {s : List Char} (h : startsBlank s = false) :
    skipBlanks (b.chars ++ s) = s := by
  rw [skipBlanks, List.dropWhile_append_of_pos b.blank]
  exact skipBlanks_eq_self h

lemma blanks_text (g : Gap) {s : List Char} (h : startsBlank s = false) :
    blanks (g.chars ++ s) = .ok s := by
  obtain ⟨⟨cs, hblank⟩, hne⟩ := g
  cases cs with
  | nil => exact absurd rfl hne
  | cons c cs =>
      rw [List.cons_append, blanks, if_pos (hblank c List.mem_cons_self)]
      exact congrArg Except.ok
        (skipBlanks_text ⟨cs, fun d hd => hblank d (List.mem_cons_of_mem c hd)⟩ h)

/-! ## Words -/

lemma isSpaceOrTab_of_isBlank {c : Char} (h : Text.isBlank c = false) :
    Text.isSpaceOrTab c = false := by
  cases hc : Text.isSpaceOrTab c with
  | false => rfl
  | true => rcases eq_of_isSpaceOrTab hc with rfl | rfl <;> cases h

lemma isBlank_of_isAlpha {c : Char} (h : c.isAlpha = true) : Text.isBlank c = false :=
  Text.isBlank_of_isAlphanum (by simp [Char.isAlphanum, h])

lemma Spelling.isBlank {word : List Char} (hword : IsWord word) (w : Spelling word) :
    ∀ c ∈ w.chars, Text.isBlank c = false :=
  fun c hc => isBlank_of_isAlpha (w.isAlpha hword c hc)

lemma dropWord?_text {word : List Char} (w : Spelling word) (s : List Char) :
    Text.dropWord? word (w.chars ++ s) = some s :=
  Text.dropWord?_eq_some_iff.mpr ⟨w.chars, rfl, w.same⟩

/-- A word begins with no blank. -/
lemma Spelling.startsBlank {word : List Char} (hword : IsWord word) (w : Spelling word)
    (s : List Char) : startsBlank (w.chars ++ s) = false := by
  have hblank := w.isBlank hword
  cases hw : w.chars with
  | nil => exact absurd hw (w.ne_nil hword)
  | cons c cs =>
      rw [hw] at hblank
      exact isSpaceOrTab_of_isBlank (hblank c List.mem_cons_self)

lemma wholeWord?_text {word : List Char} (w : Spelling word) {s : List Char} (h : Ends s) :
    wholeWord? word (w.chars ++ s) = some s := by
  rw [wholeWord?, dropWord?_text]
  dsimp only
  rw [startsWithNameChar_of_ends h]
  rfl

lemma joiner?_text {word : List Char} (hword : IsWord word) (j : Joiner word) {s : List Char}
    (h : startsBlank s = false) : joiner? word (j.text ++ s) = some s := by
  have hstart := j.spelling.startsBlank hword (j.after.chars ++ s)
  rw [joiner?, Joiner.text, List.append_assoc, List.append_assoc, blanks_text j.before hstart]
  dsimp only
  rw [dropWord?_text]
  dsimp only
  rw [blanks_text j.after h]
  rfl

/-- A word begins with its first letter in one of the two cases. -/
lemma Spelling.exists_chars_eq {a : Char} {word : List Char} (w : Spelling (a :: word)) :
    ∃ c cs, w.chars = c :: cs ∧ c.toLower = a.toLower ∧ Text.lower cs = Text.lower word := by
  obtain ⟨chars, hsame⟩ := w
  cases chars with
  | nil => cases hsame
  | cons c cs => exact ⟨c, cs, rfl, (List.cons.inj hsame).1, (List.cons.inj hsame).2⟩

lemma dropWord?_eq_none {a c : Char} (h : a.toLower ≠ c.toLower) (word s : List Char) :
    Text.dropWord? (a :: word) (c :: s) = none := by
  rw [Text.dropWord?, if_neg (by simpa using h)]

/-- Where a word does not come next, no joiner does, whatever blanks there are. -/
lemma joiner?_eq_none (b : Blanks) {word s : List Char} (hs : startsBlank s = false)
    (h : Text.dropWord? word s = none) : joiner? word (b.chars ++ s) = none := by
  obtain ⟨cs, hblank⟩ := b
  cases cs with
  | nil =>
      cases s with
      | nil => rfl
      | cons c s =>
          rw [startsBlank] at hs
          rw [joiner?, List.nil_append, blanks, if_neg (by simp [hs])]
  | cons c cs =>
      have hgap := blanks_text ⟨⟨c :: cs, hblank⟩, by simp⟩ hs
      rw [joiner?, hgap]
      dsimp only
      rw [h]

/-- Where an or comes next, no and does. -/
lemma joiner?_and_or (j : Joiner ['o', 'r']) (s : List Char) :
    joiner? ['a', 'n', 'd'] (j.text ++ s) = none := by
  have hstart := j.spelling.startsBlank isWord_or (j.after.chars ++ s)
  obtain ⟨c, cs, hc, hlower, -⟩ := j.spelling.exists_chars_eq
  rw [Joiner.text, List.append_assoc, List.append_assoc]
  refine joiner?_eq_none j.before.toBlanks hstart ?_
  rw [hc]
  exact dropWord?_eq_none (by rw [hlower]; decide) _ _

lemma stops_nil : Stops [] :=
  ⟨trivial, rfl, rfl⟩

/-- Blanks and a closing parenthesis end a disjunction. -/
lemma stops_close (b : Blanks) (s : List Char) : Stops (b.chars ++ ')' :: s) := by
  refine ⟨?_, joiner?_eq_none b rfl rfl, joiner?_eq_none b rfl rfl⟩
  obtain ⟨cs, hblank⟩ := b
  cases cs with
  | nil => exact .inl rfl
  | cons c cs => exact .inr (hblank c List.mem_cons_self)

/-! ## Leaves -/

lemma name_text (n : Name) {s : List Char} (h : startsWithNameChar s = false) :
    name (n.chars ++ s) = .ok (n.chars, s) := by
  have htake : s.takeWhile isNameChar = [] := by
    cases s with
    | nil => rfl
    | cons c s =>
        rw [startsWithNameChar] at h
        exact List.takeWhile_cons_of_neg (by simp [h])
  have hdrop : s.dropWhile isNameChar = s := by
    have hsplit := List.takeWhile_append_dropWhile (p := isNameChar) (l := s)
    rwa [htake, List.nil_append] at hsplit
  rw [Name.chars, List.cons_append, name, if_pos n.letter,
    List.takeWhile_append_of_pos n.allowed, List.dropWhile_append_of_pos n.allowed, htake, hdrop,
    List.append_nil]

/-- **A name is not taken for the word that matches everything,** even if it begins with it. -/
lemma wholeWord?_name (n : Name) (g : Gap) (s : List Char) :
    wholeWord? ['t', 'r', 'u', 'e'] (n.chars ++ (g.chars ++ s)) = none := by
  cases hdrop : Text.dropWord? ['t', 'r', 'u', 'e'] (n.chars ++ (g.chars ++ s)) with
  | none => rw [wholeWord?, hdrop]
  | some rest =>
      obtain ⟨w, hw, hlower⟩ := Text.dropWord?_eq_some_iff.mp hdrop
      have hne : w ≠ n.chars := by
        rintro rfl
        exact n.free hlower
      rcases List.append_eq_append_iff.mp hw with ⟨as, rfl, has⟩ | ⟨bs, hbs, rfl⟩
      · -- the word would go on with the blank behind the name
        obtain ⟨c, t, hc, hg⟩ := g.exists_append_eq s
        cases as with
        | nil => exact absurd (List.append_nil _) hne
        | cons a as =>
            rw [hg] at has
            obtain ⟨rfl, -⟩ := List.cons.inj has
            have hletter := Spelling.isBlank isWord_all ⟨_, hlower⟩ c (by simp)
            rw [isSpaceOrTab_of_isBlank hletter] at hc
            cases hc
      · -- the word ends within the name
        cases bs with
        | nil =>
            rw [List.append_nil] at hbs
            exact absurd hbs.symm hne
        | cons b bs =>
            have hb : isNameChar b = true := n.isNameChar b (by simp [hbs])
            rw [wholeWord?, hdrop]
            exact if_pos hb

/-- A text between quotes is read up to the quote that closes it. -/
lemma quotedText_pieces (s : List Char) : ∀ ps : List QuotedPiece,
    quotedText (ps.flatMap QuotedPiece.text ++ '\'' :: s) = .ok (ps.map QuotedPiece.char, s) := by
  intro ps
  induction ps with
  | nil =>
      rw [List.flatMap_nil, List.nil_append, quotedText]
      · rfl
      · simp
      · simp
  | cons p ps ih =>
      rw [List.flatMap_cons, List.append_assoc]
      cases p with
      | plain c h =>
          rw [QuotedPiece.text, List.singleton_append, quotedText, if_neg h.1, ih]
          · rfl
          · intro hc
            exact absurd hc h.2
          · intro d t hc
            exact absurd hc h.2
      | escaped c =>
          rw [QuotedPiece.text, List.cons_append, List.singleton_append, quotedText, ih]
          rfl

lemma isTokenChar_of_token? {s : List Char} {j : Json} (h : token? s = some j) :
    ∀ c ∈ s, isTokenChar c = true ∧ c ≠ '\'' := by
  intro c hc
  have hmark := isMark_of_token? h c hc
  simp only [isMark, Bool.or_eq_false_iff, beq_eq_false_iff_ne] at hmark
  obtain ⟨⟨-, hclose⟩, hquote⟩ := hmark
  have hblank : Text.isBlank c = false := by
    have hchar := List.all_eq_true.mp (of_token? h).2 c hc
    rw [Bool.or_eq_true] at hchar
    rcases hchar with hc | hc
    · exact isBlank_of_isAlpha hc
    · simp only [Literal.isNumberChar, Bool.or_eq_true, beq_iff_eq] at hc
      rcases hc with ((((hc | rfl) | rfl) | rfl) | rfl) | rfl
      · exact Text.isBlank_of_isAlphanum (by simp [Char.isAlphanum, hc])
      all_goals decide
  refine ⟨?_, hquote⟩
  simp [isTokenChar, hblank, hclose]

/-- A token is read up to its end. -/
lemma value_token {cs s : List Char} {j : Json} (hj : token? cs = some j) (h : Ends s) :
    value (cs ++ s) = .ok (j, s) := by
  have hchars := isTokenChar_of_token? hj
  have htake : s.takeWhile isTokenChar = [] := by
    cases s with
    | nil => rfl
    | cons c s =>
        refine List.takeWhile_cons_of_neg ?_
        rcases h with rfl | h
        · decide
        · rcases eq_of_isSpaceOrTab h with rfl | rfl <;> decide
  have hdrop : s.dropWhile isTokenChar = s := by
    have hsplit := List.takeWhile_append_dropWhile (p := isTokenChar) (l := s)
    rwa [htake, List.nil_append] at hsplit
  have hall : ∀ c ∈ cs, isTokenChar c = true := fun c hc => (hchars c hc).1
  have htake' : (cs ++ s).takeWhile isTokenChar = cs := by
    rw [List.takeWhile_append_of_pos hall, htake, List.append_nil]
  have hdrop' : (cs ++ s).dropWhile isTokenChar = s := by
    rw [List.dropWhile_append_of_pos hall, hdrop]
  cases cs with
  | nil => exact absurd rfl (of_token? hj).1
  | cons c cs =>
      have hquote := (hchars c List.mem_cons_self).2
      rw [List.cons_append] at htake' hdrop'
      rw [List.cons_append, value, if_neg hquote, htake', hj, hdrop']

lemma value_text (v : ValueForm) {s : List Char} (h : Ends s) :
    value (v.text ++ s) = .ok (v.json, s) := by
  obtain ⟨ps, rfl⟩ | hj := v.quoted_or_token?
  · rw [ValueForm.text, List.append_assoc, List.cons_append, value, if_pos rfl]
    rw [List.singleton_append, quotedText_pieces]
    rfl
  · exact value_token hj h

/-- The words of comparisons have two letters. -/
lemma ComparisonWord.exists_chars_eq (w : ComparisonWord) :
    ∃ a b, w.spelling.chars = [a, b] ∧
      ([a.toLower, b.toLower], w.comparison) ∈ comparisonWords := by
  have hwords : ∀ x ∈ comparisonWords, x.1.length = 2 ∧ Text.lower x.1 = x.1 := by decide
  obtain ⟨hlength, hlower⟩ := hwords _ w.listed
  have hsame := w.spelling.same
  rw [hlower] at hsame
  have hchars : w.spelling.chars.length = 2 := by
    rw [← hlength, ← hsame, Text.lower, List.length_map]
  obtain ⟨a, b, hab⟩ := List.length_eq_two.mp hchars
  rw [hab] at hsame
  refine ⟨a, b, hab, ?_⟩
  have hword : [a.toLower, b.toLower] = w.word := hsame
  rw [hword]
  exact w.listed

/-- **Each comparison has its own word.** -/
lemma comparisonWord?_text (w : ComparisonWord) (s : List Char) :
    comparisonWord? (w.spelling.chars ++ s) = some (w.comparison, s) := by
  obtain ⟨a, b, hab, hlisted⟩ := w.exists_chars_eq
  rw [hab]
  simp only [comparisonWords, List.mem_cons, List.not_mem_nil, or_false, Prod.mk.injEq,
    List.cons.injEq, and_true] at hlisted
  rcases hlisted with h | h | h | h | h | h | h | h
  all_goals
    obtain ⟨⟨ha, hb⟩, hc⟩ := h
    simp [comparisonWord?, comparisonWords, Text.dropWord?, ha, hb, hc]

/-- No comparison has the word for presence. -/
lemma wholeWord?_comparisonWord (w : ComparisonWord) (s : List Char) :
    wholeWord? ['p', 'r'] (w.spelling.chars ++ s) = none := by
  obtain ⟨a, b, hab, hlisted⟩ := w.exists_chars_eq
  have hfirst : ∀ x ∈ comparisonWords, x.1.head? ≠ some 'p' := by decide
  have ha : 'p'.toLower ≠ a.toLower := by
    intro h
    exact hfirst _ hlisted (congrArg some h.symm)
  rw [hab, List.cons_append, wholeWord?, dropWord?_eq_none ha]

/-! ## Operands -/

lemma isBlank_of_isTokenChar {c : Char} (h : isTokenChar c = true) : Text.isBlank c = false := by
  simp only [isTokenChar, Bool.and_eq_true, Bool.not_eq_true'] at h
  exact h.1

lemma ValueForm.startsBlank (v : ValueForm) (s : List Char) :
    startsBlank (v.text ++ s) = false := by
  obtain ⟨ps, rfl⟩ | h := v.quoted_or_token?
  · rfl
  · obtain ⟨c, cs, hcs⟩ := List.exists_cons_of_ne_nil (of_token? h).1
    have hc : isTokenChar c = true := (isTokenChar_of_token? h c (by rw [hcs]; simp)).1
    rw [hcs]
    exact isSpaceOrTab_of_isBlank (isBlank_of_isTokenChar hc)

/-- The first character of a derived text is no blank. -/
lemma Operand.exists_text_eq (o : Operand) : ∃ c s, o.text = c :: s ∧ Text.isBlank c = false := by
  cases o with
  | negation gap before d after => exact ⟨'!', _, by rw [Operand.text]; rfl, by decide⟩
  | parentheses before d after => exact ⟨'(', _, by rw [Operand.text]; rfl, by decide⟩
  | all word =>
      obtain ⟨c, cs, hc, -, -⟩ := word.exists_chars_eq
      refine ⟨c, cs, by rw [Operand.text, hc], word.isBlank isWord_all c ?_⟩
      rw [hc]
      exact List.mem_cons_self
  | present name gap word =>
      exact ⟨name.initial, _, by rw [Operand.text]; rfl, isBlank_of_isAlpha name.letter⟩
  | compare name gap word space value =>
      exact ⟨name.initial, _, by rw [Operand.text]; rfl, isBlank_of_isAlpha name.letter⟩

lemma Conjunction.exists_text_eq (k : Conjunction) :
    ∃ c s, k.text = c :: s ∧ Text.isBlank c = false := by
  cases k with
  | single o => exact o.exists_text_eq
  | joined o j k =>
      obtain ⟨c, s, hs, hc⟩ := o.exists_text_eq
      exact ⟨c, _, by rw [Conjunction.text, hs]; rfl, hc⟩

lemma Disjunction.exists_text_eq (d : Disjunction) :
    ∃ c s, d.text = c :: s ∧ Text.isBlank c = false := by
  cases d with
  | single k => exact k.exists_text_eq
  | joined k j d =>
      obtain ⟨c, s, hs, hc⟩ := k.exists_text_eq
      exact ⟨c, _, by rw [Disjunction.text, hs]; rfl, hc⟩

lemma Operand.startsBlank_text (o : Operand) (s : List Char) :
    startsBlank (o.text ++ s) = false := by
  obtain ⟨c, t, ht, hc⟩ := o.exists_text_eq
  rw [ht]
  exact isSpaceOrTab_of_isBlank hc

lemma Conjunction.startsBlank_text (c : Conjunction) (s : List Char) :
    startsBlank (c.text ++ s) = false := by
  obtain ⟨a, t, ht, ha⟩ := c.exists_text_eq
  rw [ht]
  exact isSpaceOrTab_of_isBlank ha

lemma Disjunction.startsBlank_text (d : Disjunction) (s : List Char) :
    startsBlank (d.text ++ s) = false := by
  obtain ⟨a, t, ht, ha⟩ := d.exists_text_eq
  rw [ht]
  exact isSpaceOrTab_of_isBlank ha

/-- What a reader for the inside of parentheses has to satisfy: it reads the derivations that are
lower than `height`, as long as something stands behind them that stops it. -/
def ReadsBelow (height : Nat) (inner : List Char → Except Fault (Expr × List Char)) : Prop :=
  ∀ (d : Disjunction) (s : List Char), d.height < height → Stops s →
    inner (d.text ++ s) = .ok (d.expr, s)

lemma parentheses_text {height : Nat} {inner : List Char → Except Fault (Expr × List Char)}
    (hinner : ReadsBelow height inner) (before after : Blanks) {d : Disjunction}
    (hd : d.height < height) (s : List Char) :
    parentheses inner ('(' :: (before.chars ++ (d.text ++ (after.chars ++ ')' :: s)))) =
      .ok (d.expr, s) := by
  rw [parentheses, if_pos rfl, skipBlanks_text before (d.startsBlank_text _),
    hinner d _ hd (stops_close after s), ok_bind]
  dsimp only
  rw [skipBlanks_text after rfl]
  rfl

/-- **The comparison reader reads a derived comparison.** -/
lemma comparison_present (name : Name) (gap : Gap) (word : Spelling ['p', 'r']) {s : List Char}
    (h : Ends s) :
    comparison (name.chars ++ (gap.chars ++ (word.chars ++ s))) =
      .ok (Expr.isPresent (String.ofList name.chars), s) := by
  have hname := name_text name (startsWithNameChar_of_ends (gap.ends (word.chars ++ s)))
  have hstart := word.startsBlank isWord_present s
  rw [comparison, hname, ok_bind]
  dsimp only
  rw [blanks_text gap hstart, ok_bind, wholeWord?_text word h]
  rfl

lemma comparison_compare (name : Name) (gap : Gap) (word : ComparisonWord) (space : Gap)
    (v : ValueForm) {s : List Char} (h : Ends s) :
    comparison
        (name.chars ++ (gap.chars ++ (word.spelling.chars ++ (space.chars ++ (v.text ++ s))))) =
      .ok (.compare word.comparison ⟨String.ofList name.chars, v.json⟩, s) := by
  have hname := name_text name (startsWithNameChar_of_ends
    (gap.ends (word.spelling.chars ++ (space.chars ++ (v.text ++ s)))))
  have hstart := word.spelling.startsBlank word.isWord (space.chars ++ (v.text ++ s))
  rw [comparison, hname, ok_bind]
  dsimp only
  rw [blanks_text gap hstart, ok_bind, wholeWord?_comparisonWord, comparisonWord?_text]
  dsimp only
  rw [blanks_text space (v.startsBlank s), ok_bind, value_text v h]
  rfl

/-- What begins with none of the signs is a leaf. -/
lemma operand_leaf {inner : List Char → Except Fault (Expr × List Char)} {c : Char} {s : List Char}
    (hnot : c ≠ '!') (hopen : c ≠ '(') :
    operand inner (c :: s) =
      match wholeWord? ['t', 'r', 'u', 'e'] (c :: s) with
      | some rest => .ok (.all, rest)
      | none => comparison (c :: s) := by
  unfold operand
  split
  · next heq => exact absurd (List.cons.inj heq).1 hnot
  · next heq => exact absurd (List.cons.inj heq).1 hopen
  · rfl

/-- What begins with a name is a comparison. -/
lemma operand_name {inner : List Char → Except Fault (Expr × List Char)} (n : Name) (g : Gap)
    (s : List Char) :
    operand inner (n.chars ++ (g.chars ++ s)) = comparison (n.chars ++ (g.chars ++ s)) := by
  have hword := wholeWord?_name n g s
  have hmark := n.isNameChar n.initial List.mem_cons_self
  rw [Name.chars, List.cons_append] at hword ⊢
  rw [operand_leaf, hword]
  · intro h
    rw [h] at hmark
    cases hmark
  · intro h
    rw [h] at hmark
    cases hmark

/-- **The operand reader reads a derived operand.** -/
lemma operand_text {height : Nat} {inner : List Char → Except Fault (Expr × List Char)}
    (hinner : ReadsBelow height inner) (o : Operand) (ho : o.height ≤ height) {s : List Char}
    (h : Ends s) : operand inner (o.text ++ s) = .ok (o.expr, s) := by
  cases o with
  | negation gap before d after =>
      rw [Operand.height] at ho
      have hparen := parentheses_text hinner before after (Nat.lt_of_succ_le ho) s
      rw [Operand.text, Operand.expr]
      simp only [List.append_assoc, List.cons_append, List.nil_append]
      rw [operand, skipBlanks_text gap rfl, hparen]
      rfl
  | parentheses before d after =>
      rw [Operand.height] at ho
      have hparen := parentheses_text hinner before after (Nat.lt_of_succ_le ho) s
      rw [Operand.text, Operand.expr]
      simp only [List.append_assoc, List.cons_append, List.nil_append]
      rw [operand, hparen]
      rfl
  | all word =>
      obtain ⟨c, cs, hc, hlower, -⟩ := word.exists_chars_eq
      have hword := wholeWord?_text word h
      rw [Operand.text, Operand.expr]
      rw [hc, List.cons_append] at hword ⊢
      rw [operand_leaf, hword]
      · rintro rfl; revert hlower; decide
      · rintro rfl; revert hlower; decide
  | present name gap word =>
      rw [Operand.text, Operand.expr, List.append_assoc, List.append_assoc, operand_name,
        comparison_present name gap word h]
  | compare name gap word space value =>
      rw [Operand.text, Operand.expr]
      simp only [List.append_assoc]
      rw [operand_name, comparison_compare name gap word space value h]

/-! ## Chains -/

lemma Operand.length_text_pos (o : Operand) : 0 < o.text.length := by
  obtain ⟨a, t, ht, -⟩ := o.exists_text_eq
  simp [ht]

lemma Conjunction.length_text_pos (c : Conjunction) : 0 < c.text.length := by
  obtain ⟨a, t, ht, -⟩ := c.exists_text_eq
  simp [ht]

/-- There are no more operands than characters. -/
lemma Conjunction.length_exprs_le (c : Conjunction) : c.exprs.length ≤ c.text.length := by
  induction c with
  | single o => exact o.length_text_pos
  | joined o j c ih =>
      have hpos := o.length_text_pos
      rw [Conjunction.exprs, Conjunction.text]
      simp only [List.length_cons, List.length_append]
      omega

lemma Disjunction.length_exprs_le (d : Disjunction) : d.exprs.length ≤ d.text.length := by
  induction d with
  | single c => exact c.length_text_pos
  | joined c j d ih =>
      have hpos := c.length_text_pos
      rw [Disjunction.exprs, Disjunction.text]
      simp only [List.length_cons, List.length_append]
      omega

lemma chainTail_stop {word : List Char} {one : List Char → Except Fault (Expr × List Char)}
    {s : List Char} (h : joiner? word s = none) (steps : Nat) :
    chainTail word one steps s = .ok ([], s) := by
  cases steps with
  | zero => rfl
  | succ steps => rw [chainTail, h]

/-- A chain goes on with an operand behind a joining word. -/
lemma chainTail_cons {word : List Char} {one : List Char → Except Fault (Expr × List Char)}
    (hword : IsWord word) (j : Joiner word) {steps : Nat} {s t r : List Char} {e : Expr}
    {es : List Expr} (hs : startsBlank s = false) (hone : one s = .ok (e, t))
    (htail : chainTail word one steps t = .ok (es, r)) :
    chainTail word one (steps + 1) (j.text ++ s) = .ok (e :: es, r) := by
  rw [chainTail, joiner?_text hword j hs]
  dsimp only
  rw [hone, ok_bind]
  dsimp only
  rw [htail]
  rfl

lemma chain_eq_ok {word : List Char} {make : List Expr → Expr}
    {one : List Char → Except Fault (Expr × List Char)} {s t r : List Char} {e : Expr}
    {es : List Expr} (hone : one s = .ok (e, t))
    (htail : chainTail word one t.length t = .ok (es, r)) :
    chain word make one s = .ok (joinExprs make (e :: es), r) := by
  rw [chain, hone, ok_bind]
  dsimp only
  rw [htail]
  cases es <;> rfl

/-- Joining words begin with blanks. -/
lemma Joiner.ends {word : List Char} (j : Joiner word) (s : List Char) : Ends (j.text ++ s) := by
  rw [Joiner.text, List.append_assoc, List.append_assoc]
  exact j.before.ends _

section

variable {height : Nat} {inner : List Char → Except Fault (Expr × List Char)}
  (hinner : ReadsBelow height inner)
include hinner

/-- The operands behind the first one. -/
lemma chainTail_conjunction {s : List Char} (hends : Ends s)
    (hand : joiner? ['a', 'n', 'd'] s = none) (j : Joiner ['a', 'n', 'd']) :
    ∀ (c : Conjunction) (steps : Nat), c.height ≤ height → c.exprs.length ≤ steps →
      chainTail ['a', 'n', 'd'] (operand inner) steps (j.text ++ (c.text ++ s)) =
        .ok (c.exprs, s) := by
  intro c
  induction c generalizing j with
  | single o =>
      intro steps hc hsteps
      rw [Conjunction.height] at hc
      rw [Conjunction.exprs, List.length_singleton] at hsteps
      obtain ⟨steps, rfl⟩ := Nat.exists_eq_add_of_le' hsteps
      exact chainTail_cons isWord_and j (o.startsBlank_text s)
        (operand_text hinner o hc hends) (chainTail_stop hand steps)
  | joined o k c ih =>
      intro steps hc hsteps
      rw [Conjunction.height] at hc
      rw [Conjunction.exprs, List.length_cons] at hsteps
      obtain ⟨steps, rfl⟩ := Nat.exists_eq_add_of_le' (Nat.le_trans (Nat.le_add_left 1 _) hsteps)
      rw [Conjunction.text, List.append_assoc, List.append_assoc]
      exact chainTail_cons isWord_and j (o.startsBlank_text _)
        (operand_text hinner o (by omega) (k.ends _)) (ih k steps (by omega) (by omega))

/-- **The reader of conjunctions reads a derived conjunction.** -/
lemma andChain_text {s : List Char} (hends : Ends s) (hand : joiner? ['a', 'n', 'd'] s = none)
    (c : Conjunction) (hc : c.height ≤ height) :
    andChain inner (c.text ++ s) = .ok (c.expr, s) := by
  cases c with
  | single o =>
      rw [Conjunction.height] at hc
      exact chain_eq_ok (operand_text hinner o hc hends) (chainTail_stop hand _)
  | joined o j c =>
      rw [Conjunction.height] at hc
      have hlength : c.exprs.length ≤ (j.text ++ (c.text ++ s)).length := by
        have hle := c.length_exprs_le
        simp only [List.length_append]
        omega
      rw [Conjunction.text, List.append_assoc, List.append_assoc, Conjunction.expr,
        Conjunction.exprs]
      exact chain_eq_ok (operand_text hinner o (by omega) (j.ends _))
        (chainTail_conjunction hinner hends hand j c _ (by omega) hlength)

/-- The conjunctions behind the first one. -/
lemma chainTail_disjunction {s : List Char} (hstops : Stops s) (j : Joiner ['o', 'r']) :
    ∀ (d : Disjunction) (steps : Nat), d.height ≤ height → d.exprs.length ≤ steps →
      chainTail ['o', 'r'] (andChain inner) steps (j.text ++ (d.text ++ s)) =
        .ok (d.exprs, s) := by
  intro d
  induction d generalizing j with
  | single c =>
      intro steps hd hsteps
      rw [Disjunction.height] at hd
      rw [Disjunction.exprs, List.length_singleton] at hsteps
      obtain ⟨steps, rfl⟩ := Nat.exists_eq_add_of_le' hsteps
      exact chainTail_cons isWord_or j (c.startsBlank_text s)
        (andChain_text hinner hstops.1 hstops.2.1 c hd) (chainTail_stop hstops.2.2 steps)
  | joined c k d ih =>
      intro steps hd hsteps
      rw [Disjunction.height] at hd
      rw [Disjunction.exprs, List.length_cons] at hsteps
      obtain ⟨steps, rfl⟩ := Nat.exists_eq_add_of_le' (Nat.le_trans (Nat.le_add_left 1 _) hsteps)
      rw [Disjunction.text, List.append_assoc, List.append_assoc]
      exact chainTail_cons isWord_or j (c.startsBlank_text _)
        (andChain_text hinner (k.ends _) (joiner?_and_or k _) c (by omega))
        (ih k steps (by omega) (by omega))

/-- **The reader of disjunctions reads a derived disjunction.** -/
lemma orChain_text {s : List Char} (hstops : Stops s) (d : Disjunction) (hd : d.height ≤ height) :
    orChain inner (d.text ++ s) = .ok (d.expr, s) := by
  cases d with
  | single c =>
      rw [Disjunction.height] at hd
      exact chain_eq_ok (andChain_text hinner hstops.1 hstops.2.1 c hd)
        (chainTail_stop hstops.2.2 _)
  | joined c j d =>
      rw [Disjunction.height] at hd
      have hlength : d.exprs.length ≤ (j.text ++ (d.text ++ s)).length := by
        have hle := d.length_exprs_le
        simp only [List.length_append]
        omega
      rw [Disjunction.text, List.append_assoc, List.append_assoc, Disjunction.expr,
        Disjunction.exprs]
      exact chain_eq_ok (andChain_text hinner (j.ends _) (joiner?_and_or j _) c (by omega))
        (chainTail_disjunction hinner hstops j d _ (by omega) hlength)

end

/-! ## Whole texts -/

/-- **An expression is read with a budget that covers its height.** -/
theorem expression_text : ∀ (budget : Nat) (d : Disjunction) {s : List Char}, Stops s →
    d.height ≤ budget → expression budget (d.text ++ s) = .ok (d.expr, s) := by
  intro budget
  induction budget with
  | zero =>
      intro d s hstops hd
      exact orChain_text (fun _ _ h => absurd h (Nat.not_lt_zero _)) hstops d hd
  | succ budget ih =>
      intro d s hstops hd
      refine orChain_text (fun e t he ht => ?_) hstops d hd
      exact ih e ht (Nat.le_of_lt_succ he)

lemma wholeExpression_text (d : Disjunction) :
    wholeExpression d.text.length d.text = .ok d.expr := by
  have hheight : d.height ≤ d.text.length := by
    rw [← d.nesting_text]
    exact nesting_le_length d.text
  have h := expression_text d.text.length d stops_nil hheight
  rw [List.append_nil] at h
  rw [wholeExpression, h]
  rfl

/-! ### Trimming -/

lemma Spelling.endsVisibly {word : List Char} (hword : IsWord word) (w : Spelling word) :
    Text.EndsVisibly w.chars :=
  Text.endsVisibly_of_forall (w.ne_nil hword) (w.isBlank hword)

lemma ValueForm.endsVisibly (v : ValueForm) : Text.EndsVisibly v.text := by
  obtain ⟨ps, rfl⟩ | h := v.quoted_or_token?
  · exact ⟨_, '\'', rfl, by decide⟩
  · refine Text.endsVisibly_of_forall (of_token? h).1 fun c hc => ?_
    exact isBlank_of_isTokenChar (isTokenChar_of_token? h c hc).1

lemma Operand.endsVisibly (o : Operand) : Text.EndsVisibly o.text := by
  cases o with
  | negation gap before d after => exact ⟨_, ')', by rw [Operand.text], by decide⟩
  | parentheses before d after => exact ⟨_, ')', by rw [Operand.text], by decide⟩
  | all word =>
      rw [Operand.text]
      exact word.endsVisibly isWord_all
  | present name gap word =>
      rw [Operand.text]
      exact (word.endsVisibly isWord_present).append _
  | compare name gap word space value =>
      rw [Operand.text]
      exact value.endsVisibly.append _

lemma Conjunction.endsVisibly (c : Conjunction) : Text.EndsVisibly c.text := by
  induction c with
  | single o => exact o.endsVisibly
  | joined o j c ih =>
      rw [Conjunction.text]
      exact ih.append _

lemma Disjunction.endsVisibly (d : Disjunction) : Text.EndsVisibly d.text := by
  induction d with
  | single c => exact c.endsVisibly
  | joined c j d ih =>
      rw [Disjunction.text]
      exact ih.append _

/-- Derived texts have no blanks to trim. -/
lemma Disjunction.trim_text (d : Disjunction) : Text.trim d.text = d.text := by
  refine Text.trim_eq_self ?_ d.endsVisibly
  obtain ⟨c, s, hs, hc⟩ := d.exists_text_eq
  rw [hs]
  simpa using hc

/-! ### Parsing -/

/-- **A derived text is read** as the expression of its derivation, or rejected because it nests too
deeply.  Blanks around it do not count. -/
theorem parse_of_trim_eq {s : String} {d : Disjunction} (h : Text.trim s.toList = d.text) :
    parse s = if nesting d.text ≤ nestingLimit then .ok d.expr else .error .tooDeep := by
  have hne : d.text.isEmpty = false := by
    obtain ⟨a, t, ht, -⟩ := d.exists_text_eq
    rw [ht]
    rfl
  rw [parse, h]
  by_cases hdeep : nesting d.text ≤ nestingLimit
  · have hkeeps := (keepsNestingLimit_iff d.text).mpr hdeep
    simp [hne, hkeeps, hdeep, wholeExpression_text]
  · have hkeeps : keepsNestingLimit d.text = false := by
      rw [← Bool.not_eq_true, keepsNestingLimit_iff]
      exact hdeep
    simp [hne, hkeeps, hdeep]

lemma parse_text (d : Disjunction) :
    parse (String.ofList d.text) =
      if nesting d.text ≤ nestingLimit then .ok d.expr else .error .tooDeep :=
  parse_of_trim_eq (by rw [String.toList_ofList, d.trim_text])

end AccessFilter.Query
