import AccessFilter.Proofs.Number.Token
import AccessFilter.Proofs.Query.Nesting
import Mathlib.Tactic.Common

/-!
# The grammar of queries

A derivation is a tree of its own, which knows the text it derives and the expression that this text
stands for.  Of the readers it mentions only the one for numbers, which says what texts are numeric
literals and which number each of them is.

**Precedence.**  A `Disjunction` joins conjunctions by or, a `Conjunction` joins operands by and,
and an `Operand` is a leaf or has a disjunction in parentheses.  What joins one thing only stands
for that thing.

**Free choices.**  Words are spelled in any letter case, those of values in small letters only.  A
`Gap` is any number of blanks but none, and `Blanks` may be none.

**Nesting.**  The number of parentheses that are open at once shows in the text: it is the `nesting`
of the text (`nesting_text`), since no leaf has an open parenthesis outside quotes.
-/

namespace AccessFilter.Query

/-! ## Words and blanks -/

/-- Blanks between two words, perhaps none. -/
structure Blanks where
  chars : List Char
  blank : ∀ c ∈ chars, Text.isSpaceOrTab c = true

/-- Blanks between two words, at least one. -/
structure Gap extends Blanks where
  nonempty : chars ≠ []

/-- A word with its letters in any case. -/
structure Spelling (word : List Char) where
  chars : List Char
  same : Text.lower chars = Text.lower word

/-- A word between operands. -/
structure Joiner (word : List Char) where
  before : Gap
  spelling : Spelling word
  after : Gap

def Joiner.text {word : List Char} (j : Joiner word) : List Char :=
  j.before.chars ++ j.spelling.chars ++ j.after.chars

/-- The word of a comparison. -/
structure ComparisonWord where
  comparison : Comparison
  word : List Char
  listed : (word, comparison) ∈ comparisonWords
  spelling : Spelling word

/-- The name of a target, which is not the word that matches everything. -/
structure Name where
  initial : Char
  rest : List Char
  letter : initial.isAlpha = true
  allowed : ∀ c ∈ rest, isNameChar c = true
  free : Text.lower (initial :: rest) ≠ ['t', 'r', 'u', 'e']

def Name.chars (n : Name) : List Char :=
  n.initial :: n.rest

/-! ## Values -/

/-- A character between quotes. -/
inductive QuotedPiece where
  | plain (c : Char) (allowed : c ≠ '\'' ∧ c ≠ '\\')
  | escaped (c : Char)

namespace QuotedPiece

/-- The piece as it is written. -/
def text : QuotedPiece → List Char
  | plain c _ => [c]
  | escaped c => ['\\', c]

/-- The character that the piece stands for. -/
def char : QuotedPiece → Char
  | plain c _ => c
  | escaped c => c

end QuotedPiece

/-- A value: a text between quotes, or one of the three words, or a numeric literal. -/
inductive ValueForm where
  | quoted (pieces : List QuotedPiece)
  | bool (value : Bool)
  | null
  | number (chars : List Char) (value : Number)
    (spelled : Number.ofQueryToken? chars = some value)

namespace ValueForm

/-- The value as it is written.  The words have small letters only. -/
def text : ValueForm → List Char
  | quoted ps => '\'' :: ps.flatMap QuotedPiece.text ++ ['\'']
  | bool true => ['t', 'r', 'u', 'e']
  | bool false => ['f', 'a', 'l', 's', 'e']
  | null => ['n', 'u', 'l', 'l']
  | number cs _ _ => cs

/-- The value itself. -/
def json : ValueForm → Json
  | quoted ps => .string (String.ofList (ps.map QuotedPiece.char))
  | bool b => .bool b
  | null => .null
  | number _ n _ => .number n

end ValueForm

/-! ## Derivations -/

mutual

/-- A derivation of an operand. -/
inductive Operand where
  | negation (gap before : Blanks) (inner : Disjunction) (after : Blanks)
  | parentheses (before : Blanks) (inner : Disjunction) (after : Blanks)
  | all (word : Spelling ['t', 'r', 'u', 'e'])
  | present (name : Name) (gap : Gap) (word : Spelling ['p', 'r'])
  | compare (name : Name) (gap : Gap) (word : ComparisonWord) (space : Gap) (value : ValueForm)

/-- A derivation of operands that are joined by and. -/
inductive Conjunction where
  | single (operand : Operand)
  | joined (operand : Operand) (joiner : Joiner ['a', 'n', 'd']) (others : Conjunction)

/-- **A derivation of a query:** conjunctions that are joined by or. -/
inductive Disjunction where
  | single (conjunction : Conjunction)
  | joined (conjunction : Conjunction) (joiner : Joiner ['o', 'r']) (others : Disjunction)

end

/-- Induction on the operands that a conjunction joins. -/
@[elab_as_elim, induction_eliminator]
theorem Conjunction.chainInduction {motive : Conjunction → Prop}
    (single : ∀ o, motive (.single o)) (joined : ∀ o j c, motive c → motive (.joined o j c)) :
    ∀ c, motive c
  | .single o => single o
  | .joined o j c => joined o j c (Conjunction.chainInduction single joined c)

/-- Induction on the conjunctions that a disjunction joins. -/
@[elab_as_elim, induction_eliminator]
theorem Disjunction.chainInduction {motive : Disjunction → Prop}
    (single : ∀ c, motive (.single c)) (joined : ∀ c j d, motive d → motive (.joined c j d)) :
    ∀ d, motive d
  | .single c => single c
  | .joined c j d => joined c j d (Disjunction.chainInduction single joined d)

mutual

/-- The text that is derived. -/
def Operand.text : Operand → List Char
  | .negation gap before d after =>
    '!' :: gap.chars ++ '(' :: before.chars ++ d.text ++ after.chars ++ [')']
  | .parentheses before d after => '(' :: before.chars ++ d.text ++ after.chars ++ [')']
  | .all word => word.chars
  | .present name gap word => name.chars ++ gap.chars ++ word.chars
  | .compare name gap word space value =>
    name.chars ++ gap.chars ++ word.spelling.chars ++ space.chars ++ value.text

def Conjunction.text : Conjunction → List Char
  | .single o => o.text
  | .joined o j c => o.text ++ j.text ++ c.text

def Disjunction.text : Disjunction → List Char
  | .single c => c.text
  | .joined c j d => c.text ++ j.text ++ d.text

end

/-- Expressions joined by an operator; a single one stands for itself. -/
def joinExprs (make : List Expr → Expr) : List Expr → Expr
  | [e] => e
  | es => make es

mutual

/-- The expression that an operand stands for. -/
def Operand.expr : Operand → Expr
  | .negation _ _ d _ => .not (joinExprs .or d.exprs)
  | .parentheses _ d _ => joinExprs .or d.exprs
  | .all _ => .all
  | .present name _ _ => Expr.isPresent (String.ofList name.chars)
  | .compare name _ word _ value => .compare word.comparison ⟨String.ofList name.chars, value.json⟩

/-- The expressions of the operands of a conjunction. -/
def Conjunction.exprs : Conjunction → List Expr
  | .single o => [o.expr]
  | .joined o _ c => o.expr :: c.exprs

/-- The expressions of the conjunctions of a disjunction. -/
def Disjunction.exprs : Disjunction → List Expr
  | .single c => [joinExprs .and c.exprs]
  | .joined c _ d => joinExprs .and c.exprs :: d.exprs

end

/-- The expression that a conjunction stands for. -/
def Conjunction.expr (c : Conjunction) : Expr :=
  joinExprs .and c.exprs

/-- **The expression that a query stands for.** -/
def Disjunction.expr (d : Disjunction) : Expr :=
  joinExprs .or d.exprs

mutual

/-- How many parentheses are open at once. -/
def Operand.height : Operand → Nat
  | .negation _ _ d _ | .parentheses _ d _ => d.height + 1
  | .all _ | .present .. | .compare .. => 0

def Conjunction.height : Conjunction → Nat
  | .single o => o.height
  | .joined o _ c => max o.height c.height

def Disjunction.height : Disjunction → Nat
  | .single c => c.height
  | .joined c _ d => max c.height d.height

end

/-! ## Tokens -/

lemma token?_number {s : List Char} {n : Number} (h : Number.ofQueryToken? s = some n) :
    token? s = some (.number n) := by
  unfold token?
  split_ifs with htrue hfalse hnull
  · subst htrue
    cases h
  · subst hfalse
    cases h
  · subst hnull
    cases h
  · rw [h]
    rfl

/-- What is not written between quotes is read as a token. -/
lemma ValueForm.quoted_or_token? (v : ValueForm) :
    (∃ ps, v = .quoted ps) ∨ token? v.text = some v.json := by
  cases v with
  | quoted ps => exact .inl ⟨ps, rfl⟩
  | bool b => cases b <;> exact .inr rfl
  | null => exact .inr rfl
  | number cs n h => exact .inr (token?_number h)

/-- **The tokens are the three words and the numeric literals.** -/
lemma exists_valueForm_of_token? {s : List Char} {j : Json} (h : token? s = some j) :
    ∃ v : ValueForm, v.text = s ∧ v.json = j := by
  unfold token? at h
  split_ifs at h with htrue hfalse hnull
  · exact ⟨.bool true, htrue.symm, Option.some.inj h⟩
  · exact ⟨.bool false, hfalse.symm, Option.some.inj h⟩
  · exact ⟨.null, hnull.symm, Option.some.inj h⟩
  · obtain ⟨n, hn, hj⟩ := Option.map_eq_some_iff.mp h
    exact ⟨.number s n hn, rfl, hj⟩

/-! ## Characters of the leaves -/

lemma isMark_of_isSpaceOrTab {c : Char} (h : Text.isSpaceOrTab c = true) : isMark c = false := by
  simp only [Text.isSpaceOrTab, Bool.or_eq_true, beq_iff_eq] at h
  rcases h with rfl | rfl <;> decide

lemma isMark_of_isNameChar {c : Char} (h : isNameChar c = true) : isMark c = false := by
  cases hc : isMark c with
  | false => rfl
  | true =>
      simp only [isMark, Bool.or_eq_true, beq_iff_eq] at hc
      rcases hc with (rfl | rfl) | rfl <;> cases h

lemma isMark_of_isNumberChar {c : Char} (h : Literal.isNumberChar c = true) : isMark c = false := by
  cases hc : isMark c with
  | false => rfl
  | true =>
      simp only [isMark, Bool.or_eq_true, beq_iff_eq] at hc
      rcases hc with (rfl | rfl) | rfl <;> cases h

lemma isNameChar_of_isAlpha {c : Char} (h : c.isAlpha = true) : isNameChar c = true := by
  simp [isNameChar, Char.isAlphanum, h]

/-- Only letters become letters when they are made small. -/
lemma isAlpha_of_isAlpha_toLower {c : Char} (h : c.toLower.isAlpha = true) : c.isAlpha = true := by
  by_cases hupper : c.val ≥ 'A'.val ∧ c.val ≤ 'Z'.val
  · exact (Bool.or_eq_true _ _).mpr (Or.inl (decide_eq_true hupper))
  · have hsame : c.toLower = c := dif_neg hupper
    rwa [hsame] at h

/-- What a word consists of: letters, and at least one. -/
def IsWord (word : List Char) : Prop :=
  word ≠ [] ∧ (Text.lower word).all Char.isAlpha = true

instance (word : List Char) : Decidable (IsWord word) :=
  inferInstanceAs (Decidable (_ ∧ _))

lemma isWord_and : IsWord ['a', 'n', 'd'] := by decide
lemma isWord_or : IsWord ['o', 'r'] := by decide
lemma isWord_all : IsWord ['t', 'r', 'u', 'e'] := by decide
lemma isWord_present : IsWord ['p', 'r'] := by decide

lemma ComparisonWord.isWord (w : ComparisonWord) : IsWord w.word := by
  have hwords : ∀ x ∈ comparisonWords, IsWord x.1 := by decide
  exact hwords _ w.listed

namespace Spelling

variable {word : List Char} (hword : IsWord word) (w : Spelling word)
include hword

/-- In any letter case a word has letters only. -/
lemma isAlpha : ∀ c ∈ w.chars, c.isAlpha = true := by
  intro c hc
  obtain ⟨-, hletters⟩ := hword
  rw [← w.same, List.all_eq_true] at hletters
  exact isAlpha_of_isAlpha_toLower (hletters c.toLower (List.mem_map_of_mem hc))

lemma ne_nil : w.chars ≠ [] := by
  intro h
  have hsame := w.same
  rw [h] at hsame
  exact hword.1 (List.map_eq_nil_iff.mp hsame.symm)

lemma isMark : ∀ c ∈ w.chars, Query.isMark c = false := by
  intro c hc
  exact isMark_of_isNameChar (isNameChar_of_isAlpha (w.isAlpha hword c hc))

end Spelling

/-- **A token has the characters of words and of numeric literals only,** and at least one. -/
lemma of_token? {s : List Char} {j : Json} (h : token? s = some j) :
    s ≠ [] ∧ s.all (fun c => c.isAlpha || Literal.isNumberChar c) = true := by
  constructor
  · rintro rfl
    cases h
  · unfold token? at h
    split_ifs at h with htrue hfalse hnull
    · rw [htrue]
      rfl
    · rw [hfalse]
      rfl
    · rw [hnull]
      rfl
    · obtain ⟨n, hn, -⟩ := Option.map_eq_some_iff.mp h
      refine List.all_eq_true.mpr fun c hc => ?_
      rw [Number.isNumberChar_of_ofQueryToken? hn c hc, Bool.or_true]

lemma isMark_of_token? {s : List Char} {j : Json} (h : token? s = some j) :
    ∀ c ∈ s, isMark c = false := by
  intro c hc
  have hchar := List.all_eq_true.mp (of_token? h).2 c hc
  rw [Bool.or_eq_true] at hchar
  rcases hchar with hc | hc
  · exact isMark_of_isNameChar (isNameChar_of_isAlpha hc)
  · exact isMark_of_isNumberChar hc

lemma Name.isNameChar (n : Name) : ∀ c ∈ n.chars, Query.isNameChar c = true :=
  List.forall_mem_cons.mpr ⟨isNameChar_of_isAlpha n.letter, n.allowed⟩

lemma Name.isMark (n : Name) : ∀ c ∈ n.chars, Query.isMark c = false :=
  fun c hc => isMark_of_isNameChar (n.isNameChar c hc)

lemma Blanks.isMark (b : Blanks) : ∀ c ∈ b.chars, Query.isMark c = false :=
  fun c hc => isMark_of_isSpaceOrTab (b.blank c hc)

lemma Joiner.isMark {word : List Char} (hword : IsWord word) (j : Joiner word) :
    ∀ c ∈ j.text, Query.isMark c = false := by
  intro c hc
  rw [Joiner.text, List.mem_append, List.mem_append] at hc
  rcases hc with (hc | hc) | hc
  · exact j.before.isMark c hc
  · exact j.spelling.isMark hword c hc
  · exact j.after.isMark c hc

/-! ## Nesting -/

/-- Between quotes nothing counts. -/
lemma peak_pieces (opened : Nat) (s : List Char) : ∀ ps : List QuotedPiece,
    peak opened true (ps.flatMap QuotedPiece.text ++ s) = peak opened true s := by
  intro ps
  induction ps with
  | nil => rfl
  | cons p ps ih =>
      rw [List.flatMap_cons, List.append_assoc]
      cases p with
      | plain c h => rw [QuotedPiece.text, List.singleton_append, peak_quoted h.1 h.2, ih]
      | escaped c =>
          rw [QuotedPiece.text, List.cons_append, List.singleton_append, peak_escaped, ih]

lemma peak_value (opened : Nat) (s : List Char) (v : ValueForm) :
    peak opened false (v.text ++ s) = peak opened false s := by
  obtain ⟨ps, rfl⟩ | h := v.quoted_or_token?
  · simp only [ValueForm.text, List.cons_append, List.append_assoc, List.nil_append]
    rw [peak_quote, peak_pieces, peak_unquote]
  · exact peak_append_of_forall (isMark_of_token? h) opened s

mutual

/-- An operand opens as many parentheses as it is high, and closes them all. -/
lemma Operand.peak_text (opened : Nat) (s : List Char) : ∀ o : Operand,
    peak opened false (o.text ++ s) = max (opened + o.height) (peak opened false s)
  | .negation gap before d after => by
      have hbang : ∀ c ∈ ['!'], isMark c = false := List.forall_mem_singleton.mpr rfl
      have ih := Disjunction.peak_text (opened + 1) (after.chars ++ ')' :: s) d
      rw [Operand.text, Operand.height, ← List.singleton_append]
      simp only [List.append_assoc, List.cons_append, List.nil_append]
      rw [← List.singleton_append, peak_append_of_forall hbang, peak_append_of_forall gap.isMark,
        peak_open, peak_append_of_forall before.isMark, ih, peak_append_of_forall after.isMark,
        peak_close, Nat.add_sub_cancel]
      omega
  | .parentheses before d after => by
      have ih := Disjunction.peak_text (opened + 1) (after.chars ++ ')' :: s) d
      rw [Operand.text, Operand.height]
      simp only [List.append_assoc, List.cons_append, List.nil_append]
      rw [peak_open, peak_append_of_forall before.isMark, ih, peak_append_of_forall after.isMark,
        peak_close, Nat.add_sub_cancel]
      omega
  | .all word => by
      have hle := le_peak opened false s
      rw [Operand.text, Operand.height, peak_append_of_forall (word.isMark isWord_all)]
      omega
  | .present name gap word => by
      have hle := le_peak opened false s
      rw [Operand.text, Operand.height, List.append_assoc, List.append_assoc,
        peak_append_of_forall name.isMark, peak_append_of_forall gap.isMark,
        peak_append_of_forall (word.isMark isWord_present)]
      omega
  | .compare name gap word space value => by
      have hle := le_peak opened false s
      rw [Operand.text, Operand.height]
      simp only [List.append_assoc]
      rw [peak_append_of_forall name.isMark, peak_append_of_forall gap.isMark,
        peak_append_of_forall (word.spelling.isMark word.isWord),
        peak_append_of_forall space.isMark, peak_value]
      omega

lemma Conjunction.peak_text (opened : Nat) (s : List Char) : ∀ c : Conjunction,
    peak opened false (c.text ++ s) = max (opened + c.height) (peak opened false s)
  | .single o => by
      rw [Conjunction.text, Conjunction.height, Operand.peak_text opened s o]
  | .joined o j c => by
      rw [Conjunction.text, Conjunction.height, List.append_assoc, List.append_assoc,
        Operand.peak_text opened _ o, peak_append_of_forall (j.isMark isWord_and),
        Conjunction.peak_text opened s c]
      omega

lemma Disjunction.peak_text (opened : Nat) (s : List Char) : ∀ d : Disjunction,
    peak opened false (d.text ++ s) = max (opened + d.height) (peak opened false s)
  | .single c => by
      rw [Disjunction.text, Disjunction.height, Conjunction.peak_text opened s c]
  | .joined c j d => by
      rw [Disjunction.text, Disjunction.height, List.append_assoc, List.append_assoc,
        Conjunction.peak_text opened _ c, peak_append_of_forall (j.isMark isWord_or),
        Disjunction.peak_text opened s d]
      omega

end

/-- **The height of a derivation is the nesting of its text.** -/
theorem Disjunction.nesting_text (d : Disjunction) : nesting d.text = d.height := by
  have h := Disjunction.peak_text 0 [] d
  rw [List.append_nil, peak] at h
  rw [nesting, h]
  omega

end AccessFilter.Query
