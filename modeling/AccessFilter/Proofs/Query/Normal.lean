import AccessFilter.Proofs.Query.Acceptance
import AccessFilter.Query.Printer

/-!
# What comes back of an expression that is written as a query

The notation of queries cannot say everything that expressions can, and says some things in another
way.  So an expression that is written and read again comes back in a normal form, which is defined
here without the printer and the readers.

* `normalValue`, `normalCompare?`, `normal?` — what is left of a value, a comparison and an
  expression; of the last two it may be nothing.
* `normal` — the form in which an expression comes back: what is left of it, or else everything.
* `writtenHeight` — how many parentheses are open at once in the text of an expression.
* `leaves`, `comparedValues` — the comparisons in an expression, and the values that are written for
  one.
* `IsName` — the names that can be written.
* **`derives_exprText`** — the text of an expression is derived by the grammar of queries, and
  stands for what is left of the expression.
* **`parse_print_eq_normal`** — hence a written expression is read as its normal form, which is
  written and read as itself.
-/

namespace AccessFilter.Query

/-! ## The normal form -/

/-- The value as it comes back: an array or an object as its text. -/
def normalValue : Json → Json
  | .array items => .string (String.ofList (Json.array items).compact)
  | .object members => .string (String.ofList (Json.object members).compact)
  | j => j

/-- What is left of a group: nothing without operands, a single operand itself. -/
def regroup (make : List Expr → Expr) : List Expr → Option Expr
  | [] => none
  | [e] => some e
  | es => some (make es)

/-- What is left of a comparison.  Nothing is left of a change and of membership in an empty list,
presence loses its value, and membership is an or of equalities. -/
def normalCompare? (c : Comparison) (t : Target) : Option Expr :=
  match c with
  | .hasChanged => none
  | .exists => some (Expr.isPresent t.name)
  | .isIn => regroup .or (t.values.map fun j => Expr.equals t.name (normalValue j))
  | c => some (.compare c ⟨t.name, normalValue t.value⟩)

mutual

/-- **What is left of an expression,** none if that is nothing. -/
def normal? : Expr → Option Expr
  | .and es => regroup .and (normals es)
  | .or es => regroup .or (normals es)
  | .not e => (normal? e).map .not
  | .all => some .all
  | .compare c t => normalCompare? c t

/-- What is left of several expressions. -/
def normals : List Expr → List Expr
  | [] => []
  | e :: es => (normal? e).toList ++ normals es

end

/-- **The form in which an expression comes back.** -/
def normal (e : Expr) : Expr :=
  (normal? e).getD .all

/-- How many parentheses are open at once around what is left, if something is left. -/
def enclosed (left : Option Expr) (height : Nat) : Nat :=
  if left.isSome then height + 1 else 0

mutual

/-- How many parentheses are open at once in the text of an expression.  The operands of and, or and
not stand in parentheses, the equalities that membership is written as do not. -/
def writtenHeight : Expr → Nat
  | .and es | .or es => writtenHeights es
  | .not e => enclosed (normal? e) (writtenHeight e)
  | .all | .compare .. => 0

/-- How many parentheses are open at once in the texts of several operands. -/
def writtenHeights : List Expr → Nat
  | [] => 0
  | e :: es => max (enclosed (normal? e) (writtenHeight e)) (writtenHeights es)

end

/-! ## What can be written -/

mutual

/-- The comparisons in an expression. -/
def leaves : Expr → List (Comparison × Target)
  | .and es | .or es => leavesAll es
  | .not e => leaves e
  | .all => []
  | .compare c t => [(c, t)]

/-- The comparisons in several expressions. -/
def leavesAll : List Expr → List (Comparison × Target)
  | [] => []
  | e :: es => leaves e ++ leavesAll es

end

/-- The values that are written for a comparison. -/
def comparedValues (c : Comparison) (t : Target) : List Json :=
  match c with
  | .exists | .hasChanged => []
  | .isIn => t.values
  | _ => [t.value]

/-- A name: a letter, then letters, digits, points, underscores and colons, but not the word that
matches everything. -/
def IsName (name : String) : Prop :=
  name.toList.head?.any Char.isAlpha = true ∧ name.toList.all isNameChar = true ∧
    Text.lower name.toList ≠ ['t', 'r', 'u', 'e']

instance (name : String) : Decidable (IsName name) :=
  inferInstanceAs (Decidable (_ ∧ _))

/-- A value whose text is read as the value, if it is a number. -/
def ReadsBack (j : Json) : Prop :=
  ∀ n, j = .number n → Number.ofQueryToken? n.text = some n

/-- A comparison that can be written. -/
def Writable (l : Comparison × Target) : Prop :=
  IsName l.2.name ∧ ∀ j ∈ comparedValues l.1 l.2, ReadsBack j

/-! ## Written values -/

/-- The piece that a character between quotes is written as. -/
def pieceOf (c : Char) : QuotedPiece :=
  if h : c = '\'' ∨ c = '\\' then .escaped c else .plain c (not_or.mp h)

lemma text_pieceOf (c : Char) : (pieceOf c).text = quotedChar c := by
  unfold pieceOf quotedChar
  split_ifs <;> rfl

lemma char_pieceOf (c : Char) : (pieceOf c).char = c := by
  unfold pieceOf
  split_ifs <;> rfl

/-- **A quoted text stands for the text.** -/
lemma exists_quote (s : List Char) :
    ∃ v : ValueForm, v.text = quote s ∧ v.json = .string (String.ofList s) := by
  refine ⟨.quoted (s.map pieceOf), ?_, ?_⟩
  · rw [ValueForm.text, quote, List.flatMap_map]
    simp only [text_pieceOf]
  · rw [ValueForm.json, List.map_map]
    have hid : QuotedPiece.char ∘ pieceOf = id := funext char_pieceOf
    rw [hid, List.map_id]

/-- **The text of a value stands for the form in which the value comes back.** -/
lemma exists_literal {j : Json} (h : ReadsBack j) :
    ∃ v : ValueForm, v.text = literal j ∧ v.json = normalValue j := by
  cases j with
  | null => exact ⟨.null, rfl, rfl⟩
  | bool b => cases b <;> exact ⟨.bool _, rfl, rfl⟩
  | number n => exact ⟨.number n.text n (h n rfl), rfl, rfl⟩
  | string s =>
      obtain ⟨v, hv, hj⟩ := exists_quote s.toList
      exact ⟨v, hv, by rw [hj, String.ofList_toList]; rfl⟩
  | array items => exact exists_quote _
  | object members => exact exists_quote _

/-! ## Written comparisons -/

lemma exists_name {name : String} (h : IsName name) : ∃ n : Name, n.chars = name.toList := by
  obtain ⟨hfirst, hall, hfree⟩ := h
  cases hname : name.toList with
  | nil =>
      rw [hname] at hfirst
      cases hfirst
  | cons c s =>
      rw [hname] at hfirst hall hfree
      rw [List.all_eq_true] at hall
      exact ⟨⟨c, s, hfirst, fun d hd => hall d (List.mem_cons_of_mem c hd), hfree⟩, rfl⟩

/-- One space. -/
def space : Gap :=
  ⟨⟨[' '], List.forall_mem_singleton.mpr rfl⟩, by simp⟩

/-- No blanks. -/
def noBlanks : Blanks :=
  ⟨[], by simp⟩

/-- A word in the letters in which it is given. -/
def Spelling.plain (word : List Char) : Spelling word :=
  ⟨word, rfl⟩

/-- The word of a comparison, in small letters. -/
def ComparisonWord.small {c : Comparison} {word : List Char} (h : (word, c) ∈ comparisonWords) :
    ComparisonWord :=
  ⟨c, word, h, ⟨word, rfl⟩⟩

/-- A text is derived as an operand with a certain height and stands for an expression. -/
def DerivesOperand (text : List Char) (height : Nat) (e : Expr) : Prop :=
  ∃ o : Operand, o.text = text ∧ o.height = height ∧ o.expr = e

/-- A name, the word of a comparison and a value in any form. -/
lemma derives_comparison {name : String} (hname : IsName name) {c : Comparison}
    {word : List Char} (hword : (word, c) ∈ comparisonWords) (v : ValueForm) :
    DerivesOperand (name.toList ++ ' ' :: word ++ ' ' :: v.text) 0
      (.compare c ⟨name, v.json⟩) := by
  obtain ⟨n, hn⟩ := exists_name hname
  refine ⟨.compare n space (.small hword) space v, ?_, by rw [Operand.height], ?_⟩
  · rw [Operand.text, hn]
    simp [space, ComparisonWord.small]
  · rw [Operand.expr, hn, String.ofList_toList]
    rfl

/-- A name, the word of a comparison and a value. -/
lemma derives_comparisonText {name : String} (hname : IsName name) {c : Comparison}
    {word : List Char} (hword : (word, c) ∈ comparisonWords) {j : Json} (hj : ReadsBack j) :
    DerivesOperand (comparisonText name.toList word j) 0 (.compare c ⟨name, normalValue j⟩) := by
  obtain ⟨v, hv, hjson⟩ := exists_literal hj
  rw [comparisonText, ← hv, ← hjson]
  exact derives_comparison hname hword v

/-- A name and the word for presence. -/
lemma derives_present {name : String} (hname : IsName name) :
    DerivesOperand (name.toList ++ [' ', 'p', 'r']) 0 (Expr.isPresent name) := by
  obtain ⟨n, hn⟩ := exists_name hname
  refine ⟨.present n space (.plain _), ?_, by rw [Operand.height], ?_⟩
  · rw [Operand.text, hn]
    simp [space, Spelling.plain]
  · rw [Operand.expr, hn, String.ofList_toList]

/-! ## Written groups -/

/-- Words between operands, as they are written. -/
def joiner (word : List Char) : Joiner word :=
  ⟨space, ⟨word, rfl⟩, space⟩

/-- Operands joined by and. -/
def conjunctionOf : Operand → List Operand → Conjunction
  | o, [] => .single o
  | o, p :: os => .joined o (joiner ['a', 'n', 'd']) (conjunctionOf p os)

/-- Operands joined by or. -/
def disjunctionOf : Operand → List Operand → Disjunction
  | o, [] => .single (.single o)
  | o, p :: os => .joined (.single o) (joiner ['o', 'r']) (disjunctionOf p os)

lemma text_conjunctionOf : ∀ (o : Operand) (os : List Operand),
    (conjunctionOf o os).text = andWord.intercalate ((o :: os).map Operand.text) := by
  intro o os
  induction os generalizing o with
  | nil => simp [conjunctionOf, Conjunction.text]
  | cons p os ih =>
      rw [conjunctionOf, Conjunction.text, ih]
      simp [joiner, Joiner.text, space, andWord]

lemma exprs_conjunctionOf : ∀ (o : Operand) (os : List Operand),
    (conjunctionOf o os).exprs = (o :: os).map Operand.expr := by
  intro o os
  induction os generalizing o with
  | nil => rfl
  | cons p os ih =>
      rw [conjunctionOf, Conjunction.exprs, ih]
      rfl

/-- The height of the highest of several operands. -/
def highest (os : List Operand) : Nat :=
  (os.map Operand.height).foldr max 0

lemma highest_cons (o : Operand) (os : List Operand) :
    highest (o :: os) = max o.height (highest os) := rfl

lemma height_conjunctionOf : ∀ (o : Operand) (os : List Operand),
    (conjunctionOf o os).height = highest (o :: os) := by
  intro o os
  induction os generalizing o with
  | nil => exact (Nat.max_zero _).symm
  | cons p os ih => rw [conjunctionOf, Conjunction.height, ih, highest_cons o]

lemma text_disjunctionOf : ∀ (o : Operand) (os : List Operand),
    (disjunctionOf o os).text = orWord.intercalate ((o :: os).map Operand.text) := by
  intro o os
  induction os generalizing o with
  | nil => simp [disjunctionOf, Disjunction.text, Conjunction.text]
  | cons p os ih =>
      rw [disjunctionOf, Disjunction.text, ih]
      simp [joiner, Joiner.text, space, orWord, Conjunction.text]

lemma exprs_disjunctionOf : ∀ (o : Operand) (os : List Operand),
    (disjunctionOf o os).exprs = (o :: os).map Operand.expr := by
  intro o os
  induction os generalizing o with
  | nil => rfl
  | cons p os ih =>
      rw [disjunctionOf, Disjunction.exprs, ih]
      rfl

lemma height_disjunctionOf : ∀ (o : Operand) (os : List Operand),
    (disjunctionOf o os).height = highest (o :: os) := by
  intro o os
  induction os generalizing o with
  | nil => exact (Nat.max_zero _).symm
  | cons p os ih =>
      rw [disjunctionOf, Disjunction.height, Conjunction.height, ih, highest_cons o]

/-- A text is derived as a query with a certain height and stands for what is left of an expression;
nothing is left where there is no text. -/
def Derives (text : List Char) (height : Nat) : Option Expr → Prop
  | none => text = []
  | some e => ∃ d : Disjunction, d.text = text ∧ d.height = height ∧ d.expr = e

lemma regroup_cons (make : List Expr → Expr) (e : Expr) (es : List Expr) :
    regroup make (e :: es) = some (joinExprs make (e :: es)) := by
  cases es <;> rfl

lemma derives_and : ∀ os : List Operand,
    Derives (andWord.intercalate (os.map Operand.text)) (highest os)
      (regroup .and (os.map Operand.expr))
  | [] => rfl
  | o :: os => by
      rw [List.map_cons (f := Operand.expr), regroup_cons]
      refine ⟨.single (conjunctionOf o os), ?_, ?_, ?_⟩
      · rw [Disjunction.text, text_conjunctionOf]
      · rw [Disjunction.height, height_conjunctionOf]
      · rw [Disjunction.expr, Disjunction.exprs, exprs_conjunctionOf]
        rfl

lemma derives_or : ∀ os : List Operand,
    Derives (orWord.intercalate (os.map Operand.text)) (highest os)
      (regroup .or (os.map Operand.expr))
  | [] => rfl
  | o :: os => by
      rw [List.map_cons (f := Operand.expr), regroup_cons]
      refine ⟨disjunctionOf o os, text_disjunctionOf o os, height_disjunctionOf o os, ?_⟩
      rw [Disjunction.expr, exprs_disjunctionOf]
      rfl

lemma derives_operand {text : List Char} {height : Nat} {e : Expr}
    (h : DerivesOperand text height e) : Derives text height (some e) := by
  obtain ⟨o, ht, hh, he⟩ := h
  refine ⟨.single (.single o), ?_, ?_, ?_⟩
  · rw [Disjunction.text, Conjunction.text, ht]
  · rw [Disjunction.height, Conjunction.height, hh]
  · rw [Disjunction.expr, Disjunction.exprs, Conjunction.exprs, he]
    rfl

/-- Equalities with the values of a list, one operand for each. -/
lemma exists_operands_equal {name : String} (hname : IsName name) : ∀ js : List Json,
    (∀ j ∈ js, ReadsBack j) →
    ∃ os : List Operand,
      os.map Operand.text = js.map (comparisonText name.toList ['e', 'q']) ∧
        highest os = 0 ∧
        os.map Operand.expr = js.map fun j => Expr.equals name (normalValue j) := by
  have hword : (['e', 'q'], Comparison.equals) ∈ comparisonWords := by simp [comparisonWords]
  intro js
  induction js with
  | nil => exact fun _ => ⟨[], rfl, rfl, rfl⟩
  | cons j js ih =>
      intro h
      obtain ⟨hj, hjs⟩ := List.forall_mem_cons.mp h
      obtain ⟨o, ht, hh, he⟩ := derives_comparisonText hname hword hj
      obtain ⟨os, hts, hhs, hes⟩ := ih hjs
      refine ⟨o :: os, ?_, ?_, ?_⟩
      · rw [List.map_cons, List.map_cons, ht, hts]
      · rw [highest_cons, hh, hhs, Nat.max_self]
      · rw [List.map_cons, List.map_cons, he, hes]
        rfl

/-- **The text of a comparison is derived by the grammar,** and stands for what is left of it. -/
lemma derives_compareText {c : Comparison} {t : Target} (h : Writable (c, t)) :
    Derives (compareText c t) 0 (normalCompare? c t) := by
  obtain ⟨hname, hvalues⟩ := h
  have hplain : ∀ (d : Comparison) (word : List Char), (word, d) ∈ comparisonWords →
      ReadsBack t.value → Derives (comparisonText t.name.toList word t.value) 0
        (some (.compare d ⟨t.name, normalValue t.value⟩)) := by
    intro d word hword hj
    exact derives_operand (derives_comparisonText hname hword hj)
  cases c with
  | «exists» => exact derives_operand (derives_present hname)
  | hasChanged => rfl
  | isIn =>
      obtain ⟨os, ht, hh, he⟩ := exists_operands_equal hname t.values hvalues
      rw [compareText, normalCompare?, ← ht, ← hh, ← he]
      exact derives_or os
  | equals | contains | startsWith | endsWith | greaterThan | greaterOrEqual | lessThan
  | lessOrEqual => exact hplain _ _ (by decide) (hvalues _ List.mem_cons_self)

/-! ## Written expressions -/

/-- What is left of an expression, in parentheses. -/
lemma derivesOperand_parenthesized {text : List Char} {height : Nat} {e : Expr}
    (h : Derives text height (some e)) : DerivesOperand (parenthesized text) (height + 1) e := by
  obtain ⟨d, rfl, rfl, rfl⟩ := h
  refine ⟨.parentheses noBlanks d noBlanks, ?_, by rw [Operand.height], ?_⟩
  · rw [Operand.text]
    simp [noBlanks, parenthesized]
  · rw [Operand.expr]
    rfl

lemma derivesOperand_negation {text : List Char} {height : Nat} {e : Expr}
    (h : Derives text height (some e)) :
    DerivesOperand ('!' :: parenthesized text) (height + 1) (.not e) := by
  obtain ⟨d, rfl, rfl, rfl⟩ := h
  refine ⟨.negation noBlanks noBlanks d noBlanks, ?_, by rw [Operand.height], ?_⟩
  · rw [Operand.text]
    simp [noBlanks, parenthesized]
  · rw [Operand.expr]
    rfl

/-- Where something is left there is a text. -/
lemma exists_cons_of_derives {text : List Char} {height : Nat} {e : Expr}
    (h : Derives text height (some e)) : ∃ c s, text = c :: s := by
  obtain ⟨d, rfl, -, -⟩ := h
  obtain ⟨c, s, hs, -⟩ := d.exists_text_eq
  exact ⟨c, s, hs⟩

mutual

/-- **The text of an expression is derived by the grammar of queries,** and stands for what is left
of the expression. -/
theorem derives_exprText : ∀ e : Expr, (∀ l ∈ leaves e, Writable l) →
    Derives (exprText e) (writtenHeight e) (normal? e)
  | .and es, h => by
      obtain ⟨os, ht, hh, he⟩ := exists_operands_exprTexts es h
      rw [exprText, writtenHeight, normal?, join, ← ht, ← hh, ← he]
      exact derives_and os
  | .or es, h => by
      obtain ⟨os, ht, hh, he⟩ := exists_operands_exprTexts es h
      rw [exprText, writtenHeight, normal?, join, ← ht, ← hh, ← he]
      exact derives_or os
  | .not e, h => by
      have ih := derives_exprText e h
      rw [normal?, writtenHeight]
      cases hn : normal? e with
      | none =>
          rw [hn] at ih
          rw [exprText, ih]
          rfl
      | some f =>
          rw [hn] at ih
          obtain ⟨c, s, hs⟩ := exists_cons_of_derives ih
          rw [hs] at ih
          rw [exprText, hs]
          exact derives_operand (derivesOperand_negation ih)
  | .all, _ => ⟨.single (.single (.all ⟨matchAll, rfl⟩)), rfl, rfl, rfl⟩
  | .compare c t, h => derives_compareText (h _ List.mem_cons_self)

/-- The operands of a group of which something is left, in parentheses. -/
lemma exists_operands_exprTexts : ∀ es : List Expr, (∀ l ∈ leavesAll es, Writable l) →
    ∃ os : List Operand,
      os.map Operand.text = ((exprTexts es).filter fun s => !s.isEmpty).map parenthesized ∧
        highest os = writtenHeights es ∧ os.map Operand.expr = normals es
  | [], _ => ⟨[], rfl, by rw [writtenHeights]; rfl, rfl⟩
  | e :: es, h => by
      rw [leavesAll, List.forall_mem_append] at h
      have ih := derives_exprText e h.1
      obtain ⟨os, ht, hh, he⟩ := exists_operands_exprTexts es h.2
      rw [exprTexts, writtenHeights, normals]
      cases hn : normal? e with
      | none =>
          rw [hn] at ih
          refine ⟨os, ?_, ?_, he⟩
          · rw [ih, List.filter_cons_of_neg (by simp), ht]
          · rw [hh]
            exact (Nat.zero_max _).symm
      | some f =>
          rw [hn] at ih
          obtain ⟨o, hto, hho, heo⟩ := derivesOperand_parenthesized ih
          obtain ⟨c, s, hs⟩ := exists_cons_of_derives ih
          refine ⟨o :: os, ?_, ?_, ?_⟩
          · rw [List.filter_cons_of_pos (by simp [hs]), List.map_cons, List.map_cons, hto, ht]
          · rw [highest_cons, hho, hh]
            rfl
          · rw [List.map_cons, heo, he]
            rfl

end

lemma eq_nil_of_regroup_eq_none {make : List Expr → Expr} {es : List Expr}
    (h : regroup make es = none) : es = [] := by
  cases es with
  | nil => rfl
  | cons e es =>
      rw [regroup_cons] at h
      cases h

lemma writtenHeights_eq_zero {es : List Expr} (h : normals es = []) : writtenHeights es = 0 := by
  induction es with
  | nil => rw [writtenHeights]
  | cons e es ih =>
      rw [normals, List.append_eq_nil_iff, Option.toList_eq_nil_iff] at h
      rw [writtenHeights, h.1, ih h.2]
      rfl

/-- Where nothing is left there are no parentheses. -/
lemma writtenHeight_eq_zero {e : Expr} (h : normal? e = none) : writtenHeight e = 0 := by
  cases e with
  | and es | or es =>
      rw [normal?] at h
      rw [writtenHeight, writtenHeights_eq_zero (eq_nil_of_regroup_eq_none h)]
  | not e =>
      rw [normal?, Option.map_eq_none_iff] at h
      rw [writtenHeight, h]
      rfl
  | all | compare c t => rw [writtenHeight]

/-- The text of a query is derived by the grammar, and stands for the normal form. -/
lemma exists_disjunction_of_print {e : Expr} (h : ∀ l ∈ leaves e, Writable l) :
    ∃ d : Disjunction, print (some e) = String.ofList d.text ∧ d.height = writtenHeight e ∧
      d.expr = normal e := by
  have hderives := derives_exprText e h
  rw [print, Option.map_some, Option.getD_some, normal]
  cases hn : normal? e with
  | none =>
      rw [hn] at hderives
      rw [hderives]
      rw [writtenHeight_eq_zero hn]
      exact ⟨.single (.single (.all ⟨matchAll, rfl⟩)), rfl, rfl, rfl⟩
  | some f =>
      rw [hn] at hderives
      obtain ⟨c, s, hs⟩ := exists_cons_of_derives hderives
      obtain ⟨d, hd, hh, hf⟩ := hderives
      refine ⟨d, ?_, hh, hf⟩
      rw [hd, hs]

/-- The parentheses in a written expression are those that its operators ask for. -/
lemma nesting_print {e : Expr} (h : ∀ l ∈ leaves e, Writable l) :
    nesting (print (some e)).toList = writtenHeight e := by
  obtain ⟨d, hd, hh, -⟩ := exists_disjunction_of_print h
  rw [hd, String.toList_ofList, d.nesting_text, hh]

/-- **A written expression is read as its normal form,** or rejected because it nests too deeply. -/
theorem parse_print {e : Expr} (h : ∀ l ∈ leaves e, Writable l) :
    parse (print (some e)) =
      if nesting (print (some e)).toList ≤ nestingLimit then .ok (normal e)
      else .error .tooDeep := by
  obtain ⟨d, hd, -, he⟩ := exists_disjunction_of_print h
  rw [hd, parse_text, he, String.toList_ofList]

/-! ## The normal form stays -/

/-- An expression that is its own normal form, and can be written. -/
def Settled (e : Expr) : Prop :=
  normal? e = some e ∧ ∀ l ∈ leaves e, Writable l

lemma normals_eq_self {es : List Expr} (h : ∀ e ∈ es, normal? e = some e) : normals es = es := by
  induction es with
  | nil => rfl
  | cons e es ih =>
      obtain ⟨he, hes⟩ := List.forall_mem_cons.mp h
      rw [normals, he, ih hes]
      rfl

lemma writable_leavesAll {es : List Expr} (h : ∀ e ∈ es, ∀ l ∈ leaves e, Writable l) :
    ∀ l ∈ leavesAll es, Writable l := by
  induction es with
  | nil => simp [leavesAll]
  | cons e es ih =>
      obtain ⟨he, hes⟩ := List.forall_mem_cons.mp h
      rw [leavesAll, List.forall_mem_append]
      exact ⟨he, ih hes⟩

/-- What is left of a group of settled expressions is settled. -/
lemma settled_of_regroup {make : List Expr → Expr}
    (hmake : ∀ es, normal? (make es) = regroup make (normals es))
    (hleaves : ∀ es, leaves (make es) = leavesAll es) {es : List Expr} (h : ∀ e ∈ es, Settled e)
    {f : Expr} (hf : regroup make es = some f) : Settled f := by
  match es with
  | [] => cases hf
  | [e] =>
      obtain rfl := Option.some.inj hf
      exact h e List.mem_cons_self
  | e :: e' :: es =>
      obtain rfl := Option.some.inj hf
      refine ⟨?_, ?_⟩
      · rw [hmake, normals_eq_self fun e he => (h e he).1]
        rfl
      · rw [hleaves]
        exact writable_leavesAll fun e he => (h e he).2

lemma normalValue_normalValue (j : Json) : normalValue (normalValue j) = normalValue j := by
  cases j <;> rfl

lemma readsBack_normalValue {j : Json} (h : ReadsBack j) : ReadsBack (normalValue j) := by
  cases j with
  | array items =>
      intro n hn
      cases hn
  | object members =>
      intro n hn
      cases hn
  | null | bool b | number n | string s => exact h

/-- A comparison with one value loses nothing but the form of that value. -/
lemma settled_of_one_value {c : Comparison}
    (hnormal : ∀ t, normalCompare? c t = some (.compare c ⟨t.name, normalValue t.value⟩))
    (hcompared : ∀ t, comparedValues c t = [t.value]) {t : Target} (h : Writable (c, t)) {f : Expr}
    (hf : normalCompare? c t = some f) : Settled f := by
  obtain ⟨hname, hvalues⟩ := h
  rw [hcompared, List.forall_mem_singleton] at hvalues
  obtain rfl := Option.some.inj ((hnormal t).symm.trans hf)
  refine ⟨?_, ?_⟩
  · rw [normal?, hnormal, normalValue_normalValue]
  · rw [leaves, List.forall_mem_singleton]
    refine ⟨hname, ?_⟩
    rw [hcompared, List.forall_mem_singleton]
    exact readsBack_normalValue hvalues

lemma settled_of_normalCompare? {c : Comparison} {t : Target} (h : Writable (c, t)) {f : Expr}
    (hf : normalCompare? c t = some f) : Settled f := by
  cases c with
  | «exists» =>
      obtain rfl := Option.some.inj hf
      exact ⟨rfl, List.forall_mem_singleton.mpr ⟨h.1, nofun⟩⟩
  | hasChanged => cases hf
  | isIn =>
      refine @settled_of_regroup .or (fun _ => by rw [normal?]) (fun _ => by rw [leaves]) _ ?_ f hf
      intro e he
      obtain ⟨j, hj, rfl⟩ := List.mem_map.mp he
      have hequal : Writable (.equals, ⟨t.name, j⟩) :=
        ⟨h.1, List.forall_mem_singleton.mpr (h.2 j hj)⟩
      exact settled_of_one_value (fun _ => rfl) (fun _ => rfl) hequal rfl
  | equals | contains | startsWith | endsWith | greaterThan | greaterOrEqual | lessThan
  | lessOrEqual => exact settled_of_one_value (fun _ => rfl) (fun _ => rfl) h hf

mutual

/-- **What is left of an expression is settled.** -/
theorem settled_of_normal? : ∀ (e : Expr), (∀ l ∈ leaves e, Writable l) →
    ∀ f, normal? e = some f → Settled f
  | .and es, h, f, hf =>
      @settled_of_regroup .and (fun _ => by rw [normal?]) (fun _ => by rw [leaves]) _
        (settled_of_mem_normals es h) f (by rwa [normal?] at hf)
  | .or es, h, f, hf =>
      @settled_of_regroup .or (fun _ => by rw [normal?]) (fun _ => by rw [leaves]) _
        (settled_of_mem_normals es h) f (by rwa [normal?] at hf)
  | .not e, h, f, hf => by
      rw [normal?, Option.map_eq_some_iff] at hf
      obtain ⟨g, hg, rfl⟩ := hf
      obtain ⟨hself, hleaves⟩ := settled_of_normal? e h g hg
      exact ⟨by rw [normal?, hself]; rfl, hleaves⟩
  | .all, h, f, hf => by
      obtain rfl := Option.some.inj hf
      exact ⟨rfl, h⟩
  | .compare c t, h, f, hf => settled_of_normalCompare? (h _ List.mem_cons_self) hf

lemma settled_of_mem_normals : ∀ (es : List Expr), (∀ l ∈ leavesAll es, Writable l) →
    ∀ f ∈ normals es, Settled f
  | [], _, f, hf => by cases hf
  | e :: es, h, f, hf => by
      rw [leavesAll, List.forall_mem_append] at h
      rw [normals, List.mem_append, Option.mem_toList] at hf
      rcases hf with hf | hf
      · exact settled_of_normal? e h.1 f hf
      · exact settled_of_mem_normals es h.2 f hf

end

/-- The normal form is its own normal form, and can be written. -/
lemma settled_normal {e : Expr} (h : ∀ l ∈ leaves e, Writable l) : Settled (normal e) := by
  rw [normal]
  cases hn : normal? e with
  | none => exact ⟨rfl, nofun⟩
  | some f => exact settled_of_normal? e h f hn

/-! ## The normal form nests hardly deeper -/

lemma enclosed_le (left : Option Expr) (height : Nat) : enclosed left height ≤ height + 1 := by
  unfold enclosed
  split_ifs
  · exact Nat.le_refl _
  · exact Nat.zero_le _

lemma enclosed_of_eq_some {left : Option Expr} {f : Expr} (h : left = some f) (height : Nat) :
    enclosed left height = height + 1 := by
  rw [h]
  rfl

lemma writtenHeights_le {height : Nat} : ∀ {es : List Expr},
    (∀ e ∈ es, writtenHeight e ≤ height) → writtenHeights es ≤ height + 1 := by
  intro es h
  induction es with
  | nil =>
      rw [writtenHeights]
      exact Nat.zero_le _
  | cons e es ih =>
      obtain ⟨he, hes⟩ := List.forall_mem_cons.mp h
      have hle := enclosed_le (normal? e) (writtenHeight e)
      have ih := ih hes
      rw [writtenHeights]
      omega

lemma writtenHeight_le_of_regroup {make : List Expr → Expr}
    (hmake : ∀ es, writtenHeight (make es) = writtenHeights es) {es : List Expr} {height : Nat}
    (h : ∀ e ∈ es, writtenHeight e ≤ height) {f : Expr} (hf : regroup make es = some f) :
    writtenHeight f ≤ height + 1 := by
  match es with
  | [] => cases hf
  | [e] =>
      obtain rfl := Option.some.inj hf
      exact Nat.le_succ_of_le (h e List.mem_cons_self)
  | e :: e' :: es =>
      obtain rfl := Option.some.inj hf
      rw [hmake]
      exact writtenHeights_le h

/-- Membership comes back as an or, whose operands stand in parentheses. -/
lemma writtenHeight_le_of_normalCompare? {c : Comparison} {t : Target} {f : Expr}
    (hf : normalCompare? c t = some f) : writtenHeight f ≤ 1 := by
  cases c with
  | hasChanged => cases hf
  | isIn =>
      refine @writtenHeight_le_of_regroup .or (fun _ => by rw [writtenHeight]) _ 0 ?_ f hf
      intro e he
      obtain ⟨j, -, rfl⟩ := List.mem_map.mp he
      exact Nat.le_refl _
  | «exists» | equals | contains | startsWith | endsWith | greaterThan | greaterOrEqual | lessThan
  | lessOrEqual =>
      obtain rfl := Option.some.inj hf
      exact Nat.zero_le _

mutual

/-- **What is left of an expression is written with at most one pair of parentheses more** inside
one another. -/
theorem writtenHeight_le_of_normal? : ∀ e f : Expr, normal? e = some f →
    writtenHeight f ≤ writtenHeight e + 1
  | .and es, f, hf => by
      rw [normal?] at hf
      rw [writtenHeight]
      exact writtenHeight_le_of_regroup (fun _ => by rw [writtenHeight])
        (writtenHeight_le_of_mem_normals es) hf
  | .or es, f, hf => by
      rw [normal?] at hf
      rw [writtenHeight]
      exact writtenHeight_le_of_regroup (fun _ => by rw [writtenHeight])
        (writtenHeight_le_of_mem_normals es) hf
  | .not e, f, hf => by
      rw [normal?, Option.map_eq_some_iff] at hf
      obtain ⟨g, hg, rfl⟩ := hf
      have ih := writtenHeight_le_of_normal? e g hg
      have hle := enclosed_le (normal? g) (writtenHeight g)
      rw [writtenHeight, writtenHeight, enclosed_of_eq_some hg]
      omega
  | .all, f, hf => by
      obtain rfl := Option.some.inj hf
      exact Nat.le_succ _
  | .compare c t, f, hf => by
      rw [normal?] at hf
      rw [writtenHeight]
      exact writtenHeight_le_of_normalCompare? hf

lemma writtenHeight_le_of_mem_normals : ∀ es : List Expr, ∀ f ∈ normals es,
    writtenHeight f ≤ writtenHeights es
  | [], f, hf => by cases hf
  | e :: es, f, hf => by
      rw [normals, List.mem_append, Option.mem_toList] at hf
      rw [writtenHeights]
      rcases hf with hf | hf
      · have ih := writtenHeight_le_of_normal? e f hf
        rw [enclosed_of_eq_some hf]
        omega
      · have ih := writtenHeight_le_of_mem_normals es f hf
        omega

end

lemma writtenHeight_normal_le (e : Expr) : writtenHeight (normal e) ≤ writtenHeight e + 1 := by
  rw [normal]
  cases hn : normal? e with
  | none =>
      rw [Option.getD_none, writtenHeight]
      exact Nat.zero_le _
  | some f => exact writtenHeight_le_of_normal? e f hn

/-! ## The cycle -/

/-- Names and whole numbers of 64 bits can be written. -/
lemma writable_of_int {l : Comparison × Target} (hname : IsName l.2.name)
    (hnumbers : ∀ n, Json.number n ∈ comparedValues l.1 l.2 →
      ∃ i, n = .int i ∧ -0x8000000000000000 ≤ i ∧ i < 0x8000000000000000) : Writable l := by
  refine ⟨hname, ?_⟩
  rintro j hj n rfl
  obtain ⟨i, rfl, hi⟩ := hnumbers n hj
  exact Number.ofQueryToken?_intText hi

/-- **A written expression is read as its normal form,** if its text keeps the nesting limit, and is
rejected otherwise.  The normal form is its own normal form, so what is written the second time is
read as what it was written from.  It nests at most one level deeper than what was written first,
since the equalities that membership is written as do not stand in parentheses then. -/
theorem parse_print_eq_normal (e : Expr) (hnames : ∀ l ∈ leaves e, IsName l.2.name)
    (hnumbers : ∀ l ∈ leaves e, ∀ n, Json.number n ∈ comparedValues l.1 l.2 →
      ∃ i, n = .int i ∧ -0x8000000000000000 ≤ i ∧ i < 0x8000000000000000) :
    (parse (print (some e)) =
      if nesting (print (some e)).toList ≤ nestingLimit then .ok (normal e)
      else .error .tooDeep) ∧
    (parse (print (some (normal e))) =
      if nesting (print (some (normal e))).toList ≤ nestingLimit then .ok (normal e)
      else .error .tooDeep) ∧
    nesting (print (some (normal e))).toList ≤ nesting (print (some e)).toList + 1 := by
  have h : ∀ l ∈ leaves e, Writable l := fun l hl => writable_of_int (hnames l hl) (hnumbers l hl)
  obtain ⟨hself, hleaves⟩ := settled_normal h
  refine ⟨parse_print h, ?_, ?_⟩
  · have hnormal : normal (normal e) = normal e := by rw [normal, hself, Option.getD_some]
    have hagain := parse_print hleaves
    rwa [hnormal] at hagain
  · rw [nesting_print h, nesting_print hleaves]
    exact writtenHeight_normal_le e

/-- Membership with a quote and a parenthesis in a value, a change under a not, an or of one
operand, presence with a value, and an array. -/
def mixedExpr : Expr :=
  .and [.compare .isIn ⟨"a.b", .array [.number (.int (-7)), .string "x' or (y"]⟩,
    .not (.compare .hasChanged ⟨"c", .null⟩), .or [.compare .exists ⟨"d", .bool true⟩],
    .compare .contains ⟨"e", .array [.null]⟩]

theorem parse_print_mixedExpr :
    print (some mixedExpr) = "(a.b eq -7 or a.b eq 'x\\' or (y') and ((d pr)) and (e co '[null]')" ∧
      parse (print (some mixedExpr)) =
        .ok (.and [
          .or [Expr.equals "a.b" (.number (.int (-7))), Expr.equals "a.b" (.string "x' or (y")],
          Expr.isPresent "d", Expr.contains "e" (.string "[null]")]) := by
  have hnames : ∀ l ∈ leaves mixedExpr, IsName l.2.name := by decide
  have hnumbers : ∀ l ∈ leaves mixedExpr, ∀ n, Json.number n ∈ comparedValues l.1 l.2 →
      ∃ i, n = .int i ∧ -0x8000000000000000 ≤ i ∧ i < 0x8000000000000000 := by
    intro l hl n hn
    simp only [mixedExpr, leaves, leavesAll, List.append_nil, List.cons_append, List.nil_append,
      List.mem_cons, List.not_mem_nil, or_false] at hl
    rcases hl with rfl | rfl | rfl | rfl
    · obtain rfl : n = .int (-7) := by simpa [comparedValues, Target.values] using hn
      exact ⟨-7, rfl, by decide⟩
    · cases hn
    · cases hn
    · simp [comparedValues] at hn
  have hprint : print (some mixedExpr) =
      "(a.b eq -7 or a.b eq 'x\\' or (y') and ((d pr)) and (e co '[null]')" := by decide
  have h := (parse_print_eq_normal mixedExpr hnames hnumbers).1
  rw [hprint] at h ⊢
  exact ⟨rfl, h⟩

end AccessFilter.Query
