import AccessFilter.Proofs.Query.Normal
import AccessFilter.Proofs.Query.Soundness
import AccessFilter.Proofs.Text.Position

/-!
# Where the reading of a query stops

A query that is rejected at an offset is not wrong before the offset: what stands there begins some
text of the grammar.  So the offset points at the first text that could not be used.

**One law for all readers.**  A reader that gets stuck leaves a rest, and what it read before the
rest begins the text of something that it could have read (`Completable`).  A reader that is made of
others is stuck where one of them is, behind what the ones before it have read, which is a part of
the grammar by soundness.  So its law follows from theirs by putting their texts between what has
been read and what would have to follow (`Completable.within`).

**Alternatives.**  The word that matches everything, the word for presence and a word between
operands are tried in vain without use, and then the law is that of the alternative.

* `Completable` — the text before a rest begins the text of something.
* **`completable_of_wholeExpression_eq`** — the law for queries.
* **`offset_of_parse_eq`** — the offset of an error is a position in the trimmed text, and what
  stands in front of it can be completed to a query.
-/

namespace AccessFilter.Query

/-! ## Texts that can be completed -/

/-- What stands before the rest of a text begins the text of something of a kind. -/
def Completable {α : Type} (text : α → List Char) (s rest : List Char) : Prop :=
  ∃ read completion a, s = read ++ rest ∧ text a = read ++ completion

section

variable {α β : Type} {text : α → List Char} {whole : β → List Char} {s rest : List Char}

/-- Where nothing has been read, anything completes it. -/
lemma completable_self (a : α) (rest : List Char) : Completable text rest rest :=
  ⟨[], text a, a, rfl, rfl⟩

/-- What has been read up to the rest is the beginning of a text. -/
lemma completable_append {read completion : List Char} {a : α} (h : text a = read ++ completion)
    (rest : List Char) : Completable text (read ++ rest) rest :=
  ⟨read, completion, a, rfl, h⟩

/-- **A part that can be completed completes the whole,** behind what stands in front of the part
and with what has to stand behind it. -/
lemma Completable.within (h : Completable text s rest) (before : List Char) (place : α → β)
    (after : List Char) (hplace : ∀ a, whole (place a) = before ++ text a ++ after) :
    Completable whole (before ++ s) rest := by
  obtain ⟨read, completion, a, rfl, ha⟩ := h
  refine ⟨before ++ read, completion ++ after, place a, (List.append_assoc _ _ _).symm, ?_⟩
  rw [hplace, ha]
  simp only [List.append_assoc]

/-- A part that stands for itself. -/
lemma Completable.alone (h : Completable text s rest) (place : α → β)
    (hplace : ∀ a, whole (place a) = text a) : Completable whole s rest :=
  h.within [] place [] fun a => by rw [hplace, List.nil_append, List.append_nil]

end

/-! ## Leaves -/

/-- A query that is complete as it stands. -/
def everything : Disjunction :=
  .single (.single (.all ⟨matchAll, rfl⟩))

/-- The word for presence. -/
def presentWord : Spelling ['p', 'r'] :=
  .plain ['p', 'r']

lemma eq_of_blanks_eq_error {s : List Char} {f : Fault} (h : blanks s = .error f) :
    f = .stuck s := by
  cases s with
  | nil => exact (Except.error.inj h).symm
  | cons c s =>
      rw [blanks] at h
      split_ifs at h
      exact (Except.error.inj h).symm

lemma eq_of_name_eq_error {s : List Char} {f : Fault} (h : name s = .error f) : f = .stuck s := by
  cases s with
  | nil => exact (Except.error.inj h).symm
  | cons c s =>
      rw [name] at h
      split_ifs at h
      exact (Except.error.inj h).symm

/-- A name is read up to its end. -/
lemma startsWithNameChar_of_name_eq {s cs r : List Char} (h : name s = .ok (cs, r)) :
    startsWithNameChar r = false := by
  cases s with
  | nil => cases h
  | cons c s =>
      rw [name] at h
      split_ifs at h
      obtain ⟨-, rfl⟩ := Prod.mk.inj (Except.ok.inj h)
      have hhead := List.head?_dropWhile_not isNameChar s
      cases hr : s.dropWhile isNameChar with
      | nil => rfl
      | cons d r =>
          rw [hr] at hhead
          simpa [startsWithNameChar] using hhead

/-- Reading between quotes gets stuck only at the end of the text, and there a quote is missing, or
a character behind a backslash as well. -/
lemma exists_of_quotedText_eq_error {s : List Char} {f : Fault} (h : quotedText s = .error f) :
    f = .stuck [] ∧ ∃ (ps : List QuotedPiece) (completion : List Char),
      ps.flatMap QuotedPiece.text = s ++ completion := by
  fun_induction quotedText s generalizing f with
  | case1 => exact ⟨(Except.error.inj h).symm, [], [], rfl⟩
  | case2 => exact ⟨(Except.error.inj h).symm, [.escaped '\\'], ['\\'], rfl⟩
  | case3 c s ih =>
      obtain ⟨hf, ps, completion, hps⟩ := ih (map_eq_error_iff.mp h)
      refine ⟨hf, .escaped c :: ps, completion, ?_⟩
      rw [List.flatMap_cons, hps]
      rfl
  | case4 s => cases h
  | case5 c s hlast hescape hquote ih =>
      obtain ⟨hf, ps, completion, hps⟩ := ih (map_eq_error_iff.mp h)
      by_cases hslash : c = '\\'
      · -- behind the backslash there is nothing, or the two would have been read together
        subst hslash
        cases s with
        | nil => exact absurd rfl (hlast rfl)
        | cons d s => exact absurd rfl (hescape d s rfl)
      · refine ⟨hf, .plain c ⟨hquote, hslash⟩ :: ps, completion, ?_⟩
        rw [List.flatMap_cons, hps]
        rfl

lemma completable_of_value_eq {s rest : List Char} (h : value s = .error (.stuck rest)) :
    Completable ValueForm.text s rest := by
  cases s with
  | nil =>
      obtain rfl := Fault.stuck.inj (Except.error.inj h)
      exact completable_self ValueForm.null []
  | cons c s =>
      rw [value] at h
      split_ifs at h with hc
      · obtain ⟨hf, ps, completion, hps⟩ := exists_of_quotedText_eq_error (map_eq_error_iff.mp h)
        obtain rfl := Fault.stuck.inj hf
        refine ⟨'\'' :: s, completion ++ ['\''], .quoted ps, by rw [hc, List.append_nil], ?_⟩
        rw [ValueForm.text, hps]
        simp only [List.cons_append, List.append_assoc]
      · split at h
        · cases h
        · obtain rfl := Fault.stuck.inj (Except.error.inj h)
          exact completable_self ValueForm.null (c :: s)

/-- Where neither the word that matches everything nor a comparison can be read, what has been read
begins a comparison. -/
lemma completable_of_comparison_eq {s rest : List Char} (h : comparison s = .error (.stuck rest))
    (hall : wholeWord? ['t', 'r', 'u', 'e'] s = none) : Completable Operand.text s rest := by
  rcases bind_eq_error_iff.mp h with hname | ⟨⟨cs, s₁⟩, hname, hbehind⟩
  · obtain rfl := Fault.stuck.inj (eq_of_name_eq_error hname)
    exact completable_self (.all ⟨matchAll, rfl⟩) rest
  obtain ⟨n, rfl, rfl⟩ := exists_of_name_eq hname hall (startsWithNameChar_of_name_eq hname)
  rcases bind_eq_error_iff.mp hbehind with hgap | ⟨s₂, hgap, hleaf⟩
  · obtain rfl := Fault.stuck.inj (eq_of_blanks_eq_error hgap)
    have htext : Operand.text (.present n space presentWord) =
        n.chars ++ (space.chars ++ presentWord.chars) := by rw [Operand.text, List.append_assoc]
    exact completable_append htext rest
  obtain ⟨gap, rfl⟩ := exists_of_blanks_eq hgap
  rw [← List.append_assoc]
  split at hleaf
  · cases hleaf
  · split at hleaf
    · obtain rfl := Fault.stuck.inj (Except.error.inj hleaf)
      have htext : Operand.text (.present n gap presentWord) =
          n.chars ++ gap.chars ++ presentWord.chars := by rw [Operand.text]
      exact completable_append htext s₂
    · next c s₃ hword =>
      obtain ⟨w, rfl, rfl⟩ := exists_of_comparisonWord?_eq hword
      rw [← List.append_assoc]
      rcases bind_eq_error_iff.mp hleaf with hspace | ⟨s₄, hspace, hright⟩
      · obtain rfl := Fault.stuck.inj (eq_of_blanks_eq_error hspace)
        have htext : Operand.text (.compare n gap w space .null) =
            n.chars ++ gap.chars ++ w.spelling.chars ++ (space.chars ++ ValueForm.null.text) := by
          rw [Operand.text, List.append_assoc _ space.chars]
        exact completable_append htext rest
      obtain ⟨space, rfl⟩ := exists_of_blanks_eq hspace
      rw [← List.append_assoc]
      rcases bind_eq_error_iff.mp hright with hvalue | ⟨⟨j, s₅⟩, -, hread⟩
      · refine (completable_of_value_eq hvalue).within _ (.compare n gap w space) [] fun v => ?_
        rw [Operand.text, List.append_nil]
      · cases hread

/-! ## Operands -/

/-- What stands in parentheses, with the blanks around it. -/
structure Enclosed where
  before : Blanks
  inner : Disjunction
  after : Blanks

def Enclosed.text (p : Enclosed) : List Char :=
  '(' :: p.before.chars ++ p.inner.text ++ p.after.chars ++ [')']

/-- What a reader for the inside of parentheses has to satisfy where it gets stuck. -/
def CompletesDisjunctions (inner : List Char → Except Fault (Expr × List Char)) : Prop :=
  ∀ {s rest : List Char}, inner s = .error (.stuck rest) → Completable Disjunction.text s rest

lemma completable_of_parentheses_eq {inner : List Char → Except Fault (Expr × List Char)}
    (hreads : ReadsDisjunctions inner) (hinner : CompletesDisjunctions inner) {s rest : List Char}
    (h : parentheses inner s = .error (.stuck rest)) : Completable Enclosed.text s rest := by
  cases s with
  | nil =>
      obtain rfl := Fault.stuck.inj (Except.error.inj h)
      exact completable_self ⟨noBlanks, everything, noBlanks⟩ []
  | cons c s =>
      rw [parentheses] at h
      split_ifs at h with hc
      · obtain ⟨before, hbefore⟩ := exists_blanks_append s
        rw [hc, hbefore, ← List.cons_append]
        rcases bind_eq_error_iff.mp h with hin | ⟨⟨e, t⟩, hin, hclose⟩
        · -- the inside is stuck, and a closing parenthesis behind its completion completes it
          refine (hinner hin).within _ (fun d => ⟨before, d, noBlanks⟩) [')'] fun d => ?_
          simp only [Enclosed.text, noBlanks, List.append_nil]
        · obtain ⟨d, hd, -⟩ := hreads hin
          obtain ⟨after, hafter⟩ := exists_blanks_append t
          have htext : Enclosed.text ⟨before, d, after⟩ =
              '(' :: before.chars ++ d.text ++ after.chars ++ [')'] := rfl
          rw [hd, hafter, ← List.append_assoc, ← List.append_assoc]
          dsimp only at hclose
          split at hclose
          · cases hclose
          · obtain rfl := Fault.stuck.inj (Except.error.inj hclose)
            exact completable_append htext _
      · obtain rfl := Fault.stuck.inj (Except.error.inj h)
        exact completable_self ⟨noBlanks, everything, noBlanks⟩ (c :: s)

lemma completable_of_operand_eq {inner : List Char → Except Fault (Expr × List Char)}
    (hreads : ReadsDisjunctions inner) (hinner : CompletesDisjunctions inner) {s rest : List Char}
    (h : operand inner s = .error (.stuck rest)) : Completable Operand.text s rest := by
  unfold operand at h
  split at h
  · next s =>
    obtain ⟨gap, hgap⟩ := exists_blanks_append s
    rcases bind_eq_error_iff.mp h with hin | ⟨⟨e, t⟩, -, h⟩
    · rw [hgap, ← List.cons_append]
      refine (completable_of_parentheses_eq hreads hinner hin).within _
        (fun p => .negation gap p.before p.inner p.after) [] fun p => ?_
      simp only [Operand.text, Enclosed.text, List.cons_append, List.append_assoc, List.append_nil]
    · cases h
  · refine (completable_of_parentheses_eq hreads hinner h).alone
      (fun p => .parentheses p.before p.inner p.after) fun p => ?_
    rw [Operand.text, Enclosed.text]
  · split at h
    · cases h
    · next hall => exact completable_of_comparison_eq h hall

/-! ## Chains -/

section

variable {word : List Char} {make : List Expr → Expr}
  {one : List Char → Except Fault (Expr × List Char)} {Link Chain : Type}
  {linkText : Link → List Char} {chainText : Chain → List Char}
  (single : Link → Chain) (joined : Link → Joiner word → Chain → Chain)
  (hsingle : ∀ l, chainText (single l) = linkText l)
  (hjoined : ∀ l j c, chainText (joined l j c) = linkText l ++ j.text ++ chainText c)
  (hreads : ∀ {s : List Char} {e : Expr} {r : List Char}, one s = .ok (e, r) →
    ∃ l, s = linkText l ++ r)
  (hone : ∀ {s rest : List Char}, one s = .error (.stuck rest) → Completable linkText s rest)
include hsingle hjoined hreads hone

/-- Behind a first link, the reader for the further ones gets stuck in one of them. -/
lemma completable_of_chainTail_eq {steps : Nat} {s rest : List Char}
    (h : chainTail word one steps s = .error (.stuck rest)) (l : Link) :
    Completable chainText (linkText l ++ s) rest := by
  induction steps generalizing s l with
  | zero => cases h
  | succ steps ih =>
      rw [chainTail] at h
      split at h
      · cases h
      · next t ht =>
        obtain ⟨j, rfl⟩ := exists_of_joiner?_eq ht
        rw [← List.append_assoc]
        rcases bind_eq_error_iff.mp h with hstuck | ⟨⟨e, u⟩, he, hbehind⟩
        · refine (hone hstuck).within _ (fun k => joined l j (single k)) [] fun k => ?_
          rw [hjoined, hsingle, List.append_nil]
        · obtain ⟨k, rfl⟩ := hreads he
          rcases bind_eq_error_iff.mp hbehind with htail | ⟨⟨es, v⟩, -, hread⟩
          · refine (ih htail k).within _ (joined l j) [] fun c => ?_
            rw [hjoined, List.append_nil]
          · cases hread

/-- **What a chain reader has read where it gets stuck begins a chain.** -/
lemma completable_of_chain_eq {s rest : List Char}
    (h : chain word make one s = .error (.stuck rest)) : Completable chainText s rest := by
  rcases bind_eq_error_iff.mp h with hfirst | ⟨⟨e, t⟩, hfirst, hbehind⟩
  · exact (hone hfirst).alone single hsingle
  · obtain ⟨l, rfl⟩ := hreads hfirst
    rcases bind_eq_error_iff.mp hbehind with htail | ⟨⟨es, u⟩, -, hread⟩
    · exact completable_of_chainTail_eq single joined hsingle hjoined hreads hone htail l
    · cases hread

end

lemma completable_of_andChain_eq {inner : List Char → Except Fault (Expr × List Char)}
    (hreads : ReadsDisjunctions inner) (hinner : CompletesDisjunctions inner) {s rest : List Char}
    (h : andChain inner s = .error (.stuck rest)) : Completable Conjunction.text s rest := by
  refine completable_of_chain_eq Conjunction.single Conjunction.joined
    (fun o => by rw [Conjunction.text]) (fun o j c => by rw [Conjunction.text]) ?_
    (completable_of_operand_eq hreads hinner) h
  intro s e r hok
  obtain ⟨o, hs, -⟩ := exists_of_operand_eq hreads hok
  exact ⟨o, hs⟩

lemma completable_of_orChain_eq {inner : List Char → Except Fault (Expr × List Char)}
    (hreads : ReadsDisjunctions inner) (hinner : CompletesDisjunctions inner) {s rest : List Char}
    (h : orChain inner s = .error (.stuck rest)) : Completable Disjunction.text s rest := by
  refine completable_of_chain_eq Disjunction.single Disjunction.joined
    (fun c => by rw [Disjunction.text]) (fun c j d => by rw [Disjunction.text]) ?_
    (completable_of_andChain_eq hreads hinner) h
  intro s e r hok
  obtain ⟨c, hs, -⟩ := exists_of_andChain_eq hreads hok
  exact ⟨c, hs⟩

/-! ## Whole texts -/

/-- The expression reader is stuck behind the beginning of a query, whatever its budget is. -/
lemma completesDisjunctions_expression : ∀ budget : Nat,
    CompletesDisjunctions (expression budget) := by
  intro budget
  induction budget with
  | zero =>
      -- without a budget the inner reader is never stuck: it gives up for want of it
      exact completable_of_orChain_eq (fun h => by cases h) fun h => by cases h
  | succ budget ih => exact completable_of_orChain_eq (readsDisjunctions_expression budget) ih

/-- **Where a text is no query, what stands in front of the rest begins one.**  This includes a
query with something behind it. -/
theorem completable_of_wholeExpression_eq {budget : Nat} {s rest : List Char}
    (h : wholeExpression budget s = .error (.stuck rest)) :
    Completable Disjunction.text s rest := by
  rcases bind_eq_error_iff.mp h with hstuck | ⟨⟨e, r⟩, hread, hbehind⟩
  · exact completesDisjunctions_expression budget hstuck
  · obtain ⟨d, rfl, -⟩ := readsDisjunctions_expression budget hread
    dsimp only at hbehind
    split_ifs at hbehind
    · cases hbehind
    · obtain rfl := Fault.stuck.inj (Except.error.inj hbehind)
      exact completable_append (List.append_nil d.text).symm _

/-! ## Offsets -/

/-- An error with an offset comes from a rest that the reader could not use. -/
lemma exists_stuck_of_parse_eq {text : String} {offset : Nat} {expected : Expected}
    (h : parse text = .error (.unexpected offset expected)) :
    ∃ rest, wholeExpression (Text.trim text.toList).length (Text.trim text.toList) =
        .error (.stuck rest) ∧
      offset = Text.byteSize (text.toList.takeWhile Text.isBlank) +
        (Text.byteSize (Text.trim text.toList) - Text.byteSize rest) := by
  simp only [parse] at h
  split_ifs at h
  · cases h
  · cases h
  · split at h
    · cases h
    · next rest hrest =>
      obtain ⟨hoffset, -⟩ := Failure.unexpected.inj (Except.error.inj h)
      exact ⟨rest, hrest, hoffset.symm⟩
    · cases h

/-- **The offset of an error points at the first text that could not be used.**  The trimmed text
stands behind the blanks that the text begins with.  The offset lies between its two ends, at a
position of the text, and what stands between its beginning and the offset can be completed to a
query. -/
theorem offset_of_parse_eq {text : String} {offset : Nat} {expected : Expected}
    (h : parse text = .error (.unexpected offset expected)) :
    ∃ lead read rest trail : List Char,
      text.toList = lead ++ (read ++ rest) ++ trail ∧
      lead = text.toList.takeWhile Text.isBlank ∧ read ++ rest = Text.trim text.toList ∧
      offset = Text.byteSize (lead ++ read) ∧
      Text.byteSize lead ≤ offset ∧ offset ≤ Text.byteSize (lead ++ (read ++ rest)) ∧
      (String.Pos.Raw.mk offset).IsValid text ∧
      ∃ (completion : List Char) (d : Disjunction), d.text = read ++ completion := by
  obtain ⟨rest, hrest, hoffset⟩ := exists_stuck_of_parse_eq h
  obtain ⟨read, completion, d, htrim, hd⟩ := completable_of_wholeExpression_eq hrest
  obtain ⟨trail, -, htext⟩ := Text.exists_takeWhile_append_trim text.toList
  rw [htrim, Text.byteSize_append, Nat.add_sub_cancel, ← Text.byteSize_append] at hoffset
  rw [htrim, ← List.append_assoc] at htext
  have hplace : text.toList =
      text.toList.takeWhile Text.isBlank ++ read ++ (rest ++ trail) := by
    conv_lhs => rw [htext]
    simp only [List.append_assoc]
  refine ⟨_, read, rest, trail, htext, rfl, htrim.symm, hoffset, ?_, ?_, ?_, completion, d, hd⟩
  · rw [hoffset, Text.byteSize_append]
    exact Nat.le_add_right _ _
  · rw [hoffset, ← List.append_assoc, Text.byteSize_append _ rest]
    exact Nat.le_add_right _ _
  · rw [hoffset]
    exact Text.isValid_byteSize hplace

/-- A query with a word too many inside two parentheses, behind a blank and a letter of two bytes
each. -/
def misplaced : List Char :=
  ['\u00A0', '(', 'a', ' ', 'c', 'o', ' ', '\'', 'é', '\'', ' ', 'o', 'r', ' ', '!', '(', 'b', ' ',
    'P', 'R', ' ', 'n', 'u', 'l', ')', ')', ' ']

lemma parse_misplaced :
    parse (String.ofList misplaced) = .error (.unexpected 23 .unspecified) := by
  rw [parse, String.toList_ofList]
  rfl

/-- The offset is that of the word, and the text in front of it lacks two parentheses. -/
theorem offset_of_parse_eq_misplaced :
    parse (String.ofList misplaced) = .error (.unexpected 23 .unspecified) ∧
      ∃ lead read rest trail : List Char,
        (String.ofList misplaced).toList = lead ++ (read ++ rest) ++ trail ∧
        lead = (String.ofList misplaced).toList.takeWhile Text.isBlank ∧
        read ++ rest = Text.trim (String.ofList misplaced).toList ∧
        23 = Text.byteSize (lead ++ read) ∧
        Text.byteSize lead ≤ 23 ∧ 23 ≤ Text.byteSize (lead ++ (read ++ rest)) ∧
        (String.Pos.Raw.mk 23).IsValid (String.ofList misplaced) ∧
        ∃ (completion : List Char) (d : Disjunction), d.text = read ++ completion :=
  ⟨parse_misplaced, offset_of_parse_eq parse_misplaced⟩

end AccessFilter.Query
