import AccessFilter.Proofs.Query.Acceptance

/-!
# The readers accept nothing but the grammar of queries

Where a reader gives a result there is a derivation of what it has read, and the derivation stands
for the result.  Together with acceptance this says what `parse` accepts and what it gives.

**Leaves.**  Blanks, words and values are read off the text by the functions that the grammar's
conditions are about, so each reader hands over the pieces of the derivation directly.  The one
condition that no reader looks at is that a name is not the word that matches everything: this word
would have been read before the name (`exists_of_comparison_eq`).

**Chains.**  The readers of conjunctions and of disjunctions are one reader with two words, and the
two levels of the grammar grow in the same way, so what is said about one of them is said once
(`exists_of_chain_eq`).

**Unambiguity.**  A reader is a function and reads every derived text up to its end.  Hence two
derivations of one text end their parts at the same places, and are the same derivation
(`Disjunction.text_inj`).
-/

namespace AccessFilter.Query

/-! ## Blanks and words -/

/-- What is skipped is blank. -/
lemma exists_blanks_append (s : List Char) : ∃ b : Blanks, s = b.chars ++ skipBlanks s :=
  ⟨⟨s.takeWhile Text.isSpaceOrTab, fun _ => List.mem_takeWhile_imp⟩,
    List.takeWhile_append_dropWhile.symm⟩

lemma exists_of_blanks_eq {s r : List Char} (h : blanks s = .ok r) :
    ∃ g : Gap, s = g.chars ++ r := by
  cases s with
  | nil => cases h
  | cons c s =>
      rw [blanks] at h
      split_ifs at h with hc
      obtain rfl := Except.ok.inj h
      obtain ⟨b, hb⟩ := exists_blanks_append s
      refine ⟨⟨⟨c :: b.chars, List.forall_mem_cons.mpr ⟨hc, b.blank⟩⟩, by simp⟩, ?_⟩
      rw [List.cons_append, ← hb]

lemma exists_of_joiner?_eq {word s r : List Char} (h : joiner? word s = some r) :
    ∃ j : Joiner word, s = j.text ++ r := by
  unfold joiner? at h
  split at h
  · cases h
  · next t ht =>
    split at h
    · cases h
    · next u hu =>
      obtain ⟨before, rfl⟩ := exists_of_blanks_eq ht
      obtain ⟨w, rfl, hw⟩ := Text.dropWord?_eq_some_iff.mp hu
      cases hb : blanks u with
      | error e =>
          rw [hb] at h
          cases h
      | ok t =>
          rw [hb] at h
          obtain rfl := Option.some.inj h
          obtain ⟨after, rfl⟩ := exists_of_blanks_eq hb
          refine ⟨⟨before, ⟨w, hw⟩, after⟩, ?_⟩
          simp only [Joiner.text, List.append_assoc]

lemma exists_of_wholeWord?_eq {word s r : List Char} (h : wholeWord? word s = some r) :
    ∃ w : Spelling word, s = w.chars ++ r := by
  unfold wholeWord? at h
  split at h
  · next t ht =>
    split_ifs at h
    obtain rfl := Option.some.inj h
    obtain ⟨w, rfl, hw⟩ := Text.dropWord?_eq_some_iff.mp ht
    exact ⟨⟨w, hw⟩, rfl⟩
  · cases h

/-! ## Values -/

/-- What is read up to a closing quote is made of pieces. -/
lemma exists_of_quotedText_eq {s t r : List Char} (h : quotedText s = .ok (t, r)) :
    ∃ ps : List QuotedPiece, s = ps.flatMap QuotedPiece.text ++ '\'' :: r ∧
      t = ps.map QuotedPiece.char := by
  fun_induction quotedText s generalizing t r with
  | case1 => cases h
  | case2 => cases h
  | case3 c s ih =>
      obtain ⟨⟨t, r⟩, ht, h⟩ := map_eq_ok_iff.mp h
      obtain ⟨rfl, rfl⟩ := Prod.mk.inj h
      obtain ⟨ps, rfl, rfl⟩ := ih ht
      exact ⟨.escaped c :: ps, rfl, rfl⟩
  | case4 s =>
      obtain ⟨rfl, rfl⟩ := Prod.mk.inj (Except.ok.inj h)
      exact ⟨[], rfl, rfl⟩
  | case5 c s hlast hescape hquote ih =>
      obtain ⟨⟨t, r⟩, ht, h⟩ := map_eq_ok_iff.mp h
      obtain ⟨rfl, rfl⟩ := Prod.mk.inj h
      obtain ⟨ps, rfl, rfl⟩ := ih ht
      have hslash : c ≠ '\\' := by
        rintro rfl
        cases hs : ps.flatMap QuotedPiece.text ++ '\'' :: r with
        | nil => simp at hs
        | cons d s => exact hescape d s rfl hs
      exact ⟨.plain c ⟨hquote, hslash⟩ :: ps, rfl, rfl⟩

lemma exists_of_value_eq {s r : List Char} {j : Json} (h : value s = .ok (j, r)) :
    ∃ v : ValueForm, s = v.text ++ r ∧ j = v.json := by
  cases s with
  | nil => cases h
  | cons c s =>
      rw [value] at h
      split_ifs at h with hc
      · obtain ⟨⟨t, r⟩, ht, h⟩ := map_eq_ok_iff.mp h
        obtain ⟨rfl, rfl⟩ := Prod.mk.inj h
        obtain ⟨ps, rfl, rfl⟩ := exists_of_quotedText_eq ht
        exact ⟨.quoted ps, by simp [ValueForm.text, hc], rfl⟩
      · split at h
        · next j hj =>
          obtain ⟨rfl, rfl⟩ := Prod.mk.inj (Except.ok.inj h)
          obtain ⟨v, hv, rfl⟩ := exists_valueForm_of_token? hj
          exact ⟨v, by rw [hv, List.takeWhile_append_dropWhile], rfl⟩
        · cases h

/-! ## Comparisons -/

lemma exists_of_comparisonWord?_eq {s r : List Char} {c : Comparison}
    (h : comparisonWord? s = some (c, r)) :
    ∃ w : ComparisonWord, s = w.spelling.chars ++ r ∧ c = w.comparison := by
  obtain ⟨⟨word, d⟩, hlisted, hd⟩ := List.exists_of_findSome?_eq_some h
  obtain ⟨t, ht, hp⟩ := Option.map_eq_some_iff.mp hd
  obtain ⟨rfl, rfl⟩ := Prod.mk.inj hp
  obtain ⟨chars, rfl, hsame⟩ := Text.dropWord?_eq_some_iff.mp ht
  exact ⟨⟨d, word, hlisted, ⟨chars, hsame⟩⟩, rfl, rfl⟩

/-- **A name that is read is a name of the grammar,** if the word that matches everything could not
be read in its place. -/
lemma exists_of_name_eq {s cs r : List Char} (h : name s = .ok (cs, r))
    (hall : wholeWord? ['t', 'r', 'u', 'e'] s = none) (hr : startsWithNameChar r = false) :
    ∃ n : Name, s = n.chars ++ r ∧ cs = n.chars := by
  cases s with
  | nil => cases h
  | cons c s =>
      rw [name] at h
      split_ifs at h with hc
      obtain ⟨rfl, rfl⟩ := Prod.mk.inj (Except.ok.inj h)
      have hsplit : c :: s = c :: s.takeWhile isNameChar ++ s.dropWhile isNameChar := by
        rw [List.cons_append, List.takeWhile_append_dropWhile]
      refine ⟨⟨c, s.takeWhile isNameChar, hc, fun _ => List.mem_takeWhile_imp, ?_⟩, hsplit, rfl⟩
      intro hlower
      rw [wholeWord?, hsplit, dropWord?_text (⟨_, hlower⟩ : Spelling ['t', 'r', 'u', 'e'])] at hall
      dsimp only at hall
      rw [hr] at hall
      cases hall

/-- What is read as a comparison is an operand, if the word that matches everything could not be
read in its place. -/
lemma exists_of_comparison_eq {s r : List Char} {e : Expr} (h : comparison s = .ok (e, r))
    (hall : wholeWord? ['t', 'r', 'u', 'e'] s = none) :
    ∃ o : Operand, s = o.text ++ r ∧ e = o.expr := by
  obtain ⟨⟨cs, s₁⟩, hname, hbehind⟩ := bind_eq_ok_iff.mp h
  obtain ⟨s₂, hgap, hleaf⟩ := bind_eq_ok_iff.mp hbehind
  obtain ⟨gap, rfl⟩ := exists_of_blanks_eq hgap
  obtain ⟨n, rfl, rfl⟩ :=
    exists_of_name_eq hname hall (startsWithNameChar_of_ends (gap.ends s₂))
  split at hleaf
  · next rest hpresent =>
    obtain ⟨rfl, rfl⟩ := Prod.mk.inj (Except.ok.inj hleaf)
    obtain ⟨w, rfl⟩ := exists_of_wholeWord?_eq hpresent
    refine ⟨.present n gap w, ?_, by rw [Operand.expr]⟩
    simp only [Operand.text, List.append_assoc]
  · split at hleaf
    · cases hleaf
    · next c s₃ hc =>
      obtain ⟨s₄, hspace, hright⟩ := bind_eq_ok_iff.mp hleaf
      obtain ⟨⟨j, s₅⟩, hvalue, hright⟩ := bind_eq_ok_iff.mp hright
      obtain ⟨rfl, rfl⟩ := Prod.mk.inj (Except.ok.inj hright)
      obtain ⟨w, rfl, rfl⟩ := exists_of_comparisonWord?_eq hc
      obtain ⟨space, rfl⟩ := exists_of_blanks_eq hspace
      obtain ⟨v, rfl, rfl⟩ := exists_of_value_eq hvalue
      refine ⟨.compare n gap w space v, ?_, by rw [Operand.expr]⟩
      simp only [Operand.text, List.append_assoc]

/-! ## Operands -/

/-- What a reader for the inside of parentheses has to satisfy: it has read the text of a
derivation, and gives its expression. -/
def ReadsDisjunctions (inner : List Char → Except Fault (Expr × List Char)) : Prop :=
  ∀ {s : List Char} {e : Expr} {r : List Char}, inner s = .ok (e, r) →
    ∃ d : Disjunction, s = d.text ++ r ∧ e = d.expr

lemma exists_of_parentheses_eq {inner : List Char → Except Fault (Expr × List Char)}
    (hinner : ReadsDisjunctions inner) {s r : List Char} {e : Expr}
    (h : parentheses inner s = .ok (e, r)) :
    ∃ (before : Blanks) (d : Disjunction) (after : Blanks),
      s = '(' :: before.chars ++ d.text ++ after.chars ++ ')' :: r ∧ e = d.expr := by
  cases s with
  | nil => cases h
  | cons c s =>
      rw [parentheses] at h
      split_ifs at h with hc
      obtain ⟨⟨e', t⟩, ht, h⟩ := bind_eq_ok_iff.mp h
      obtain ⟨before, hbefore⟩ := exists_blanks_append s
      obtain ⟨d, hd, rfl⟩ := hinner ht
      obtain ⟨after, hafter⟩ := exists_blanks_append t
      dsimp only at h
      split at h
      · next rest hclose =>
        obtain ⟨rfl, rfl⟩ := Prod.mk.inj (Except.ok.inj h)
        refine ⟨before, d, after, ?_, rfl⟩
        rw [hclose] at hafter
        rw [hc, hbefore, hd, hafter]
        simp only [List.cons_append, List.append_assoc]
      · cases h

/-- **What the operand reader has read is a derived operand.** -/
lemma exists_of_operand_eq {inner : List Char → Except Fault (Expr × List Char)}
    (hinner : ReadsDisjunctions inner) {s r : List Char} {e : Expr}
    (h : operand inner s = .ok (e, r)) : ∃ o : Operand, s = o.text ++ r ∧ e = o.expr := by
  unfold operand at h
  split at h
  · next s =>
    obtain ⟨⟨e', t⟩, ht, h⟩ := bind_eq_ok_iff.mp h
    obtain ⟨rfl, rfl⟩ := Prod.mk.inj (Except.ok.inj h)
    obtain ⟨gap, hgap⟩ := exists_blanks_append s
    obtain ⟨before, d, after, hs, rfl⟩ := exists_of_parentheses_eq hinner ht
    refine ⟨.negation gap before d after, ?_, by rw [Operand.expr]; rfl⟩
    rw [hgap, hs, Operand.text]
    simp only [List.cons_append, List.append_assoc, List.nil_append]
  · obtain ⟨before, d, after, hs, rfl⟩ := exists_of_parentheses_eq hinner h
    refine ⟨.parentheses before d after, ?_, by rw [Operand.expr]; rfl⟩
    rw [hs, Operand.text]
    simp only [List.cons_append, List.append_assoc, List.nil_append]
  · split at h
    · next rest hall =>
      obtain ⟨rfl, rfl⟩ := Prod.mk.inj (Except.ok.inj h)
      obtain ⟨w, rfl⟩ := exists_of_wholeWord?_eq hall
      exact ⟨.all w, by rw [Operand.text], by rw [Operand.expr]⟩
    · next hall => exact exists_of_comparison_eq h hall

/-! ## Chains -/

lemma collect_eq_joinExprs (make : List Expr → Expr) (e : Expr) (es : List Expr) :
    collect make e es = joinExprs make (e :: es) := by
  cases es <;> rfl

section

/- A level of the grammar, whatever it joins: a link alone is a chain, and so is a link that is
joined to a chain. -/
variable {word : List Char} {make : List Expr → Expr}
  {one : List Char → Except Fault (Expr × List Char)} {Link Chain : Type}
  {linkText : Link → List Char} {linkExpr : Link → Expr}
  {chainText : Chain → List Char} {chainExprs : Chain → List Expr}
  (single : Link → Chain) (joined : Link → Joiner word → Chain → Chain)
  (hsingle : ∀ l, chainText (single l) = linkText l ∧ chainExprs (single l) = [linkExpr l])
  (hjoined : ∀ l j c, chainText (joined l j c) = linkText l ++ j.text ++ chainText c ∧
    chainExprs (joined l j c) = linkExpr l :: chainExprs c)
  (hone : ∀ {s : List Char} {e : Expr} {r : List Char}, one s = .ok (e, r) →
    ∃ l, s = linkText l ++ r ∧ e = linkExpr l)
include hsingle hjoined hone

/-- The links that are read behind a first one continue it to a chain. -/
lemma exists_of_chainTail_eq {steps : Nat} {s r : List Char} {es : List Expr}
    (h : chainTail word one steps s = .ok (es, r)) (l : Link) :
    ∃ c, linkText l ++ s = chainText c ++ r ∧ linkExpr l :: es = chainExprs c := by
  induction steps generalizing s es l with
  | zero =>
      obtain ⟨rfl, rfl⟩ := Prod.mk.inj (Except.ok.inj h)
      exact ⟨single l, by rw [(hsingle l).1], (hsingle l).2.symm⟩
  | succ steps ih =>
      rw [chainTail] at h
      split at h
      · obtain ⟨rfl, rfl⟩ := Prod.mk.inj (Except.ok.inj h)
        exact ⟨single l, by rw [(hsingle l).1], (hsingle l).2.symm⟩
      · next t ht =>
        obtain ⟨⟨e, t'⟩, he, h⟩ := bind_eq_ok_iff.mp h
        obtain ⟨⟨es', t''⟩, hes, h⟩ := bind_eq_ok_iff.mp h
        obtain ⟨rfl, rfl⟩ := Prod.mk.inj (Except.ok.inj h)
        obtain ⟨j, rfl⟩ := exists_of_joiner?_eq ht
        obtain ⟨k, rfl, rfl⟩ := hone he
        obtain ⟨c, hc, hexprs⟩ := ih hes k
        refine ⟨joined l j c, ?_, ?_⟩
        · rw [(hjoined l j c).1, List.append_assoc, List.append_assoc, hc]
        · rw [(hjoined l j c).2, hexprs]

/-- **What a chain reader has read is a derived chain.** -/
lemma exists_of_chain_eq {s r : List Char} {e : Expr} (h : chain word make one s = .ok (e, r)) :
    ∃ c, s = chainText c ++ r ∧ e = joinExprs make (chainExprs c) := by
  obtain ⟨⟨first, t⟩, hfirst, h⟩ := bind_eq_ok_iff.mp h
  obtain ⟨⟨es, t'⟩, hes, h⟩ := bind_eq_ok_iff.mp h
  obtain ⟨rfl, rfl⟩ := Prod.mk.inj (Except.ok.inj h)
  obtain ⟨l, rfl, rfl⟩ := hone hfirst
  obtain ⟨c, hc, hexprs⟩ := exists_of_chainTail_eq single joined hsingle hjoined hone hes l
  exact ⟨c, hc, by rw [collect_eq_joinExprs, hexprs]⟩

end

lemma exists_of_andChain_eq {inner : List Char → Except Fault (Expr × List Char)}
    (hinner : ReadsDisjunctions inner) {s r : List Char} {e : Expr}
    (h : andChain inner s = .ok (e, r)) : ∃ c : Conjunction, s = c.text ++ r ∧ e = c.expr :=
  exists_of_chain_eq Conjunction.single Conjunction.joined
    (fun o => ⟨by rw [Conjunction.text], by rw [Conjunction.exprs]⟩)
    (fun o j c => ⟨by rw [Conjunction.text], by rw [Conjunction.exprs]⟩)
    (exists_of_operand_eq hinner) h

lemma exists_of_orChain_eq {inner : List Char → Except Fault (Expr × List Char)}
    (hinner : ReadsDisjunctions inner) {s r : List Char} {e : Expr}
    (h : orChain inner s = .ok (e, r)) : ∃ d : Disjunction, s = d.text ++ r ∧ e = d.expr :=
  exists_of_chain_eq Disjunction.single Disjunction.joined
    (fun c => ⟨by rw [Disjunction.text], by rw [Disjunction.exprs]; rfl⟩)
    (fun c j d => ⟨by rw [Disjunction.text], by rw [Disjunction.exprs]; rfl⟩)
    (exists_of_andChain_eq hinner) h

/-! ## Whole texts -/

/-- **What the expression reader has read is a derived disjunction,** whatever its budget is. -/
theorem readsDisjunctions_expression : ∀ budget : Nat, ReadsDisjunctions (expression budget) := by
  intro budget
  induction budget with
  | zero => exact exists_of_orChain_eq fun h => by cases h
  | succ budget ih => exact exists_of_orChain_eq ih

lemma exists_of_wholeExpression_eq {budget : Nat} {s : List Char} {e : Expr}
    (h : wholeExpression budget s = .ok e) : ∃ d : Disjunction, s = d.text ∧ e = d.expr := by
  obtain ⟨⟨e', r⟩, hr, h⟩ := bind_eq_ok_iff.mp h
  obtain ⟨d, rfl, rfl⟩ := readsDisjunctions_expression budget hr
  dsimp only at h
  split_ifs at h with hempty
  obtain rfl := Except.ok.inj h
  rw [List.isEmpty_iff] at hempty
  exact ⟨d, by rw [hempty, List.append_nil], rfl⟩

/-- **What is read is a derived text.** -/
theorem exists_disjunction_of_parse_eq {s : String} {e : Expr} (h : parse s = .ok e) :
    ∃ d : Disjunction, d.text = Text.trim s.toList ∧ nesting d.text ≤ nestingLimit ∧
      d.expr = e := by
  simp only [parse] at h
  split_ifs at h with hempty hkeeps
  split at h
  · next e' he =>
    obtain ⟨d, hd, rfl⟩ := exists_of_wholeExpression_eq he
    obtain rfl := Except.ok.inj h
    rw [Bool.not_eq_true, Bool.not_eq_false', hd, keepsNestingLimit_iff] at hkeeps
    exact ⟨d, hd.symm, hkeeps, rfl⟩
  · cases h
  · cases h

/-! ## Unambiguity

A part of a text ends where the reader for it stops, whatever derivation it is read from.
-/

attribute [ext] Blanks Gap Spelling Name

lemma Blanks.append_inj {b b' : Blanks} {s s' : List Char} (hs : startsBlank s = false)
    (hs' : startsBlank s' = false) (h : b.chars ++ s = b'.chars ++ s') : b = b' ∧ s = s' := by
  obtain rfl : s = s' := by rw [← skipBlanks_text b hs, h, skipBlanks_text b' hs']
  exact ⟨Blanks.ext (List.append_cancel_right h), rfl⟩

lemma Gap.append_inj {g g' : Gap} {s s' : List Char} (hs : startsBlank s = false)
    (hs' : startsBlank s' = false) (h : g.chars ++ s = g'.chars ++ s') : g = g' ∧ s = s' := by
  obtain ⟨hg, rfl⟩ := Blanks.append_inj hs hs' h
  exact ⟨Gap.ext (congrArg Blanks.chars hg), rfl⟩

lemma Spelling.append_inj {word : List Char} {w w' : Spelling word} {s s' : List Char}
    (h : w.chars ++ s = w'.chars ++ s') : w = w' ∧ s = s' := by
  have hw := dropWord?_text w s
  rw [h, dropWord?_text, Option.some.injEq] at hw
  subst hw
  exact ⟨Spelling.ext (List.append_cancel_right h), rfl⟩

lemma Joiner.append_inj {word : List Char} (hword : IsWord word) {j j' : Joiner word}
    {s s' : List Char} (hs : startsBlank s = false) (hs' : startsBlank s' = false)
    (h : j.text ++ s = j'.text ++ s') : j = j' ∧ s = s' := by
  obtain ⟨before, w, after⟩ := j
  obtain ⟨before', w', after'⟩ := j'
  simp only [Joiner.text, List.append_assoc] at h
  obtain ⟨rfl, hspelling⟩ := Gap.append_inj (w.startsBlank hword _) (w'.startsBlank hword _) h
  obtain ⟨rfl, hafter⟩ := Spelling.append_inj hspelling
  obtain ⟨rfl, hrest⟩ := Gap.append_inj hs hs' hafter
  exact ⟨rfl, hrest⟩

lemma Name.append_inj {n n' : Name} {s s' : List Char} (hs : startsWithNameChar s = false)
    (hs' : startsWithNameChar s' = false) (h : n.chars ++ s = n'.chars ++ s') :
    n = n' ∧ s = s' := by
  have hn := name_text n hs
  rw [h, name_text n' hs', Except.ok.injEq, Prod.mk.injEq] at hn
  obtain ⟨hchars, rfl⟩ := hn
  obtain ⟨hinitial, hrest⟩ := List.cons.inj hchars
  exact ⟨Name.ext hinitial.symm hrest.symm, rfl⟩

/-- A comparison has one word. -/
lemma ComparisonWord.append_inj {w w' : ComparisonWord} {s s' : List Char}
    (h : w.spelling.chars ++ s = w'.spelling.chars ++ s') : w = w' ∧ s = s' := by
  have hw := comparisonWord?_text w s
  rw [h, comparisonWord?_text, Option.some.injEq, Prod.mk.injEq] at hw
  obtain ⟨hcomparison, rfl⟩ := hw
  have hunique : ∀ x ∈ comparisonWords, ∀ y ∈ comparisonWords, x.2 = y.2 → x.1 = y.1 := by decide
  have hword := hunique _ w'.listed _ w.listed hcomparison
  obtain ⟨c, word, listed, spelling⟩ := w
  obtain ⟨c', word', listed', spelling'⟩ := w'
  obtain rfl : c' = c := hcomparison
  obtain rfl : word' = word := hword
  obtain ⟨rfl, -⟩ := Spelling.append_inj h
  exact ⟨rfl, rfl⟩

lemma QuotedPiece.flatMap_text_inj : ∀ {ps qs : List QuotedPiece},
    ps.flatMap QuotedPiece.text = qs.flatMap QuotedPiece.text → ps = qs
  | [], [], _ => rfl
  | .plain c hc :: ps, .plain d hd :: qs, h => by
      obtain ⟨rfl, ht⟩ := List.cons.inj h
      rw [flatMap_text_inj ht]
  | .escaped c :: ps, .escaped d :: qs, h => by
      obtain ⟨rfl, ht⟩ := List.cons.inj (List.cons.inj h).2
      rw [flatMap_text_inj ht]
  | .plain c hc :: ps, .escaped d :: qs, h => absurd (List.cons.inj h).1 hc.2
  | .escaped c :: ps, .plain d hd :: qs, h => absurd (List.cons.inj h).1.symm hd.2
  | [], .plain .. :: _, h | [], .escaped _ :: _, h => absurd h (by simp [QuotedPiece.text])
  | .plain .. :: _, [], h | .escaped _ :: _, [], h => absurd h (by simp [QuotedPiece.text])

lemma ValueForm.text_inj {v v' : ValueForm} (h : v.text = v'.text) : v = v' := by
  -- the reader tells the values, and with them the forms, apart
  have hjson : v.json = v'.json := by
    have hends : Ends [] := trivial
    have hv := value_text v hends
    rw [h, value_text v' hends, Except.ok.injEq, Prod.mk.injEq] at hv
    exact hv.1.symm
  cases v with
  | quoted ps =>
      cases v' with
      | quoted qs =>
          have hpieces := List.append_cancel_right (List.cons.inj h).2
          rw [QuotedPiece.flatMap_text_inj hpieces]
      | bool | null | number => cases hjson
  | bool b =>
      cases v' with
      | bool b' => rw [Json.bool.inj hjson]
      | quoted | null | number => cases hjson
  | null =>
      cases v' with
      | null => rfl
      | quoted | bool | number => cases hjson
  | number cs n hn =>
      cases v' with
      | number cs' n' hn' =>
          obtain rfl : cs = cs' := h
          obtain rfl := Json.number.inj hjson
          rfl
      | quoted | bool | null => cases hjson

/-- The expression reader with this budget can stand inside parentheses. -/
lemma readsBelow_expression (budget : Nat) : ReadsBelow (budget + 1) (expression budget) :=
  fun d _ hd hstops => expression_text budget d hstops (Nat.le_of_lt_succ hd)

section

variable {s s' : List Char}

/-- What one reader reads off a text in two ways it reads in one way. -/
lemma append_cancel_of_reads {read : List Char → Except Fault (Expr × List Char)}
    {t t' : List Char} {e e' : Expr} (hread : read (t ++ s) = .ok (e, s))
    (hread' : read (t' ++ s') = .ok (e', s')) (h : t ++ s = t' ++ s') :
    t = t' ∧ e = e' ∧ s = s' := by
  rw [h, hread', Except.ok.injEq, Prod.mk.injEq] at hread
  obtain ⟨rfl, rfl⟩ := hread
  exact ⟨List.append_cancel_right h, rfl, rfl⟩

lemma Operand.append_cancel {o o' : Operand} (hs : Ends s) (hs' : Ends s')
    (h : o.text ++ s = o'.text ++ s') : o.text = o'.text ∧ o.expr = o'.expr ∧ s = s' :=
  have hinner := readsBelow_expression (o.height + o'.height)
  append_cancel_of_reads (operand_text hinner o (by omega) hs)
    (operand_text hinner o' (by omega) hs') h

lemma Conjunction.append_cancel {c c' : Conjunction} (hs : Ends s) (hs' : Ends s')
    (hand : joiner? ['a', 'n', 'd'] s = none) (hand' : joiner? ['a', 'n', 'd'] s' = none)
    (h : c.text ++ s = c'.text ++ s') : c.text = c'.text ∧ c.expr = c'.expr ∧ s = s' :=
  have hinner := readsBelow_expression (c.height + c'.height)
  append_cancel_of_reads (andChain_text hinner hs hand c (by omega))
    (andChain_text hinner hs' hand' c' (by omega)) h

lemma Disjunction.append_cancel {d d' : Disjunction} (hs : Stops s) (hs' : Stops s')
    (h : d.text ++ s = d'.text ++ s') : d.text = d'.text ∧ d.expr = d'.expr ∧ s = s' :=
  append_cancel_of_reads (expression_text (d.height + d'.height) d hs (by omega))
    (expression_text _ d' hs' (by omega)) h

end

/-- Parentheses and what stands between them. -/
lemma enclosed_inj {before before' after after' : Blanks} {d d' : Disjunction}
    (hd : d.text = d'.text → d = d')
    (h : before.chars ++ (d.text ++ (after.chars ++ [')'])) =
      before'.chars ++ (d'.text ++ (after'.chars ++ [')']))) :
    before = before' ∧ d = d' ∧ after = after' := by
  obtain ⟨rfl, hinside⟩ := Blanks.append_inj (d.startsBlank_text _) (d'.startsBlank_text _) h
  obtain ⟨htext, -, hclose⟩ :=
    Disjunction.append_cancel (stops_close after []) (stops_close after' []) hinside
  obtain ⟨rfl, -⟩ := Blanks.append_inj rfl rfl hclose
  exact ⟨rfl, hd htext, rfl⟩

/-- Operands with one text stand for one expression. -/
lemma Operand.expr_eq_of_text_eq {o o' : Operand} (h : o.text = o'.text) : o.expr = o'.expr := by
  have hnil : Ends [] := trivial
  have happend : o.text ++ [] = o'.text ++ [] := by rw [h]
  exact (Operand.append_cancel hnil hnil happend).2.1

lemma Joiner.text_append_ne_nil {word : List Char} (j : Joiner word) (s : List Char) :
    j.text ++ s ≠ [] := by
  rw [Joiner.text, List.append_assoc, List.append_assoc]
  obtain ⟨c, t, -, h⟩ := j.before.exists_append_eq (j.spelling.chars ++ (j.after.chars ++ s))
  rw [h]
  exact List.cons_ne_nil c t

/-- An operand does not go on behind a word that joins operands. -/
lemma Operand.text_ne_joined {o o' : Operand} {word : List Char} (j : Joiner word)
    {s : List Char} : o.text ≠ o'.text ++ (j.text ++ s) := fun h =>
  have hends := Operand.append_cancel (s := []) trivial (j.ends s) ((List.append_nil _).trans h)
  j.text_append_ne_nil s hends.2.2.symm

/-- A conjunction does not go on behind the other word. -/
lemma Conjunction.text_ne_joined {c c' : Conjunction} (j : Joiner ['o', 'r']) {s : List Char} :
    c.text ≠ c'.text ++ (j.text ++ s) := fun h =>
  have hends := Conjunction.append_cancel (s := []) trivial (j.ends s) rfl (joiner?_and_or j s)
    ((List.append_nil _).trans h)
  j.text_append_ne_nil s hends.2.2.symm

lemma Name.initial_ne_open (n : Name) : n.initial ≠ '(' := by
  intro h
  have hmark := n.isMark n.initial List.mem_cons_self
  rw [h] at hmark
  cases hmark

lemma ComparisonWord.comparison_ne_exists (w : ComparisonWord) : w.comparison ≠ .exists := by
  have hwords : ∀ x ∈ comparisonWords, x.2 ≠ .exists := by decide
  exact hwords _ w.listed

mutual

lemma Operand.text_inj : ∀ {o o' : Operand}, o.text = o'.text → o = o'
  | .negation gap before d after, .negation gap' before' d' after', h => by
      simp only [Operand.text, List.cons_append, List.append_assoc, List.cons.injEq, true_and] at h
      obtain ⟨rfl, hopen⟩ := Blanks.append_inj rfl rfl h
      obtain ⟨rfl, rfl, rfl⟩ := enclosed_inj Disjunction.text_inj (List.cons.inj hopen).2
      rfl
  | .parentheses before d after, .parentheses before' d' after', h => by
      simp only [Operand.text, List.cons_append, List.append_assoc, List.cons.injEq, true_and] at h
      obtain ⟨rfl, rfl, rfl⟩ := enclosed_inj Disjunction.text_inj h
      rfl
  | .all w, .all w', h => by
      rw [Operand.text, Operand.text] at h
      rw [Spelling.ext h]
  | .present n g w, .present n' g' w', h => by
      simp only [Operand.text, List.append_assoc] at h
      obtain ⟨rfl, hgap⟩ := Name.append_inj (startsWithNameChar_of_ends (g.ends _))
        (startsWithNameChar_of_ends (g'.ends _)) h
      have hw := w.startsBlank isWord_present []
      have hw' := w'.startsBlank isWord_present []
      rw [List.append_nil] at hw hw'
      obtain ⟨rfl, hword⟩ := Gap.append_inj hw hw' hgap
      rw [Spelling.ext hword]
  | .compare n g w p v, .compare n' g' w' p' v', h => by
      simp only [Operand.text, List.append_assoc] at h
      obtain ⟨rfl, hgap⟩ := Name.append_inj (startsWithNameChar_of_ends (g.ends _))
        (startsWithNameChar_of_ends (g'.ends _)) h
      obtain ⟨rfl, hword⟩ := Gap.append_inj (w.spelling.startsBlank w.isWord _)
        (w'.spelling.startsBlank w'.isWord _) hgap
      obtain ⟨rfl, hspace⟩ := ComparisonWord.append_inj hword
      have hv := v.startsBlank []
      have hv' := v'.startsBlank []
      rw [List.append_nil] at hv hv'
      obtain ⟨rfl, hvalue⟩ := Gap.append_inj hv hv' hspace
      rw [ValueForm.text_inj hvalue]
  -- a sign in front tells what it is, and leaves without one stand for different expressions
  | .negation .., .parentheses .., h | .parentheses .., .negation .., h => by
      simp [Operand.text] at h
  | .parentheses .., .all w, h => by
      rw [Operand.text, Operand.text] at h
      exact absurd (w.isMark isWord_all '(' (by simp [← h])) (by decide)
  | .all w, .parentheses .., h => by
      rw [Operand.text, Operand.text] at h
      exact absurd (w.isMark isWord_all '(' (by simp [h])) (by decide)
  | .parentheses .., .present n _ _, h | .parentheses .., .compare n _ _ _ _, h => by
      simp only [Operand.text, Name.chars, List.cons_append, List.cons.injEq] at h
      exact absurd h.1.symm n.initial_ne_open
  | .present n _ _, .parentheses .., h | .compare n _ _ _ _, .parentheses .., h => by
      simp only [Operand.text, Name.chars, List.cons_append, List.cons.injEq] at h
      exact absurd h.1 n.initial_ne_open
  | .present .., .compare _ _ w _ _, h => by
      have hexpr := Operand.expr_eq_of_text_eq h
      simp only [Operand.expr, Expr.isPresent, Expr.compare.injEq] at hexpr
      exact absurd hexpr.1.symm w.comparison_ne_exists
  | .compare _ _ w _ _, .present .., h => by
      have hexpr := Operand.expr_eq_of_text_eq h
      simp only [Operand.expr, Expr.isPresent, Expr.compare.injEq] at hexpr
      exact absurd hexpr.1 w.comparison_ne_exists
  | .negation .., .all _, h | .negation .., .present .., h | .negation .., .compare .., h
  | .all _, .negation .., h | .present .., .negation .., h | .compare .., .negation .., h
  | .all _, .present .., h | .all _, .compare .., h | .present .., .all _, h
  | .compare .., .all _, h => by
      have hexpr := Operand.expr_eq_of_text_eq h
      simp [Operand.expr, Expr.isPresent] at hexpr

lemma Conjunction.text_inj : ∀ {c c' : Conjunction}, c.text = c'.text → c = c'
  | .single o, .single o', h => by rw [Operand.text_inj h]
  | .joined o j c, .joined o' j' c', h => by
      simp only [Conjunction.text, List.append_assoc] at h
      obtain ⟨ho, -, hjoined⟩ := Operand.append_cancel (j.ends _) (j'.ends _) h
      have hc := c.startsBlank_text []
      have hc' := c'.startsBlank_text []
      rw [List.append_nil] at hc hc'
      obtain ⟨rfl, hrest⟩ := Joiner.append_inj isWord_and hc hc' hjoined
      rw [Operand.text_inj ho, Conjunction.text_inj hrest]
  | .single o, .joined o' j c, h => by
      rw [Conjunction.text, Conjunction.text, List.append_assoc] at h
      exact absurd h (Operand.text_ne_joined j)
  | .joined o j c, .single o', h => by
      rw [Conjunction.text, Conjunction.text, List.append_assoc] at h
      exact absurd h.symm (Operand.text_ne_joined j)

lemma Disjunction.text_inj : ∀ {d d' : Disjunction}, d.text = d'.text → d = d'
  | .single c, .single c', h => by rw [Conjunction.text_inj h]
  | .joined c j d, .joined c' j' d', h => by
      simp only [Disjunction.text, List.append_assoc] at h
      obtain ⟨hc, -, hjoined⟩ :=
        Conjunction.append_cancel (j.ends _) (j'.ends _) (joiner?_and_or j _)
          (joiner?_and_or j' _) h
      have hd := d.startsBlank_text []
      have hd' := d'.startsBlank_text []
      rw [List.append_nil] at hd hd'
      obtain ⟨rfl, hrest⟩ := Joiner.append_inj isWord_or hd hd' hjoined
      rw [Conjunction.text_inj hc, Disjunction.text_inj hrest]
  | .single c, .joined c' j d, h => by
      rw [Disjunction.text, Disjunction.text, List.append_assoc] at h
      exact absurd h (Conjunction.text_ne_joined j)
  | .joined c j d, .single c', h => by
      rw [Disjunction.text, Disjunction.text, List.append_assoc] at h
      exact absurd h.symm (Conjunction.text_ne_joined j)

end

/-- **What `parse` accepts:** the derived texts that keep the nesting limit, between blanks; it
gives what the derivation stands for, and no text is derived in two ways. -/
theorem parse_eq_ok_iff_exists_disjunction :
    (∀ (s : String) (e : Expr), parse s = .ok e ↔
      ∃ d : Disjunction, d.text = Text.trim s.toList ∧ nesting d.text ≤ nestingLimit ∧
        d.expr = e) ∧
      Function.Injective Disjunction.text := by
  refine ⟨fun s e => ⟨exists_disjunction_of_parse_eq, ?_⟩, fun _ _ => Disjunction.text_inj⟩
  rintro ⟨d, hd, hnesting, rfl⟩
  rw [parse_of_trim_eq hd.symm, if_pos hnesting]

end AccessFilter.Query
