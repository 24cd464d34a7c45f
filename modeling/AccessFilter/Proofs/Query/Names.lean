import AccessFilter.Proofs.Query.Cycle

/-!
# Only names that can be written are read

Every expression is written, whatever the names in it are, and what is written is read only if they
are names.

**Where names stand.**  Every comparison of a written expression stands directly behind a
parenthesis, if a pair of parentheses is put around the whole: `shows_exprText`.

**What stands there in a query.**  Behind every parenthesis that opens in a query outside quotes a
query begins, and a query that begins with a name, a comparison and a value has a name there:
`begins_of_mem_openings`, `isName_of_begins`.
-/

namespace AccessFilter.Query

/-! ## Where parentheses open -/

/-- What stands behind the parentheses that open in a text.  Between quotes, where `quoted` is true,
nothing opens, and the character after a backslash does not end them. -/
def openings : (quoted : Bool) → List Char → List (List Char)
  | _, [] => []
  | true, '\\' :: _ :: s => openings true s
  | true, c :: s => openings (c != '\'') s
  | false, c :: s => if c = '(' then s :: openings false s else openings (c == '\'') s

lemma openings_open (s : List Char) : openings false ('(' :: s) = s :: openings false s := by
  rw [openings, if_pos rfl]

lemma openings_close (s : List Char) : openings false (')' :: s) = openings false s := by
  rw [openings, if_neg (by decide)]
  rfl

lemma openings_cons {c : Char} (h : isMark c = false) (s : List Char) :
    openings false (c :: s) = openings false s := by
  simp only [isMark, Bool.or_eq_false_iff, beq_eq_false_iff_ne] at h
  obtain ⟨⟨hopen, -⟩, hquote⟩ := h
  rw [openings, if_neg hopen, beq_false_of_ne hquote]

/-- Texts without parentheses and quotes open nothing. -/
lemma openings_append_of_forall {w : List Char} (h : ∀ c ∈ w, isMark c = false) (s : List Char) :
    openings false (w ++ s) = openings false s := by
  induction w with
  | nil => rfl
  | cons c w ih =>
      rw [List.cons_append, openings_cons (h c List.mem_cons_self),
        ih fun d hd => h d (List.mem_cons_of_mem c hd)]

lemma openings_piece (p : QuotedPiece) (s : List Char) :
    openings true (p.text ++ s) = openings true s := by
  cases p with
  | plain c h =>
      have hc : (c != '\'') = true := bne_iff_ne.mpr h.1
      rw [QuotedPiece.text, List.singleton_append, openings, hc]
      exact fun _ _ hslash => absurd hslash h.2
  | escaped c => rw [QuotedPiece.text, List.cons_append, List.singleton_append, openings]

/-- A value opens nothing: between its quotes nothing counts. -/
lemma openings_value (v : ValueForm) (s : List Char) :
    openings false (v.text ++ s) = openings false s := by
  have hpieces : ∀ ps : List QuotedPiece,
      openings true (ps.flatMap QuotedPiece.text ++ '\'' :: s) = openings false s := by
    intro ps
    induction ps with
    | nil =>
        rw [List.flatMap_nil, List.nil_append, openings]
        · rfl
        · simp
    | cons p ps ih => rw [List.flatMap_cons, List.append_assoc, openings_piece, ih]
  obtain ⟨ps, rfl⟩ | h := v.quoted_or_token?
  · simp only [ValueForm.text, List.cons_append, List.append_assoc, List.nil_append]
    rw [openings, if_neg (by decide)]
    exact hpieces ps
  · exact openings_append_of_forall (isMark_of_token? h) s

/-! ## Behind them queries begin -/

/-- A text that begins with a query, between blanks, and a closing parenthesis. -/
def Begins (s : List Char) : Prop :=
  ∃ (lead : List Char) (d : Disjunction) (trail rest : List Char),
    (∀ c ∈ lead, Text.isBlank c = true) ∧ (∀ c ∈ trail, Text.isBlank c = true) ∧
      s = lead ++ (d.text ++ (trail ++ ')' :: rest))

lemma Blanks.isBlank (b : Blanks) : ∀ c ∈ b.chars, Text.isBlank c = true := by
  intro c hc
  rcases eq_of_isSpaceOrTab (b.blank c hc) with rfl | rfl <;> decide

/-- Parentheses around a query open at the query and where the query opens them. -/
lemma begins_of_mem_openings_enclosed {before after : Blanks} {d : Disjunction} {s t : List Char}
    (hd : ∀ r, ∀ t ∈ openings false (d.text ++ r), Begins t ∨ t ∈ openings false r)
    (ht : t ∈ openings false ('(' :: (before.chars ++ (d.text ++ (after.chars ++ ')' :: s))))) :
    Begins t ∨ t ∈ openings false s := by
  rw [openings_open, openings_append_of_forall before.isMark, List.mem_cons] at ht
  rcases ht with rfl | ht
  · exact .inl ⟨before.chars, d, after.chars, s, before.isBlank, after.isBlank, rfl⟩
  · have hbehind := hd _ t ht
    rwa [openings_append_of_forall after.isMark, openings_close] at hbehind

mutual

/-- **Behind every parenthesis that opens in a query a query begins.** -/
theorem Operand.begins_of_mem_openings : ∀ (o : Operand) (s : List Char),
    ∀ t ∈ openings false (o.text ++ s), Begins t ∨ t ∈ openings false s
  | .negation gap before d after, s, t, ht => by
      simp only [Operand.text, List.append_assoc, List.cons_append, List.nil_append] at ht
      rw [openings_cons rfl, openings_append_of_forall gap.isMark] at ht
      exact begins_of_mem_openings_enclosed d.begins_of_mem_openings ht
  | .parentheses before d after, s, t, ht => by
      simp only [Operand.text, List.append_assoc, List.cons_append, List.nil_append] at ht
      exact begins_of_mem_openings_enclosed d.begins_of_mem_openings ht
  | .all w, s, t, ht => by
      rw [Operand.text, openings_append_of_forall (w.isMark isWord_all)] at ht
      exact .inr ht
  | .present n g w, s, t, ht => by
      rw [Operand.text, List.append_assoc, List.append_assoc, openings_append_of_forall n.isMark,
        openings_append_of_forall g.isMark, openings_append_of_forall (w.isMark isWord_present)]
        at ht
      exact .inr ht
  | .compare n g w p v, s, t, ht => by
      simp only [Operand.text, List.append_assoc] at ht
      rw [openings_append_of_forall n.isMark, openings_append_of_forall g.isMark,
        openings_append_of_forall (w.spelling.isMark w.isWord),
        openings_append_of_forall p.isMark, openings_value] at ht
      exact .inr ht

lemma Conjunction.begins_of_mem_openings : ∀ (c : Conjunction) (s : List Char),
    ∀ t ∈ openings false (c.text ++ s), Begins t ∨ t ∈ openings false s
  | .single o, s, t, ht => o.begins_of_mem_openings s t (by rwa [Conjunction.text] at ht)
  | .joined o j c, s, t, ht => by
      rw [Conjunction.text, List.append_assoc, List.append_assoc] at ht
      rcases o.begins_of_mem_openings _ t ht with hbegins | hbehind
      · exact .inl hbegins
      · rw [openings_append_of_forall (j.isMark isWord_and)] at hbehind
        exact c.begins_of_mem_openings s t hbehind

lemma Disjunction.begins_of_mem_openings : ∀ (d : Disjunction) (s : List Char),
    ∀ t ∈ openings false (d.text ++ s), Begins t ∨ t ∈ openings false s
  | .single c, s, t, ht => c.begins_of_mem_openings s t (by rwa [Disjunction.text] at ht)
  | .joined c j d, s, t, ht => by
      rw [Disjunction.text, List.append_assoc, List.append_assoc] at ht
      rcases c.begins_of_mem_openings _ t ht with hbegins | hbehind
      · exact .inl hbegins
      · rw [openings_append_of_forall (j.isMark isWord_or)] at hbehind
        exact d.begins_of_mem_openings s t hbehind

end

/-! ## A query that begins with a comparison -/

/-- What stands behind an operand of a query, where `s` stands behind the query: the same, or a word
that joins another operand. -/
inductive Behind (s : List Char) : List Char → Prop where
  | last : Behind s s
  | and (j : Joiner ['a', 'n', 'd']) (t : List Char) : Behind s (j.text ++ t)
  | or (j : Joiner ['o', 'r']) (t : List Char) : Behind s (j.text ++ t)

lemma Conjunction.exists_operand (c : Conjunction) (s : List Char) :
    ∃ (o : Operand) (r : List Char), c.text ++ s = o.text ++ r ∧
      (r = s ∨ ∃ (j : Joiner ['a', 'n', 'd']) (t : List Char), r = j.text ++ t) := by
  cases c with
  | single o => exact ⟨o, s, by rw [Conjunction.text], .inl rfl⟩
  | joined o j c =>
      exact ⟨o, _, by rw [Conjunction.text, List.append_assoc, List.append_assoc],
        .inr ⟨j, _, rfl⟩⟩

/-- A query begins with an operand. -/
lemma Disjunction.exists_operand (d : Disjunction) (s : List Char) :
    ∃ (o : Operand) (r : List Char), d.text ++ s = o.text ++ r ∧ Behind s r := by
  cases d with
  | single c =>
      obtain ⟨o, r, htext, hr⟩ := c.exists_operand s
      refine ⟨o, r, by rw [Disjunction.text, htext], ?_⟩
      rcases hr with rfl | ⟨j, t, rfl⟩
      · exact .last
      · exact .and j t
  | joined c j d =>
      obtain ⟨o, r, htext, hr⟩ := c.exists_operand (j.text ++ (d.text ++ s))
      refine ⟨o, r, by rw [Disjunction.text, List.append_assoc, List.append_assoc, htext], ?_⟩
      rcases hr with rfl | ⟨k, t, rfl⟩
      · exact .or j _
      · exact .and k t

lemma isBlank_of_isNameChar {c : Char} (h : isNameChar c = true) : Text.isBlank c = false := by
  simp only [isNameChar, Bool.or_eq_true, beq_iff_eq] at h
  rcases h with ((halphanum | rfl) | rfl) | rfl
  · exact Text.isBlank_of_isAlphanum halphanum
  all_goals decide

lemma startsWithNameChar_of_isBlank {trail : List Char}
    (h : ∀ c ∈ trail, Text.isBlank c = true) (rest : List Char) :
    startsWithNameChar (trail ++ ')' :: rest) = false := by
  cases trail with
  | nil => rfl
  | cons b trail =>
      rw [List.cons_append, startsWithNameChar, ← Bool.not_eq_true]
      intro hname
      have hb := h b List.mem_cons_self
      rw [isBlank_of_isNameChar hname] at hb
      cases hb

/-- A text has one longest beginning with characters of names. -/
lemma append_inj_of_isNameChar {w w' s s' : List Char} (hw : ∀ c ∈ w, isNameChar c = true)
    (hw' : ∀ c ∈ w', isNameChar c = true) (hs : startsWithNameChar s = false)
    (hs' : startsWithNameChar s' = false) (h : w ++ s = w' ++ s') : w = w' ∧ s = s' := by
  have htake : ∀ {t : List Char}, startsWithNameChar t = false → t.takeWhile isNameChar = [] := by
    intro t ht
    cases t with
    | nil => rfl
    | cons c t =>
        rw [startsWithNameChar] at ht
        rw [List.takeWhile_cons, ht]
        rfl
  have hwhile := congrArg (List.takeWhile isNameChar) h
  rw [List.takeWhile_append_of_pos hw, List.takeWhile_append_of_pos hw', htake hs, htake hs',
    List.append_nil, List.append_nil] at hwhile
  obtain rfl := hwhile
  exact ⟨rfl, List.append_cancel_left h⟩

/-- The words of comparisons begin like nothing else that may stand behind an operand. -/
lemma exists_cons_of_mem_comparisonWords {word : List Char} {c : Comparison}
    (h : (word, c) ∈ comparisonWords) : ∃ a as, word = a :: as ∧ 'a'.toLower ≠ a.toLower ∧
      'o'.toLower ≠ a.toLower ∧ a ≠ ')' ∧ Text.isBlank a = false := by
  have hwords : ∀ x ∈ comparisonWords, ∃ a as, x.1 = a :: as ∧ 'a'.toLower ≠ a.toLower ∧
      'o'.toLower ≠ a.toLower ∧ a ≠ ')' ∧ Text.isBlank a = false := by
    simp +decide [comparisonWords]
  exact hwords _ h

/-- A word behind a blank is the one that joins, if a joiner stands there. -/
lemma dropWord?_of_joiner {word s t : List Char} (hword : IsWord word) {j : Joiner word}
    (hs : startsBlank s = false) (h : ' ' :: s = j.text ++ t) : Text.dropWord? word s ≠ none := by
  simp only [Joiner.text, List.append_assoc] at h
  obtain ⟨-, rfl⟩ := Blanks.append_inj (b := space.toBlanks) hs
    (j.spelling.startsBlank hword _) h
  rw [dropWord?_text]
  exact Option.some_ne_none _

section

/- What stands behind an operand of a query that stands between blanks and parentheses. -/
variable {trail rest r : List Char} (htrail : ∀ c ∈ trail, Text.isBlank c = true)
  (hr : Behind (trail ++ ')' :: rest) r)
include htrail hr

lemma startsWithNameChar_of_behind : startsWithNameChar r = false := by
  cases hr with
  | last => exact startsWithNameChar_of_isBlank htrail rest
  | and j t => exact startsWithNameChar_of_ends (j.ends t)
  | or j t => exact startsWithNameChar_of_ends (j.ends t)

/-- A comparison does not stand behind an operand. -/
lemma ne_of_behind {word t : List Char} {c : Comparison} (hword : (word, c) ∈ comparisonWords) :
    ' ' :: (word ++ t) ≠ r := by
  obtain ⟨a, as, rfl, hand, hor, hclose, hvisible⟩ := exists_cons_of_mem_comparisonWords hword
  have hblank : startsBlank (a :: as ++ t) = false := isSpaceOrTab_of_isBlank hvisible
  intro heq
  cases hr with
  | last =>
      -- the first character that is no blank would be both a letter and a parenthesis
      have hdrop := congrArg (List.dropWhile Text.isBlank) heq
      rw [List.dropWhile_append_of_pos htrail, List.dropWhile_cons_of_pos (by decide),
        List.cons_append, List.dropWhile_cons_of_neg (by simp [hvisible])] at hdrop
      exact hclose (List.cons.inj hdrop).1
  | and j u => exact dropWord?_of_joiner isWord_and hblank heq (dropWord?_eq_none hand _ _)
  | or j u => exact dropWord?_of_joiner isWord_or hblank heq (dropWord?_eq_none hor _ _)

end

/-- A name of a derivation that is written in front of something else is what was written. -/
lemma isName_of_append_eq {cs s s' : List Char} (hcs : ∀ c ∈ cs, isNameChar c = true)
    (hs : startsWithNameChar s = false) {n : Name} {g : Gap}
    (h : cs ++ s = n.chars ++ (g.chars ++ s')) : IsName (String.ofList cs) := by
  obtain ⟨rfl, -⟩ := append_inj_of_isNameChar hcs n.isNameChar hs
    (startsWithNameChar_of_ends (g.ends s')) h
  exact n.isName

/-- **Where a query begins with characters of names and a comparison, these are a name.** -/
lemma isName_of_begins {cs word t : List Char} {c : Comparison} (hne : cs ≠ [])
    (hcs : ∀ c ∈ cs, isNameChar c = true) (hword : (word, c) ∈ comparisonWords)
    (h : Begins (cs ++ ' ' :: (word ++ t))) : IsName (String.ofList cs) := by
  obtain ⟨lead, d, trail, rest, hlead, htrail, hd⟩ := h
  obtain ⟨a, as, rfl⟩ := List.exists_cons_of_ne_nil hne
  have ha := hcs a List.mem_cons_self
  obtain rfl : lead = [] := by
    cases lead with
    | nil => rfl
    | cons b lead =>
        obtain ⟨rfl, -⟩ := List.cons.inj hd
        have hb := hlead a List.mem_cons_self
        rw [isBlank_of_isNameChar ha] at hb
        cases hb
  obtain ⟨o, r, hfirst, hr⟩ := d.exists_operand (trail ++ ')' :: rest)
  rw [List.nil_append, hfirst] at hd
  cases o with
  | negation gap before d after =>
      rw [Operand.text] at hd
      obtain ⟨rfl, -⟩ := List.cons.inj hd
      cases ha
  | parentheses before d after =>
      rw [Operand.text] at hd
      obtain ⟨rfl, -⟩ := List.cons.inj hd
      cases ha
  | present n g w =>
      rw [Operand.text, List.append_assoc, List.append_assoc] at hd
      exact isName_of_append_eq hcs rfl hd
  | compare n g w p v =>
      simp only [Operand.text, List.append_assoc] at hd
      exact isName_of_append_eq hcs rfl hd
  | all w =>
      -- the word that matches everything is all of the name, and a comparison cannot follow it
      have hw : ∀ c ∈ w.chars, isNameChar c = true := fun c hc =>
        isNameChar_of_isAlpha (w.isAlpha isWord_all c hc)
      rw [Operand.text] at hd
      obtain ⟨-, hbehind⟩ :=
        append_inj_of_isNameChar hcs hw rfl (startsWithNameChar_of_behind htrail hr) hd
      exact absurd hbehind (ne_of_behind htrail hr hword)

/-! ## Where comparisons stand in a written expression -/

/-- A comparison by a word, with a value that can be written, whose name has characters of names. -/
def Worded (l : Comparison × Target) : Prop :=
  (l.2.name.toList ≠ [] ∧ ∀ c ∈ l.2.name.toList, isNameChar c = true) ∧
    (∃ word, (word, l.1) ∈ comparisonWords) ∧ ReadsBack l.2.value

lemma Worded.exists_compareText_eq {l : Comparison × Target} (h : Worded l) :
    ∃ word, (word, l.1) ∈ comparisonWords ∧
      compareText l.1 l.2 = l.2.name.toList ++ ' ' :: (word ++ ' ' :: literal l.2.value) := by
  obtain ⟨c, t⟩ := l
  obtain ⟨-, ⟨word, hword⟩, -⟩ := h
  refine ⟨word, hword, ?_⟩
  have hwords : ∀ x ∈ comparisonWords, word? x.2 = some x.1 := by decide
  have hword? : word? c = some word := hwords _ hword
  cases c with
  | «exists» | isIn | hasChanged => cases hword?
  | equals | contains | startsWith | endsWith | greaterThan | greaterOrEqual | lessThan
  | lessOrEqual =>
      obtain rfl := Option.some.inj hword?
      simp [compareText, comparisonText, word?]

lemma Worded.compareText_ne_nil {l : Comparison × Target} (h : Worded l) :
    compareText l.1 l.2 ≠ [] := by
  obtain ⟨word, -, htext⟩ := h.exists_compareText_eq
  rw [htext]
  exact fun hnil => h.1.1 (List.append_eq_nil_iff.mp hnil).1

/-- A comparison opens nothing. -/
lemma Worded.openings_compareText {l : Comparison × Target} (h : Worded l) (s : List Char) :
    openings false (compareText l.1 l.2 ++ s) = openings false s := by
  obtain ⟨word, hword, htext⟩ := h.exists_compareText_eq
  obtain ⟨⟨-, hname⟩, -, hvalue⟩ := h
  obtain ⟨v, hv, -⟩ := exists_literal hvalue
  have hletters := (⟨word, rfl⟩ : Spelling word).isMark (ComparisonWord.small hword).isWord
  rw [htext, ← hv, List.append_assoc, List.cons_append, List.append_assoc, List.cons_append,
    openings_append_of_forall fun c hc => isMark_of_isNameChar (hname c hc), openings_cons rfl,
    openings_append_of_forall hletters, openings_cons rfl, openings_value]

lemma parenthesized_append (w s : List Char) : parenthesized w ++ s = '(' :: (w ++ ')' :: s) := by
  simp [parenthesized]

/-- Whether a text, whatever stands behind it, opens nothing less than what stands behind it. -/
def Balanced (w : List Char) : Prop :=
  ∀ s, openings false s ⊆ openings false (w ++ s)

/-- Whether comparisons stand behind parentheses that open in a text, and in front of closing
ones. -/
def Shows (w : List Char) (ls : List (Comparison × Target)) : Prop :=
  ∀ s, ∀ l ∈ ls, ∃ r, compareText l.1 l.2 ++ ')' :: r ∈ openings false (w ++ s)

lemma Balanced.append {w w' : List Char} (h : Balanced w) (h' : Balanced w') :
    Balanced (w ++ w') := by
  intro s
  rw [List.append_assoc]
  exact List.Subset.trans (h' s) (h (w' ++ s))

lemma Balanced.parenthesized {w : List Char} (h : Balanced w) : Balanced (parenthesized w) := by
  intro s
  have hclose := h (')' :: s)
  rw [openings_close] at hclose
  rw [parenthesized_append, openings_open]
  exact List.Subset.trans hclose (List.subset_cons_self _ _)

/-- What a text shows it shows behind another text and in front of it. -/
lemma Shows.append_left {w w' : List Char} {ls : List (Comparison × Target)} (h : Shows w' ls)
    (hw : Balanced w) : Shows (w ++ w') ls := by
  intro s l hl
  obtain ⟨r, hr⟩ := h s l hl
  exact ⟨r, by rw [List.append_assoc]; exact hw _ hr⟩

lemma Shows.append_right {w : List Char} {ls : List (Comparison × Target)} (h : Shows w ls)
    (w' : List Char) : Shows (w ++ w') ls := by
  intro s
  rw [List.append_assoc]
  exact h (w' ++ s)

lemma Shows.parenthesized {w : List Char} {ls : List (Comparison × Target)} (h : Shows w ls) :
    Shows (parenthesized w) ls := by
  intro s l hl
  obtain ⟨r, hr⟩ := h (')' :: s) l hl
  refine ⟨r, ?_⟩
  rw [parenthesized_append, openings_open]
  exact List.mem_cons_of_mem _ hr

lemma Shows.union {w : List Char} {ls ls' : List (Comparison × Target)} (h : Shows w ls)
    (h' : Shows w ls') : Shows w (ls ++ ls') := by
  intro s l hl
  rcases List.mem_append.mp hl with hl | hl
  · exact h s l hl
  · exact h' s l hl

/-- No comparison shows where nothing is written. -/
lemma Shows.eq_nil {ls : List (Comparison × Target)} (hworded : ∀ l ∈ ls, Worded l)
    (h : Shows (Query.parenthesized []) ls) : ls = [] := by
  cases ls with
  | nil => rfl
  | cons l ls =>
      have hne := (hworded l List.mem_cons_self).compareText_ne_nil
      obtain ⟨r, hr⟩ := h [] l List.mem_cons_self
      have hnil : openings false (Query.parenthesized [] ++ []) = [[')']] := rfl
      rw [hnil, List.mem_singleton] at hr
      obtain ⟨a, as, ha⟩ := List.exists_cons_of_ne_nil hne
      simp [ha] at hr

/-- A list of texts with a word between them is a text, the word or nothing, and the others. -/
lemma exists_intercalate_cons (word w : List Char) (ws : List (List Char)) :
    ∃ sep, (sep = [] ∨ sep = word) ∧
      word.intercalate (w :: ws) = w ++ (sep ++ word.intercalate ws) := by
  cases ws with
  | nil => exact ⟨[], .inl rfl, by simp⟩
  | cons w' ws => exact ⟨word, .inr rfl, by simp⟩

/-- Operands joined by a word show what each of them shows. -/
lemma shows_join {word : List Char} (hword : ∀ c ∈ word, isMark c = false) {es : List Expr}
    (hworded : ∀ l ∈ leavesAll es, Worded l)
    (h : ∀ e ∈ es, Balanced (exprText e) ∧ Shows (parenthesized (exprText e)) (leaves e)) :
    Balanced (join word (exprTexts es)) ∧ Shows (join word (exprTexts es)) (leavesAll es) := by
  induction es with
  | nil => exact ⟨fun s => List.Subset.refl _, fun s l hl => by rw [leavesAll] at hl; cases hl⟩
  | cons e es ih =>
      obtain ⟨⟨hbalanced, hshows⟩, hes⟩ := List.forall_mem_cons.mp h
      rw [leavesAll, List.forall_mem_append] at hworded
      obtain ⟨ihbalanced, ihshows⟩ := ih hworded.2 hes
      rw [exprTexts, leavesAll]
      cases htext : exprText e with
      | nil =>
          rw [htext] at hshows
          rw [hshows.eq_nil hworded.1]
          exact ⟨ihbalanced, ihshows⟩
      | cons c s =>
          rw [htext] at hbalanced hshows
          have hjoin : join word ((c :: s) :: exprTexts es) = word.intercalate
              (parenthesized (c :: s) ::
                ((exprTexts es).filter fun s => !s.isEmpty).map parenthesized) := rfl
          obtain ⟨sep, hsep, hintercalate⟩ := exists_intercalate_cons word (parenthesized (c :: s))
            (((exprTexts es).filter fun s => !s.isEmpty).map parenthesized)
          have hseparated : Balanced sep := by
            intro s
            rcases hsep with rfl | rfl
            · exact List.Subset.refl _
            · rw [openings_append_of_forall hword]
              exact List.Subset.refl _
          rw [hjoin, hintercalate]
          have hfront := hbalanced.parenthesized
          refine ⟨hfront.append (hseparated.append ihbalanced), ?_⟩
          exact (hshows.append_right _).union
            ((ihshows.append_left hseparated).append_left hfront)

lemma isMark_andWord : ∀ c ∈ andWord, isMark c = false := by simp [andWord, isMark]
lemma isMark_orWord : ∀ c ∈ orWord, isMark c = false := by simp [orWord, isMark]

mutual

/-- **In parentheses every comparison of a written expression stands behind one that opens.** -/
theorem shows_exprText : ∀ e : Expr, (∀ l ∈ leaves e, Worded l) →
    Balanced (exprText e) ∧ Shows (parenthesized (exprText e)) (leaves e)
  | .and es, h => by
      rw [leaves] at h
      obtain ⟨hbalanced, hshows⟩ := shows_join isMark_andWord h (shows_exprText_of_mem es h)
      rw [exprText, leaves]
      exact ⟨hbalanced, hshows.parenthesized⟩
  | .or es, h => by
      rw [leaves] at h
      obtain ⟨hbalanced, hshows⟩ := shows_join isMark_orWord h (shows_exprText_of_mem es h)
      rw [exprText, leaves]
      exact ⟨hbalanced, hshows.parenthesized⟩
  | .not e, h => by
      rw [leaves] at h
      obtain ⟨hbalanced, hshows⟩ := shows_exprText e h
      rw [exprText, leaves]
      cases htext : exprText e with
      | nil =>
          rw [htext] at hbalanced hshows
          exact ⟨hbalanced, hshows⟩
      | cons c s =>
          rw [htext] at hbalanced hshows
          have hbang : Balanced ['!'] := fun s => List.Subset.refl _
          exact ⟨hbang.append hbalanced.parenthesized, (hshows.append_left hbang).parenthesized⟩
  | .all, _ => by
      refine ⟨fun s => ?_, fun s l hl => by cases hl⟩
      have hword : ∀ c ∈ matchAll, isMark c = false := by simp [matchAll, isMark]
      rw [exprText, openings_append_of_forall hword]
      exact List.Subset.refl _
  | .compare c t, h => by
      have hworded := h _ (List.mem_singleton_self _)
      rw [exprText, leaves]
      refine ⟨fun s => ?_, fun s l hl => ?_⟩
      · rw [hworded.openings_compareText]
        exact List.Subset.refl _
      · obtain rfl := List.mem_singleton.mp hl
        refine ⟨s, ?_⟩
        rw [parenthesized_append, openings_open]
        exact List.mem_cons_self

lemma shows_exprText_of_mem : ∀ es : List Expr, (∀ l ∈ leavesAll es, Worded l) →
    ∀ e ∈ es, Balanced (exprText e) ∧ Shows (parenthesized (exprText e)) (leaves e)
  | [], _ => fun e he => by cases he
  | e :: es, h => by
      rw [leavesAll, List.forall_mem_append] at h
      exact List.forall_mem_cons.mpr ⟨shows_exprText e h.1, shows_exprText_of_mem es h.2⟩

end

lemma isMark_of_isBlank {c : Char} (h : Text.isBlank c = true) : isMark c = false := by
  cases hc : isMark c with
  | false => rfl
  | true =>
      simp only [isMark, Bool.or_eq_true, beq_iff_eq] at hc
      rcases hc with (rfl | rfl) | rfl <;> cases h

/-- Behind every parenthesis that opens in a query between parentheses and blanks a query begins. -/
lemma begins_of_mem_openings_parenthesized {lead trail t : List Char} {d : Disjunction}
    (hlead : ∀ c ∈ lead, Text.isBlank c = true) (htrail : ∀ c ∈ trail, Text.isBlank c = true)
    (ht : t ∈ openings false (parenthesized (lead ++ (d.text ++ trail)) ++ [])) : Begins t := by
  rw [parenthesized_append, openings_open, List.append_assoc, List.append_assoc,
    List.mem_cons] at ht
  rcases ht with rfl | ht
  · exact ⟨lead, d, trail, [], hlead, htrail, rfl⟩
  · rw [openings_append_of_forall fun c hc => isMark_of_isBlank (hlead c hc)] at ht
    rcases d.begins_of_mem_openings _ t ht with hbegins | hbehind
    · exact hbegins
    · rw [openings_append_of_forall fun c hc => isMark_of_isBlank (htrail c hc)] at hbehind
      cases hbehind

/-- An expression in which there is a comparison is written as its text. -/
lemma toList_print {e : Expr} (hworded : ∀ l ∈ leaves e, Worded l) (h : leaves e ≠ []) :
    (print (some e)).toList = exprText e := by
  obtain ⟨-, hshows⟩ := shows_exprText e hworded
  rw [print, Option.map_some, Option.getD_some]
  cases htext : exprText e with
  | nil =>
      rw [htext] at hshows
      exact absurd (hshows.eq_nil hworded) h
  | cons c s => exact String.toList_ofList

/-- **A written expression is read only if its names are names.** -/
theorem isName_of_parse_print {e x : Expr} (hworded : ∀ l ∈ leaves e, Worded l)
    (h : parse (print (some e)) = .ok x) : ∀ l ∈ leaves e, IsName l.2.name := by
  intro l hl
  obtain ⟨d, hd, -, -⟩ := exists_disjunction_of_parse_eq h
  rw [toList_print hworded (List.ne_nil_of_mem hl)] at hd
  obtain ⟨lead, trail, hlead, htrail, htrim⟩ := Text.exists_append_trim (exprText e)
  obtain ⟨r, hr⟩ := (shows_exprText e hworded).2 [] l hl
  rw [htrim, ← hd] at hr
  have hbegins := begins_of_mem_openings_parenthesized hlead htrail hr
  obtain ⟨word, hword, htext⟩ := (hworded l hl).exists_compareText_eq
  rw [htext, List.append_assoc, List.cons_append, List.append_assoc] at hbegins
  have hname := isName_of_begins (hworded l hl).1.1 (hworded l hl).1.2 hword hbegins
  rwa [String.ofList_toList] at hname

lemma Worded.writable {l : Comparison × Target} (h : Worded l) (hname : IsName l.2.name) :
    Writable l := by
  obtain ⟨-, ⟨word, hword⟩, hvalue⟩ := h
  have hcompared : comparedValues l.1 l.2 = [l.2.value] :=
    ((ComparisonWord.small hword).one_value l.2).2
  refine ⟨hname, ?_⟩
  rw [hcompared, List.forall_mem_singleton]
  exact hvalue

/-- **A written expression is read if and only if its names are names** and its text keeps the
nesting limit. -/
theorem exists_parse_print_eq_ok_iff {e : Expr} (hworded : ∀ l ∈ leaves e, Worded l) :
    (∃ x, parse (print (some e)) = .ok x) ↔
      (∀ l ∈ leaves e, IsName l.2.name) ∧ nesting (print (some e)).toList ≤ nestingLimit := by
  have hread : (∀ l ∈ leaves e, IsName l.2.name) → parse (print (some e)) =
      if nesting (print (some e)).toList ≤ nestingLimit then .ok (normal e)
      else .error .tooDeep := fun hnames =>
    parse_print fun l hl => (hworded l hl).writable (hnames l hl)
  constructor
  · rintro ⟨x, hx⟩
    have hnames := isName_of_parse_print hworded hx
    refine ⟨hnames, ?_⟩
    by_contra hdeep
    rw [hread hnames, if_neg hdeep] at hx
    cases hx
  · rintro ⟨hnames, hnesting⟩
    exact ⟨normal e, by rw [hread hnames, if_pos hnesting]⟩

end AccessFilter.Query
