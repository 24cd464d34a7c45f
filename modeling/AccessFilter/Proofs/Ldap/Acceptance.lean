import AccessFilter.Proofs.Except
import AccessFilter.Proofs.Ldap.Grammar
import AccessFilter.Proofs.Text.Blank
import AccessFilter.Proofs.Tree.Numbering

/-!
# The readers accept exactly the grammar

Every reader of `AccessFilter.Ldap.Reader` gets two lemmas.

**Completeness.**  On a derived text, whatever follows it, the reader gives the node of the
derivation and the text that follows (`value_textAll`, `item_text`, `filter_text`).  The filter
reader does so as long as its budget covers the height, and otherwise reports that it went too deep:
nothing else can be wrong with a derived text.

**Soundness.**  Where the reader gives a result there is a derivation of what it has read
(`exists_of_value_eq`, `exists_of_item_eq`, `readsForms_filter`).

Both are inductions on the budget with one on the filters of a list inside.  Together with
unambiguity they say what `parse` accepts and what it gives: `parse_eq_ok_iff_exists_form`.
-/

namespace AccessFilter.Ldap

/-! ## Values -/

lemma held_code (high low : Char) (b : UInt8) (h : Text.hexByte? high low = some b) :
    (Piece.code high low b h).held = byteBytes b := by
  simp only [Piece.held, Piece.isLiteralStar, Piece.bytes, byteBytes, beq_iff_eq]

lemma held_escaped (c : Char) : (Piece.escaped c).held = charBytes c := by
  simp only [Piece.held, Piece.isLiteralStar, Piece.bytes, charBytes, beq_iff_eq]

lemma value_plain {c : Char} (h : c ≠ '(' ∧ c ≠ ')' ∧ c ≠ '\\') (s : List Char) :
    value (c :: s) = prepend (String.utf8EncodeChar c) (value s) := by
  rw [value, if_neg h.2.1, if_neg h.1]
  · exact fun hc _ => h.2.2 hc
  · exact fun _ hc _ => h.2.2 hc
  · exact fun _ _ _ hc _ => h.2.2 hc

/-- **The value reader reads a derived value up to the closing parenthesis.** -/
lemma value_textAll (r : List Char) : ∀ {ps : List Piece}, Piece.Separated ps →
    value (Piece.textAll ps ++ ')' :: r) = .ok (Piece.heldAll ps, ')' :: r)
  | [], _ => rfl
  | .plain c hc :: ps, h => by
      have ih : value (Piece.textAll ps ++ ')' :: r) = _ := value_textAll r h
      rw [Piece.textAll_cons, Piece.text, List.singleton_append, List.cons_append, value_plain hc,
        ih]
      rfl
  | .code a b x hx :: ps, h => by
      have ih : value (Piece.textAll ps ++ ')' :: r) = _ := value_textAll r h
      rw [Piece.textAll_code, Piece.heldAll_cons, held_code]
      simp only [List.cons_append, value, hx]
      rw [ih]
      rfl
  | .escaped c :: ps, h => by
      obtain ⟨s, hs⟩ := Piece.exists_textAll_append ps r
      have ih := value_textAll r h.2
      rw [hs] at ih
      rw [Piece.textAll_escaped, Piece.heldAll_cons, held_escaped, List.cons_append,
        List.cons_append, hs]
      simp only [value, h.1]
      rw [ih]
      rfl

lemma prepend_eq_ok_iff {front bytes : List UInt8} {rest : Except Fault (List UInt8 × List Char)}
    {s : List Char} :
    prepend front rest = .ok (bytes, s) ↔ ∃ more, rest = .ok (more, s) ∧ bytes = front ++ more := by
  rw [prepend, map_eq_ok_iff]
  constructor
  · rintro ⟨⟨more, t⟩, hr, h⟩
    cases h
    exact ⟨more, hr, rfl⟩
  · rintro ⟨more, hr, rfl⟩
    exact ⟨(more, s), hr, rfl⟩

/-- **What the value reader has read is a derived value.** -/
lemma exists_of_value_eq {s : List Char} {bytes : List UInt8} {r : List Char}
    (h : value s = .ok (bytes, r)) :
    ∃ ps t, Piece.Separated ps ∧ s = Piece.textAll ps ++ ')' :: t ∧ bytes = Piece.heldAll ps ∧
      r = ')' :: t := by
  fun_induction value s generalizing bytes r with
  | case1 => cases h
  | case2 => cases h
  | case3 c => cases h
  | case4 c d s b hb ih =>
      obtain ⟨more, hm, rfl⟩ := prepend_eq_ok_iff.mp h
      obtain ⟨ps, t, hps, rfl, rfl, rfl⟩ := ih hm
      exact ⟨.code c d b hb :: ps, t, hps, by simp [Piece.text], by simp [held_code], rfl⟩
  | case5 c d s hcd ih =>
      obtain ⟨more, hm, rfl⟩ := prepend_eq_ok_iff.mp h
      obtain ⟨ps, t, hps, hs, rfl, rfl⟩ := ih hm
      obtain ⟨u, hu⟩ := Piece.exists_textAll_append ps t
      have hd : d = (Piece.textAll ps).headD ')' := (List.cons.inj (hs.trans hu)).1
      exact ⟨.escaped c :: ps, t, ⟨hd ▸ hcd, hps⟩, by simp [Piece.text, hs], by simp [held_escaped],
        rfl⟩
  | case6 s =>
      cases h
      exact ⟨[], s, trivial, rfl, rfl, rfl⟩
  | case7 => cases h
  | case8 c s hc1 hc2 hc3 hclose hopen ih =>
      obtain ⟨more, hm, rfl⟩ := prepend_eq_ok_iff.mp h
      obtain ⟨ps, t, hps, rfl, rfl, rfl⟩ := ih hm
      have hc : c ≠ '\\' := by
        intro hc
        cases hs : Piece.textAll ps ++ ')' :: t with
        | nil => exact absurd hs (by simp)
        | cons d s =>
            cases s with
            | nil => exact hc2 d hc hs
            | cons e s => exact hc3 d e s hc hs
      exact ⟨.plain c ⟨hopen, hclose, hc⟩ :: ps, t, hps, by simp [Piece.text],
        by simp [Piece.held, Piece.isLiteralStar, Piece.bytes], rfl⟩

lemma valueText_text (v : ValueForm) (r : List Char) :
    valueText (v.text ++ ')' :: r) = .ok (v.held, ')' :: r) := by
  rw [valueText, ValueForm.text, value_textAll r v.separated, ok_bind]
  simp only [v.decode?_heldAll, String.ofList_toList]

lemma exists_of_valueText_eq {s : List Char} {text : String} {r : List Char}
    (h : valueText s = .ok (text, r)) :
    ∃ (v : ValueForm) (t : List Char), s = v.text ++ ')' :: t ∧ text = v.held ∧ r = ')' :: t := by
  obtain ⟨⟨bytes, rest⟩, hv, h⟩ := bind_eq_ok_iff.mp h
  obtain ⟨ps, t, hps, rfl, rfl, rfl⟩ := exists_of_value_eq hv
  dsimp only at h
  split at h
  · next u hu =>
    obtain ⟨rfl, rfl⟩ := Prod.mk.inj (Except.ok.inj h)
    have hvalid := (Piece.isSome_decode?_heldAll ps).mp (by rw [hu]; rfl)
    refine ⟨⟨ps, hps, hvalid⟩, t, rfl, ?_, rfl⟩
    rw [ValueForm.held, hu, Option.getD_some]
  · cases h

/-! ## Items -/

lemma operator_text (sg : Sign) (s : List Char) :
    operator (sg.text ++ s) = .ok (sg.operator, s) := by
  cases sg <;> rfl

lemma exists_of_operator_eq {s r : List Char} {op : Operator} (h : operator s = .ok (op, r)) :
    ∃ sg : Sign, s = sg.text ++ r ∧ op = sg.operator := by
  unfold operator at h
  split at h
  · obtain ⟨rfl, rfl⟩ := Prod.mk.inj (Except.ok.inj h)
    exact ⟨.equal, rfl, rfl⟩
  · obtain ⟨rfl, rfl⟩ := Prod.mk.inj (Except.ok.inj h)
    exact ⟨.unequal, rfl, rfl⟩
  · obtain ⟨rfl, rfl⟩ := Prod.mk.inj (Except.ok.inj h)
    exact ⟨.atLeast, rfl, rfl⟩
  · obtain ⟨rfl, rfl⟩ := Prod.mk.inj (Except.ok.inj h)
    exact ⟨.atMost, rfl, rfl⟩
  · cases h

/-- **The item reader reads a derived item.** -/
lemma item_text (a : Attribute) (sg : Sign) (v : ValueForm) (r : List Char) :
    item (a.chars ++ (sg.text ++ (v.text ++ ')' :: r))) =
      .ok (itemRule a sg.operator v, ')' :: r) := by
  have hstop := sg.takeWhile_text_append (v.text ++ ')' :: r)
  have htake :
      (a.chars ++ (sg.text ++ (v.text ++ ')' :: r))).takeWhile isAttributeChar = a.chars := by
    rw [List.takeWhile_append_of_pos a.allowed, hstop, List.append_nil]
  have hdrop : (a.chars ++ (sg.text ++ (v.text ++ ')' :: r))).dropWhile isAttributeChar =
      sg.text ++ (v.text ++ ')' :: r) := by
    rw [List.dropWhile_append_of_pos a.allowed]
    cases sg <;> rfl
  have hne : a.chars.isEmpty = false := by
    rw [List.isEmpty_eq_false_iff]
    exact a.nonempty
  simp only [item, htake, hdrop, hne, operator_text, valueText_text, ok_bind, pure_eq_ok]
  rfl

/-- **What the item reader has read is a derived item.** -/
lemma exists_of_item_eq {s r : List Char} {rule : Rule} (h : item s = .ok (rule, r)) :
    ∃ (a : Attribute) (sg : Sign) (v : ValueForm) (t : List Char),
      s = a.chars ++ (sg.text ++ (v.text ++ ')' :: t)) ∧ rule = itemRule a sg.operator v ∧
        r = ')' :: t := by
  unfold item at h
  dsimp only at h
  split_ifs at h with hne
  obtain ⟨⟨op, s'⟩, hop, h⟩ := bind_eq_ok_iff.mp h
  obtain ⟨⟨text, s''⟩, hv, h⟩ := bind_eq_ok_iff.mp h
  obtain ⟨sg, hs, rfl⟩ := exists_of_operator_eq hop
  obtain ⟨v, t, rfl, rfl, rfl⟩ := exists_of_valueText_eq hv
  obtain ⟨rfl, rfl⟩ := Prod.mk.inj (Except.ok.inj h)
  refine ⟨⟨s.takeWhile isAttributeChar, ?_, ?_⟩, sg, v, t, ?_, rfl, rfl⟩
  · simpa using hne
  · exact fun c hc => List.mem_takeWhile_imp hc
  · rw [← hs, List.takeWhile_append_dropWhile]

/-! ## Filters -/

/-- **What the reader negates** is an equality, which becomes the negated one, or is put under a
not. -/
lemma negation_cases (n : Node) :
    (∃ r, n = .rule r ∧ r.operator = .equals ∧
      negation n = .rule { r with operator := .notEquals }) ∨
      negation n = .group .not 0 [n] := by
  cases n with
  | group c i ns => exact .inr rfl
  | rule r =>
      rw [negation]
      split_ifs with hop
      · exact .inl ⟨r, rfl, hop, rfl⟩
      · exact .inr rfl

/-- The reader negates as the grammar does. -/
lemma negation_node : ∀ f : Form, negation f.node = (Form.not f).node
  | .item a .equal v => rfl
  | .item a .unequal v | .item a .atLeast v | .item a .atMost v => rfl
  | .and fs | .or fs => rfl
  | .not (.item a .equal v) => rfl
  | .not (.item a .unequal v) | .not (.item a .atLeast v) | .not (.item a .atMost v) => rfl
  | .not (.and fs) | .not (.or fs) | .not (.not f) => by
      simp only [Form.node, negation]

lemma filter_succ_open (budget : Nat) (s : List Char) :
    filter (budget + 1) ('(' :: s) =
      (do let (n, s) ← body (filter budget) s
          let s ← close s
          return (n, s)) := by
  rw [filter, if_pos rfl]

mutual

/-- **The filter reader reads a derived filter** if its budget covers the height, and goes too deep
otherwise. -/
theorem filter_text : ∀ (f : Form) (budget : Nat) (r : List Char),
    filter budget (f.text ++ r) =
      if f.height ≤ budget then .ok (f.node, r) else .error .tooDeep
  | f, 0, r => by
      obtain ⟨s, hs⟩ := f.exists_text_eq
      have hpos := f.height_pos
      rw [hs, List.cons_append, filter, if_pos rfl, if_neg (by omega)]
  | .and fs, budget + 1, r => by
      have ih := filters_textAll fs budget (Form.textAll fs ++ ')' :: r).length r
        (by have := Form.length_le_length_textAll fs; simp only [List.length_append]; omega)
      simp only [Form.text, Form.height, Form.node, List.cons_append, List.append_assoc,
        List.nil_append, Nat.add_le_add_iff_right]
      rw [filter_succ_open, body, ih]
      split_ifs <;> simp [close]
  | .or fs, budget + 1, r => by
      have ih := filters_textAll fs budget (Form.textAll fs ++ ')' :: r).length r
        (by have := Form.length_le_length_textAll fs; simp only [List.length_append]; omega)
      simp only [Form.text, Form.height, Form.node, List.cons_append, List.append_assoc,
        List.nil_append, Nat.add_le_add_iff_right]
      rw [filter_succ_open, body, ih]
      split_ifs <;> simp [close]
  | .not f, budget + 1, r => by
      have ih := filter_text f budget (')' :: r)
      obtain ⟨s, hs⟩ := f.exists_text_eq
      rw [← negation_node]
      simp only [Form.text, Form.height, List.cons_append, List.append_assoc, List.nil_append,
        Nat.add_le_add_iff_right]
      rw [hs, List.cons_append] at ih ⊢
      rw [filter_succ_open, body, ih]
      split_ifs <;> simp [close]
  | .item a sg v, budget + 1, r => by
      obtain ⟨c, s, hc, h1, h2, h3⟩ := a.exists_chars_eq
      have hitem := item_text a sg v r
      simp only [Form.text, Form.height, Form.node, List.cons_append, List.append_assoc,
        List.nil_append]
      rw [hc, List.cons_append] at hitem ⊢
      rw [filter_succ_open, body, hitem]
      · simp [close]
      all_goals simp [h1, h2, h3]

/-- The same for several filters, up to a closing parenthesis. -/
lemma filters_textAll : ∀ (fs : List Form) (budget steps : Nat) (r : List Char),
    fs.length ≤ steps →
    filters (filter budget) steps (Form.textAll fs ++ ')' :: r) =
      if Form.heightAll fs ≤ budget then .ok (Form.nodeAll fs, ')' :: r) else .error .tooDeep
  | [], budget, steps, r, _ => by
      rw [Form.textAll_nil, Form.heightAll_nil, if_pos (Nat.zero_le _), Form.nodeAll_nil,
        List.nil_append]
      cases steps <;> simp [filters]
  | f :: fs, budget, 0, r, h => absurd h (by simp)
  | f :: fs, budget, steps + 1, r, h => by
      have ihf := filter_text f budget (Form.textAll fs ++ ')' :: r)
      have ihs := filters_textAll fs budget steps r (by simpa using h)
      obtain ⟨s, hs⟩ := f.exists_text_eq
      rw [Form.textAll_cons, Form.heightAll_cons, Form.nodeAll_cons, List.append_assoc]
      rw [hs, List.cons_append] at ihf ⊢
      rw [filters, ihf]
      by_cases hf : f.height ≤ budget
      · rw [if_pos hf, ok_bind]
        dsimp only
        rw [ihs]
        by_cases hfs : Form.heightAll fs ≤ budget
        · rw [if_pos hfs, if_pos (by omega)]
          rfl
        · rw [if_neg hfs, if_neg (by omega)]
          rfl
      · rw [if_neg hf, if_neg (by omega)]
        rfl

end

/-! ### Soundness -/

/-- What a reader for one filter has to satisfy: it has read the text of a derivation that is no
higher than `budget`, and gives its node. -/
def ReadsForms (budget : Nat) (one : List Char → Except Fault (Node × List Char)) : Prop :=
  ∀ {s : List Char} {n : Node} {r : List Char}, one s = .ok (n, r) →
    ∃ f : Form, s = f.text ++ r ∧ n = f.node ∧ f.height ≤ budget

lemma exists_of_filters_eq {budget : Nat} {one : List Char → Except Fault (Node × List Char)}
    (hone : ReadsForms budget one) {steps : Nat} {s r : List Char} {ns : List Node}
    (h : filters one steps s = .ok (ns, r)) :
    ∃ fs : List Form, s = Form.textAll fs ++ r ∧ ns = Form.nodeAll fs ∧
      Form.heightAll fs ≤ budget := by
  fun_induction filters one steps s generalizing ns r with
  | case1 steps s ih =>
      obtain ⟨⟨n, s'⟩, hn, h⟩ := bind_eq_ok_iff.mp h
      obtain ⟨⟨ns', s''⟩, hns, h⟩ := bind_eq_ok_iff.mp h
      obtain ⟨rfl, rfl⟩ := Prod.mk.inj (Except.ok.inj h)
      obtain ⟨f, hf, rfl, hb⟩ := hone hn
      obtain ⟨fs, rfl, rfl, hbs⟩ := ih s' hns
      refine ⟨f :: fs, ?_, by rw [Form.nodeAll_cons], ?_⟩
      · rw [hf, Form.textAll_cons, List.append_assoc]
      · rw [Form.heightAll_cons]
        omega
  | case2 steps s h' =>
      obtain ⟨rfl, rfl⟩ := Prod.mk.inj (Except.ok.inj h)
      exact ⟨[], by simp, by simp, by simp⟩

lemma close_eq_ok {s r : List Char} (h : close s = .ok r) : s = ')' :: r := by
  cases s with
  | nil => cases h
  | cons c s =>
      rw [close] at h
      split_ifs at h with hc
      cases h
      rw [hc]

/-- What stands between the parentheses of a filter, with what has to follow it. -/
lemma exists_of_body_eq {budget : Nat} {inner : List Char → Except Fault (Node × List Char)}
    (hinner : ReadsForms budget inner) {s r : List Char} {n : Node}
    (h : body inner s = .ok (n, ')' :: r)) :
    ∃ f : Form, '(' :: s = f.text ++ r ∧ n = f.node ∧ f.height ≤ budget + 1 := by
  unfold body at h
  split at h
  · cases h
  · obtain ⟨⟨ns, s'⟩, hns, h⟩ := bind_eq_ok_iff.mp h
    obtain ⟨rfl, rfl⟩ := Prod.mk.inj (Except.ok.inj h)
    obtain ⟨fs, rfl, rfl, hb⟩ := exists_of_filters_eq hinner hns
    exact ⟨.and fs, by simp [Form.text], by rw [Form.node], by rw [Form.height]; omega⟩
  · obtain ⟨⟨ns, s'⟩, hns, h⟩ := bind_eq_ok_iff.mp h
    obtain ⟨rfl, rfl⟩ := Prod.mk.inj (Except.ok.inj h)
    obtain ⟨fs, rfl, rfl, hb⟩ := exists_of_filters_eq hinner hns
    exact ⟨.or fs, by simp [Form.text], by rw [Form.node], by rw [Form.height]; omega⟩
  · obtain ⟨⟨m, s'⟩, hm, h⟩ := bind_eq_ok_iff.mp h
    obtain ⟨rfl, rfl⟩ := Prod.mk.inj (Except.ok.inj h)
    obtain ⟨f, hf, rfl, hb⟩ := hinner hm
    exact ⟨.not f, by simp [Form.text, hf], negation_node f, by rw [Form.height]; omega⟩
  · cases h
  · obtain ⟨⟨rule, s'⟩, hr, h⟩ := bind_eq_ok_iff.mp h
    obtain ⟨a, sg, v, t, rfl, rfl, rfl⟩ := exists_of_item_eq hr
    obtain ⟨rfl, ht⟩ := Prod.mk.inj (Except.ok.inj h)
    obtain rfl := (List.cons.inj ht).2
    exact ⟨.item a sg v, by simp [Form.text], by cases sg <;> rfl, by simp [Form.height]⟩

/-- **What the filter reader has read is a derived filter,** no higher than the budget. -/
theorem readsForms_filter : ∀ budget : Nat, ReadsForms budget (filter budget)
  | 0, s, n, r, h => by
      cases s with
      | nil => cases h
      | cons c s =>
          rw [filter] at h
          split_ifs at h
  | budget + 1, s, n, r, h => by
      cases s with
      | nil => cases h
      | cons c s =>
          rw [filter] at h
          split_ifs at h with hc
          subst hc
          obtain ⟨⟨m, s'⟩, hm, h⟩ := bind_eq_ok_iff.mp h
          obtain ⟨s'', hclose, h⟩ := bind_eq_ok_iff.mp h
          obtain ⟨rfl, rfl⟩ := Prod.mk.inj (Except.ok.inj h)
          obtain rfl := close_eq_ok hclose
          exact exists_of_body_eq (readsForms_filter budget) hm

/-! ## Whole texts -/

/-- A derived text, alone or with something behind it. -/
lemma filter_text_nil (f : Form) (budget : Nat) :
    filter budget f.text = if f.height ≤ budget then .ok (f.node, []) else .error .tooDeep := by
  have h := filter_text f budget []
  rwa [List.append_nil] at h

lemma wholeFilter_text (f : Form) :
    wholeFilter f.text = if f.height ≤ nestingLimit then .ok f.node else .error .tooDeep := by
  rw [wholeFilter, filter_text_nil]
  split_ifs <;> rfl

lemma exists_form_of_wholeFilter_eq {s : List Char} {n : Node} (h : wholeFilter s = .ok n) :
    ∃ f : Form, s = f.text ∧ n = f.node ∧ f.height ≤ nestingLimit := by
  obtain ⟨⟨m, r⟩, hm, h⟩ := bind_eq_ok_iff.mp h
  obtain ⟨f, rfl, rfl, hb⟩ := readsForms_filter nestingLimit hm
  dsimp only at h
  split at h
  · cases h
    exact ⟨f, List.append_nil _, rfl, hb⟩
  · cases h
  · cases h

lemma Form.text_ne_nil (f : Form) : f.text ≠ [] := by
  obtain ⟨s, hs⟩ := f.exists_text_eq
  simp [hs]

/-- Derived texts begin with a parenthesis, whatever follows them. -/
lemma Form.isBlank_of_mem_head? (f : Form) (s : List Char) :
    ∀ c ∈ (f.text ++ s).head?, Text.isBlank c = false := by
  obtain ⟨t, ht⟩ := f.exists_text_eq
  rw [ht]
  simpa using by decide

/-- Derived texts have no blanks to trim. -/
lemma trim_text (f : Form) : Text.trim f.text = f.text := by
  refine Text.trim_eq_self ?_ ?_
  · simpa using f.isBlank_of_mem_head? []
  · cases f <;> exact ⟨_, ')', by rw [Form.text], by decide⟩

/-- **A derived text is read** as the tree of its derivation, or rejected because it nests too
deeply.  Blanks around it do not count. -/
theorem parse_of_trim_eq {s : String} {f : Form} (h : Text.trim s.toList = f.text) :
    parse s =
      if nesting f.text ≤ nestingLimit then .ok (Group.ofNode f.node).numbered
      else .error .tooDeep := by
  have hne : f.text.isEmpty = false := by
    rw [List.isEmpty_eq_false_iff]
    exact f.text_ne_nil
  rw [parse, h, Form.nesting_text]
  simp only [hne, wholeFilter_text]
  split_ifs <;> simp_all [Fault.toFailure]

lemma parse_text (f : Form) :
    parse (String.ofList f.text) =
      if nesting f.text ≤ nestingLimit then .ok (Group.ofNode f.node).numbered
      else .error .tooDeep :=
  parse_of_trim_eq (by rw [String.toList_ofList, trim_text])

/-- **What is read is a derived text.** -/
theorem exists_form_of_parse_eq {s : String} {t : Group} (h : parse s = .ok t) :
    ∃ f : Form, f.text = Text.trim s.toList ∧ nesting f.text ≤ nestingLimit ∧
      t = (Group.ofNode f.node).numbered := by
  simp only [parse] at h
  split_ifs at h with hempty
  split at h
  · next n hn =>
    obtain ⟨f, hf, rfl, hb⟩ := exists_form_of_wholeFilter_eq hn
    cases h
    exact ⟨f, hf.symm, by rwa [Form.nesting_text], rfl⟩
  · cases h

/-! ## Numbering -/

lemma cleared_negation {n : Node} (h : n.cleared = n) : (negation n).cleared = negation n := by
  rcases negation_cases n with ⟨r, rfl, -, hneg⟩ | hneg
  · have hindex : r.index = 0 := (congrArg Node.index h).symm
    rw [hneg, Node.cleared, ← hindex]
  · rw [hneg, Node.cleared, Node.clearedAll, h, Node.clearedAll]

mutual

/-- A derivation does not number its node. -/
lemma Form.cleared_node : ∀ f : Form, f.node.cleared = f.node
  | .and fs | .or fs => by rw [Form.node, Node.cleared, Form.clearedAll_nodeAll fs]
  | .not f => by
      rw [← negation_node]
      exact cleared_negation (Form.cleared_node f)
  | .item a sg v => by cases sg <;> rfl

lemma Form.clearedAll_nodeAll : ∀ fs : List Form,
    Node.clearedAll (Form.nodeAll fs) = Form.nodeAll fs
  | [] => by rw [Form.nodeAll_nil, Node.clearedAll]
  | f :: fs => by
      rw [Form.nodeAll_cons, Node.clearedAll, Form.cleared_node f, Form.clearedAll_nodeAll fs]

end

lemma cleared_ofNode {n : Node} (h : n.cleared = n) :
    (Group.ofNode n).cleared = Group.ofNode n := by
  cases n with
  | rule r => simp only [Group.ofNode, Group.make, Group.cleared, Node.clearedAll, h]
  | group c i ns =>
      cases c with
      | not => simp only [Group.ofNode, Group.make, Group.cleared, Node.clearedAll, h]
      | and | or =>
          simp only [Node.cleared, Node.group.injEq, true_and] at h
          simp only [Group.ofNode, Group.cleared, h.1, h.2]

/-! ## The grammar -/

/-- The reader puts an or around a filter where the tree of its derivation has one. -/
lemma Form.ofNode_node (f : Form) : Group.ofNode f.node = f.tree := by
  cases f with
  | and fs | or fs =>
      rw [Form.node]
      rfl
  | item a sg v =>
      have htree : (item a sg v).tree = ⟨.or, 0, [(item a sg v).node]⟩ := rfl
      rw [htree, Form.node_item]
      rfl
  | not f =>
      have htree : f.not.tree = ⟨.or, 0, [f.not.node]⟩ := rfl
      rw [htree, ← negation_node]
      rcases negation_cases f.node with ⟨r, -, -, hneg⟩ | hneg
      · rw [hneg]
        rfl
      · rw [hneg]
        rfl

/-- **Exactly the texts of the grammar are read,** as the trees of their derivations with the
indices 0, 1, 2 and so on; and no text has two derivations.

A text is read when what is left of it without the blanks around it is derived by the grammar and
nests no deeper than the limit.  The tree has the node of the derivation as its root, or an or
around it where that is no and and no or. -/
theorem parse_eq_ok_iff_exists_form :
    (∀ (s : String) (t : Group), parse s = .ok t ↔
      ∃ f : Form, f.text = Text.trim s.toList ∧ nesting f.text ≤ nestingLimit ∧
        t.cleared = f.tree ∧ t.indices = List.range t.indices.length) ∧
      Function.Injective Form.text := by
  refine ⟨fun s t => ⟨fun h => ?_, ?_⟩, fun f g h => ?_⟩
  · obtain ⟨f, hf, hn, ht⟩ := exists_form_of_parse_eq h
    rw [Group.eq_numbered_iff, cleared_ofNode f.cleared_node, f.ofNode_node] at ht
    exact ⟨f, hf, hn, ht⟩
  · rintro ⟨f, hf, hn, ht⟩
    rw [parse_of_trim_eq hf.symm, if_pos hn]
    rw [← f.ofNode_node, ← cleared_ofNode f.cleared_node, ← Group.eq_numbered_iff] at ht
    rw [ht]
  · have h' : f.text ++ [] = g.text ++ [] := by rw [h]
    exact (Form.text_append_inj h').1

end AccessFilter.Ldap
