import AccessFilter.Proofs.Ldap.Cycle

/-!
# Fields are written as they are

The value of a rule is escaped when it is written, so that no value shows in the structure of a
text.  The field is not.  A field may be any text, and one that is no attribute name may close the
comparison that it stands in and open another one; the text is then read as a filter with other
rules than the tree.

**Where a reader goes on.**  A reader of a field stops at the first character that is in no
attribute name.  It accepts that character only as the sign of a connective, at the very beginning,
or as the beginning of a comparison, behind a name; a field with such a character there `ReadsOn`.
Without such fields a text is accepted only if all fields are attribute names
(`isAttribute_of_nodeText`).

* `ReadsOn` — the fields that can be read as more than a field.
* `map_field_eq_iff` — what is read has the fields of the tree if these are attribute names.
* **`fields_parse_print`** — when a written tree is read with the fields it has.
* **`not_forall_fields_parse_print`** — a field that is read as two rules.
-/

namespace AccessFilter.Ldap

/-! ## Fields that are read on -/

/-- **The fields that can be read as more than a field.**  The first character that is in no
attribute name is the sign of a connective if the field begins with it, and otherwise the beginning
of a comparison. -/
def ReadsOn (field : String) : Prop :=
  (field.toList.dropWhile isAttributeChar).head? ∈
    if field.toList.takeWhile isAttributeChar = [] then [some '&', some '|', some '!']
    else [some '=', some '!', some '>', some '<']

instance (field : String) : Decidable (ReadsOn field) :=
  inferInstanceAs (Decidable (_ ∈ ite _ _ _))

/-- The sign of a connective is no character of an attribute name. -/
lemma not_isAttributeChar_sign (c : Connective) : isAttributeChar (sign c) = false := by
  cases c <;> rfl

section

variable {field : String} (hfield : ¬ ReadsOn field)
include hfield

/-- A comparison is not read as the beginning of a group. -/
lemma append_sign_ne {sg : Sign} (hsg : sg ≠ .unequal) {s t : List Char} (c : Connective) :
    field.toList ++ (sg.text ++ s) ≠ sign c :: t := by
  intro h
  cases hchars : field.toList with
  | nil =>
      rw [hchars, List.nil_append] at h
      cases sg with
      | unequal => exact hsg rfl
      | equal | atLeast | atMost => cases c <;> cases h
  | cons d ds =>
      rw [hchars, List.cons_append] at h
      obtain rfl := (List.cons.inj h).1
      have hno := not_isAttributeChar_sign c
      refine hfield ?_
      rw [ReadsOn, hchars, List.dropWhile_cons_of_neg (by simp [hno]),
        List.takeWhile_cons_of_neg (by simp [hno]), if_pos rfl]
      cases c <;> simp [sign]

/-- A name in front of a comparison is the whole field. -/
lemma isAttribute_of_append_eq {sg sg' : Sign} {a : Attribute} {s t : List Char}
    (h : field.toList ++ (sg.text ++ s) = a.chars ++ (sg'.text ++ t)) : IsAttribute field := by
  have hsplit := field.toList.takeWhile_append_dropWhile (p := isAttributeChar)
  have hname : ∀ c ∈ field.toList.takeWhile isAttributeChar, isAttributeChar c = true :=
    fun c hc => List.mem_takeWhile_imp hc
  cases hrest : field.toList.dropWhile isAttributeChar with
  | nil =>
      rw [hrest, List.append_nil] at hsplit
      rw [hsplit] at hname
      obtain ⟨ha, -⟩ := append_inj_of_class hname a.allowed (sg.takeWhile_text_append _)
        (sg'.takeWhile_text_append _) h
      exact ⟨ha ▸ a.nonempty, List.all_eq_true.mpr hname⟩
  | cons c cs =>
      have hc : isAttributeChar c = false := by
        have hstop := List.head?_dropWhile_not isAttributeChar field.toList
        rw [hrest] at hstop
        simpa using hstop
      rw [← hsplit, hrest, List.append_assoc, List.cons_append] at h
      obtain ⟨ha, hs⟩ := append_inj_of_class hname a.allowed
        (List.takeWhile_cons_of_neg (by simp [hc])) (sg'.takeWhile_text_append _) h
      refine absurd ?_ hfield
      rw [ReadsOn, hrest, if_neg (ha ▸ a.nonempty)]
      cases sg' with
      | equal | unequal | atLeast | atMost =>
          obtain rfl := (List.cons.inj hs).1
          simp

/-- **A comparison is read with its field or not at all.** -/
lemma isAttribute_of_text_eq {sg : Sign} (hsg : sg ≠ .unequal) {s r : List Char} {f : Form}
    (h : '(' :: (field.toList ++ (sg.text ++ s)) = f.text ++ r) : IsAttribute field := by
  cases f with
  | and fs => exact absurd (List.cons.inj h).2 (append_sign_ne hfield hsg .and)
  | or fs => exact absurd (List.cons.inj h).2 (append_sign_ne hfield hsg .or)
  | not f => exact absurd (List.cons.inj h).2 (append_sign_ne hfield hsg .not)
  | item a sg' v =>
      rw [Form.text, List.append_assoc, List.append_assoc, List.append_assoc] at h
      exact isAttribute_of_append_eq hfield (List.cons.inj h).2

end

/-! ## Texts that are read -/

/-- The text of a rule, its field as it is. -/
lemma exists_of_ruleText_eq {r : Rule} {w : List Char} (h : ruleText r = .ok w) :
    ∃ (sg : Sign) (value : List Char), sg ≠ .unequal ∧
      (w = plain (r.field.toList ++ sg.text ++ value) ∨
        w = negated (r.field.toList ++ sg.text ++ value)) := by
  obtain ⟨op, field, v, i, temporal⟩ := r
  cases op with
  | equals | contains | startsWith | endsWith | «exists» =>
      exact ⟨.equal, _, nofun, .inl (Except.ok.inj h).symm⟩
  | notEquals | notContains | notExists =>
      exact ⟨.equal, _, nofun, .inr (Except.ok.inj h).symm⟩
  | greaterOrEqual => exact ⟨.atLeast, _, nofun, .inl (Except.ok.inj h).symm⟩
  | lessOrEqual => exact ⟨.atMost, _, nofun, .inl (Except.ok.inj h).symm⟩
  | greaterThan => exact ⟨.atMost, _, nofun, .inr (Except.ok.inj h).symm⟩
  | lessThan => exact ⟨.atLeast, _, nofun, .inr (Except.ok.inj h).symm⟩
  | hasChanged | hasNotChanged => cases h

/-- A text that is read as a group goes on with filters and a closing parenthesis. -/
lemma exists_operands_of_text_eq {c : Connective} {s r : List Char} {f : Form}
    (h : '(' :: sign c :: s = f.text ++ r) : ∃ fs, s = Form.textAll fs ++ ')' :: r := by
  cases f with
  | and fs | or fs =>
      rw [Form.text] at h
      obtain ⟨-, hs⟩ := List.cons.inj (List.cons.inj h).2
      exact ⟨fs, by simpa using hs⟩
  | not f =>
      rw [Form.text] at h
      obtain ⟨-, hs⟩ := List.cons.inj (List.cons.inj h).2
      exact ⟨[f], by simpa using hs⟩
  | item a sg v =>
      obtain ⟨d, ds, hd, hand, hor, hnot⟩ := a.exists_chars_eq
      rw [Form.text, hd] at h
      obtain ⟨hsign, -⟩ := List.cons.inj (List.cons.inj h).2
      cases c with
      | and => exact absurd hsign.symm hand
      | or => exact absurd hsign.symm hor
      | not => exact absurd hsign.symm hnot

/-- Where a filter opens there is a first one to read. -/
lemma exists_cons_of_textAll_eq {s r : List Char} {fs : List Form}
    (h : '(' :: s = Form.textAll fs ++ ')' :: r) :
    ∃ (f : Form) (gs : List Form), '(' :: s = f.text ++ (Form.textAll gs ++ ')' :: r) := by
  cases fs with
  | nil => exact absurd (List.cons.inj h).1 (by decide)
  | cons f gs => exact ⟨f, gs, by rw [h, Form.textAll_cons, List.append_assoc]⟩

lemma isAttribute_of_ruleText {q : Rule} (hfield : ¬ ReadsOn q.field) {w s r : List Char}
    (hw : ruleText q = .ok w) {f : Form} (h : w ++ s = f.text ++ r) : IsAttribute q.field := by
  obtain ⟨sg, value, hsg, rfl | rfl⟩ := exists_of_ruleText_eq hw
  · simp only [plain, List.cons_append, List.append_assoc] at h
    exact isAttribute_of_text_eq hfield hsg h
  · simp only [negated, plain, List.cons_append, List.append_assoc] at h
    obtain ⟨fs, hs⟩ := exists_operands_of_text_eq (c := .not) h
    obtain ⟨g, gs, hg⟩ := exists_cons_of_textAll_eq hs
    exact isAttribute_of_text_eq hfield hsg hg

/-- Every text of a node stands in parentheses. -/
lemma exists_nodeText_eq {n : Node} {w : List Char} (h : nodeText n = .ok w) :
    ∃ s, w = '(' :: s ++ [')'] := by
  match n, h with
  | .rule r, h =>
      obtain ⟨sg, value, -, rfl | rfl⟩ := exists_of_ruleText_eq h
      · exact ⟨_, rfl⟩
      · exact ⟨_, rfl⟩
  | .group c i [], h => exact ⟨['&'], (Except.ok.inj h).symm⟩
  | .group c i (n :: ns), h =>
      rw [nodeText_group] at h
      obtain ⟨ws, -, rfl⟩ := map_eq_ok_iff.mp h
      exact ⟨_, rfl⟩

mutual

/-- **If the text of a node is read, the fields in it are attribute names,** as long as none of them
is read on.  What stands behind the text does not matter. -/
theorem isAttribute_of_nodeText : ∀ (n : Node), n.NotsSingle →
    (∀ q ∈ n.rules, ¬ ReadsOn q.field ∧ q.operator.isChange = false) →
    ∀ {w s r : List Char} {f : Form}, nodeText n = .ok w → w ++ s = f.text ++ r →
      ∀ q ∈ n.rules, IsAttribute q.field
  | .rule q, _, hsafe, w, s, r, f, hw, h => by
      rw [Node.rules, List.forall_mem_singleton] at hsafe ⊢
      exact isAttribute_of_ruleText hsafe.1 hw h
  | .group c i [], _, _, w, s, r, f, _, _ => by simp [Node.rules, Node.rulesAll]
  | .group c i (n :: ns), hnots, hsafe, w, s, r, f, hw, h => by
      rw [nodeText_group] at hw
      obtain ⟨ws, hws, rfl⟩ := map_eq_ok_iff.mp hw
      simp only [List.cons_append, List.append_assoc] at h
      obtain ⟨fs, hs⟩ := exists_operands_of_text_eq h
      exact isAttribute_of_nodeTexts (n :: ns) hnots.2 hsafe hws hs

lemma isAttribute_of_nodeTexts : ∀ (ns : List Node), Node.NotsSingleAll ns →
    (∀ q ∈ Node.rulesAll ns, ¬ ReadsOn q.field ∧ q.operator.isChange = false) →
    ∀ {ws s r : List Char} {fs : List Form}, nodeTexts ns = .ok ws →
      ws ++ ')' :: s = Form.textAll fs ++ ')' :: r →
        ∀ q ∈ Node.rulesAll ns, IsAttribute q.field
  | [], _, _, ws, s, r, fs, _, _ => by simp [Node.rulesAll]
  | n :: ns, hnots, hsafe, ws, s, r, fs, hws, h => by
      rw [nodeTexts] at hws
      obtain ⟨w, hw, hws⟩ := bind_eq_ok_iff.mp hws
      obtain ⟨us, hus, hws⟩ := bind_eq_ok_iff.mp hws
      obtain rfl := Except.ok.inj hws
      rw [Node.rulesAll, List.forall_mem_append] at hsafe ⊢
      rw [List.append_assoc] at h
      obtain ⟨f, gs, hnext⟩ : ∃ (f : Form) (gs : List Form),
          w ++ (us ++ ')' :: s) = f.text ++ (Form.textAll gs ++ ')' :: r) := by
        obtain ⟨t, rfl⟩ := exists_nodeText_eq hw
        exact exists_cons_of_textAll_eq h
      have hfirst := isAttribute_of_nodeText n hnots.1 hsafe.1 hw hnext
      -- the first node takes all of the first filter, so that the others begin where this one ends
      obtain ⟨w', hw', g, rfl, -⟩ :=
        exists_nodeText n hnots.1 hfirst fun q hq => (hsafe.1 q hq).2
      obtain rfl : w = g.text := Except.ok.inj (hw.symm.trans hw')
      obtain ⟨-, hrest⟩ := Form.text_append_inj hnext
      exact ⟨hfirst, isAttribute_of_nodeTexts ns hnots.2 hsafe.2 hus hrest⟩

end

/-! ## Fields that come back -/

lemma map_field_canonicalRule (r : Rule) : (canonicalRule r).rules.map Rule.field = [r.field] := by
  obtain ⟨op, field, v, i, temporal⟩ := r
  cases op <;> rfl

mutual

/-- A node comes back with the fields it has. -/
lemma map_field_canonicalNode : ∀ n : Node,
    (canonicalNode n).rules.map Rule.field = n.rules.map Rule.field
  | .rule r => by
      rw [canonicalNode, map_field_canonicalRule]
      rfl
  | .group c i [] => rfl
  | .group c i (n :: ns) => by
      by_cases hc : c = .not ∧ ns = []
      · obtain ⟨rfl, rfl⟩ := hc
        rw [canonicalNode_not, map_rules_negation fun _ _ => rfl, map_field_canonicalNode n,
          Node.rules_singleton]
      · rw [canonicalNode, Node.rules, Node.rules, Node.rulesAll, Node.rulesAll, List.map_append,
          List.map_append, map_field_canonicalNode n, map_field_canonicalNodes ns]
        exact fun hnot hns => hc ⟨hnot, hns⟩

lemma map_field_canonicalNodes : ∀ ns : List Node,
    (Node.rulesAll (canonicalNodes ns)).map Rule.field = (Node.rulesAll ns).map Rule.field
  | [] => by rw [canonicalNodes]
  | n :: ns => by
      rw [canonicalNodes, Node.rulesAll, Node.rulesAll, List.map_append, List.map_append,
        map_field_canonicalNode n, map_field_canonicalNodes ns]

end

/-! ## Trees -/

/-- A written tree that is read has a text with a derivation. -/
lemma exists_form_of_parse_print {g t : Group} {u : String} (hu : print g = .ok u)
    (ht : parse u = .ok t) : ∃ f : Form, nodeText (outermost g) = .ok f.text ∧
      nesting f.text ≤ nestingLimit ∧ t = (Group.ofNode f.node).numbered := by
  obtain ⟨w, hw, rfl⟩ := map_eq_ok_iff.mp hu
  obtain ⟨f, hf, hnesting, rfl⟩ := exists_form_of_parse_eq ht
  refine ⟨f, ?_, hnesting, rfl⟩
  obtain ⟨s, rfl⟩ := exists_nodeText_eq hw
  rw [hw, hf, String.toList_ofList, Text.trim_eq_self]
  · simpa using by decide
  · exact ⟨_, ')', rfl, by decide⟩

section

variable {g t : Group} {u : String} (hnots : g.NotsSingle)
  (hops : ∀ r ∈ g.rules, r.operator.isChange = false) (hu : print g = .ok u) (ht : parse u = .ok t)
include hnots hops hu ht

/-- **What is read has the fields of the tree exactly if these are attribute names.** -/
lemma map_field_eq_iff : t.rules.map Rule.field = g.rules.map Rule.field ↔
    ∀ r ∈ g.rules, IsAttribute r.field := by
  have hroot := notsSingle_outermost (g.notsSingle_iff.mp hnots)
  obtain ⟨f, hw, -, rfl⟩ := exists_form_of_parse_print hu ht
  rw [Group.map_rules_numbered (fun _ _ => rfl), Group.rules_ofNode]
  rw [← rules_outermost] at hops ⊢
  constructor
  · intro hsame r hr
    obtain ⟨q, hq, hqr⟩ := List.mem_map.mp (hsame ▸ List.mem_map_of_mem hr)
    rw [← hqr]
    exact (rules_node f q hq).1
  · intro hfields
    obtain ⟨w, hw', k, rfl, -, hk⟩ := exists_nodeText _ hroot hfields hops
    have htext : k.text ++ [] = f.text ++ [] := by rw [Except.ok.inj (hw'.symm.trans hw)]
    obtain ⟨rfl, -⟩ := Form.text_append_inj htext
    rw [hk, map_field_canonicalNode]

/-- A tree that is read has attribute names for fields, as far as they are not read on. -/
lemma isAttribute_of_parse_print (hsafe : ∀ r ∈ g.rules, ¬ ReadsOn r.field) :
    ∀ r ∈ g.rules, IsAttribute r.field := by
  have hroot := notsSingle_outermost (g.notsSingle_iff.mp hnots)
  obtain ⟨f, hw, -, -⟩ := exists_form_of_parse_print hu ht
  rw [← rules_outermost] at hops hsafe ⊢
  exact isAttribute_of_nodeText (outermost g) hroot (fun r hr => ⟨hsafe r hr, hops r hr⟩) hw
    (s := []) (r := []) rfl

end

/-- **When a written tree is read with the fields it has.**  If the text of a tree is accepted at
all, it is read with as many rules and with the same fields, in the same order, exactly if all
fields of the tree are attribute names.  If none of them is read on, the text is read so or
rejected; and it is rejected only for a field that is no attribute name or for its nesting. -/
theorem fields_parse_print (g : Group) (hnots : g.NotsSingle)
    (hops : ∀ r ∈ g.rules, r.operator.isChange = false) :
    ∃ u, print g = .ok u ∧
      (∀ t, parse u = .ok t → (t.rules.map Rule.field = g.rules.map Rule.field ↔
        ∀ r ∈ g.rules, IsAttribute r.field)) ∧
      ((∀ r ∈ g.rules, ¬ ReadsOn r.field) →
        (∀ t, parse u = .ok t → t.rules.map Rule.field = g.rules.map Rule.field) ∧
        ((∃ t, parse u = .ok t) ↔
          (∀ r ∈ g.rules, IsAttribute r.field) ∧ nesting u.toList ≤ nestingLimit)) := by
  obtain ⟨u, hu⟩ : ∃ u, print g = .ok u := by
    rcases nodeText_cases (outermost g) with ⟨r, hr, -⟩ | ⟨-, w, hw⟩
    · rw [rules_outermost, firstChange_eq_none_iff.mpr hops] at hr
      cases hr
    · exact ⟨String.ofList w, by rw [print, hw]; rfl⟩
  refine ⟨u, hu, fun t ht => map_field_eq_iff hnots hops hu ht, fun hsafe => ⟨fun t ht => ?_, ?_⟩⟩
  · rw [map_field_eq_iff hnots hops hu ht]
    exact isAttribute_of_parse_print hnots hops hu ht hsafe
  · constructor
    · rintro ⟨t, ht⟩
      obtain ⟨f, hw, hnesting, -⟩ := exists_form_of_parse_print hu ht
      obtain rfl : String.ofList f.text = u := by
        rw [print, hw] at hu
        exact Except.ok.inj hu
      rw [String.toList_ofList]
      exact ⟨isAttribute_of_parse_print hnots hops hu ht hsafe, hnesting⟩
    · rintro ⟨hfields, hnesting⟩
      obtain ⟨f, hf, -⟩ := exists_form_of_print hnots hfields hops
      obtain rfl : String.ofList f.text = u := Except.ok.inj (hf.symm.trans hu)
      rw [String.toList_ofList] at hnesting
      exact ⟨_, by rw [parse_text, if_pos hnesting]⟩

/-- A comparison that is written as a negation, and one that is written under two. -/
def namedTree : Group :=
  ⟨.and, 0, [.rule ⟨.greaterThan, "a.b", some (.text "3"), 1, .after⟩,
    .group .not 2 [.rule ⟨.notEquals, "_c", some (.text "(d*"), 3, .after⟩]]⟩

theorem fields_parse_print_namedTree :
    namedTree.NotsSingle ∧ (∀ r ∈ namedTree.rules, r.operator.isChange = false) ∧
      print namedTree = .ok "(&(!(a.b<=3))(!(!(_c=\\28d*))))" ∧
      (∀ r ∈ namedTree.rules, ¬ ReadsOn r.field) ∧
      ∃ t, parse "(&(!(a.b<=3))(!(!(_c=\\28d*))))" = .ok t ∧
        t.rules.map Rule.field = ["a.b", "_c"] := by
  have hnots : namedTree.NotsSingle := by decide
  have hops : ∀ r ∈ namedTree.rules, r.operator.isChange = false := by decide
  have hsafe : ∀ r ∈ namedTree.rules, ¬ ReadsOn r.field := by decide
  obtain ⟨u, hu, -, h⟩ := fields_parse_print namedTree hnots hops
  obtain rfl : u = "(&(!(a.b<=3))(!(!(_c=\\28d*))))" := by
    rw [← Except.ok.injEq, ← hu]
    rfl
  obtain ⟨hsame, haccepted⟩ := h hsafe
  obtain ⟨t, ht⟩ := haccepted.mpr (by decide)
  exact ⟨hnots, hops, hu, hsafe, t, ht, hsame t ht⟩

/-- A field that closes its comparison and opens another one. -/
def brokenTree : Group :=
  ⟨.and, 0, [.rule ⟨.equals, "a=1)(b", some (.text "2"), 1, .after⟩]⟩

/-- **So one rule can be read as two.** -/
theorem not_forall_fields_parse_print :
    ¬ ∀ g : Group, g.NotsSingle → (∀ r ∈ g.rules, r.operator.isChange = false) →
      ∀ u t, print g = .ok u → parse u = .ok t →
        t.rules.length = g.rules.length ∧ t.rules.map Rule.field = g.rules.map Rule.field := by
  intro hall
  have hu : print brokenTree = .ok "(&(a=1)(b=2))" := rfl
  have ht : parse "(&(a=1)(b=2))" =
      .ok ⟨.and, 0, [.rule ⟨.equals, "a", some (.text "1"), 1, .after⟩,
        .rule ⟨.equals, "b", some (.text "2"), 2, .after⟩]⟩ := by
    decide +kernel
  obtain ⟨hlength, -⟩ := hall brokenTree (by decide) (by decide) _ _ hu ht
  exact absurd hlength (by decide)

end AccessFilter.Ldap
