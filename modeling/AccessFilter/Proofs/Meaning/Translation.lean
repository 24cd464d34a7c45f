import AccessFilter.Proofs.Ldap.Cycle
import AccessFilter.Proofs.Meaning.Backends
import AccessFilter.Proofs.Query.Names
import AccessFilter.Proofs.Tree.Rules

/-!
# Filters as queries

A filter that was read is sent to the search service as a query.  The two notations do not have the
same names: an attribute may begin with a digit, a point or an underscore and may be the word that
matches everything, and a name of a query may not.  A query also stands in parentheses where a
filter does not, so that it can nest one level deeper.

* `leaves_toExpr?` — the comparisons in the expression of a tree are those of its rules.
* `worded_leaf` — those of a filter have words and values that are texts.
* `writtenHeight_toExpr?_node` — a query nests hardly deeper than the filter it comes from.
* **`parse_print_toExpr?`** — the query of a filter is read if and only if the attributes of the
  filter are names of queries and the query keeps the nesting limit.
* **`not_forall_parse_print_toExpr?`** — so some filter that is read has a query that is not.
-/

namespace AccessFilter

/-! ## The comparisons of a tree -/

lemma Rule.leaves_toExpr (r : Rule) : Query.leaves r.toExpr = [r.leaf] := by
  obtain ⟨op, field, value, i, temporal⟩ := r
  cases op <;> rfl

lemma leaves_join? {c : Connective} {es : List Expr} (h : c = .not → es.length ≤ 1) :
    ((c.join? es).map Query.leaves).getD [] = Query.leavesAll es := by
  cases es with
  | nil => cases c <;> rfl
  | cons e es =>
      cases c with
      | and | or =>
          rw [Connective.join?, Option.map_some, Option.getD_some, Query.leaves]
      | not =>
          obtain rfl : es = [] := by simpa using h rfl
          exact (List.append_nil _).symm

mutual

/-- **The comparisons in the expression of a node are those of its rules,** in order. -/
lemma Node.leaves_toExpr? : ∀ n : Node, n.NotsSingle →
    (n.toExpr?.map Query.leaves).getD [] = n.rules.map Rule.leaf
  | .rule r, _ => by
      rw [Node.toExpr?, Option.map_some, Option.getD_some, r.leaves_toExpr]
      rfl
  | .group c i ns, h => by
      have hlength : c = .not → (Node.toExprs ns).length ≤ 1 := by
        intro hc
        rw [← h.1 hc]
        exact Governance.length_toExprs_le ns
      rw [Node.toExpr?, leaves_join? hlength, Node.leavesAll_toExprs ns h.2, Node.rules]

lemma Node.leavesAll_toExprs : ∀ ns : List Node, Node.NotsSingleAll ns →
    Query.leavesAll (Node.toExprs ns) = (Node.rulesAll ns).map Rule.leaf
  | [], _ => rfl
  | n :: ns, h => by
      have hn := Node.leaves_toExpr? n h.1
      have hns := Node.leavesAll_toExprs ns h.2
      rw [Node.rulesAll, List.map_append, ← hn, ← hns, Node.toExprs]
      cases n.toExpr? <;> rfl

end

lemma Group.leaves_toExpr? {g : Group} (h : g.NotsSingle) :
    (g.toExpr?.map Query.leaves).getD [] = g.rules.map Rule.leaf :=
  Node.leaves_toExpr? g.toNode (g.notsSingle_iff.mp h)

namespace Ldap

/-! ## Those of a filter can be written -/

lemma isNameChar_of_isAttributeChar {c : Char} (h : isAttributeChar c = true) :
    Query.isNameChar c = true := by
  simp only [isAttributeChar, Bool.or_eq_true, beq_iff_eq] at h
  rcases h with (halphanum | rfl) | rfl
  · simp [Query.isNameChar, halphanum]
  all_goals decide

/-- A negation tests what the negated node tests. -/
lemma map_leaf_rules_negation (n : Node) :
    (negation n).rules.map Rule.leaf = n.rules.map Rule.leaf := by
  refine map_rules_negation ?_ n
  rintro ⟨op, field, value, i, temporal⟩ rfl
  rfl

mutual

/-- **The rules that a derivation stands for test by a word,** and their values are texts. -/
lemma worded_leaf : ∀ f : Form, ∀ r ∈ f.node.rules, Query.Worded r.leaf
  | .and fs, r, h | .or fs, r, h =>
      worded_leaf_of_mem_nodeAll fs r (by rwa [Form.node, Node.rules] at h)
  | .not f, r, h => by
      have hleaf := List.mem_map_of_mem (f := Rule.leaf) h
      rw [← negation_node, map_leaf_rules_negation] at hleaf
      obtain ⟨q, hq, hsame⟩ := List.mem_map.mp hleaf
      rw [← hsame]
      exact worded_leaf f q hq
  | .item a sg v, r, h => by
      rw [Form.node_item] at h
      obtain rfl := List.mem_singleton.mp h
      have hname : (itemRule a sg.operator v).leaf.2.name.toList = a.chars := String.toList_ofList
      refine ⟨?_, ?_, ?_⟩
      · rw [hname]
        exact ⟨a.nonempty, fun c hc => isNameChar_of_isAttributeChar (a.allowed c hc)⟩
      · have hcomparison : (itemRule a sg.operator v).leaf.1 = Comparison.ofRule sg.operator := rfl
        rw [hcomparison]
        cases sg
        · exact ⟨['e', 'q'], by decide⟩
        · exact ⟨['e', 'q'], by decide⟩
        · exact ⟨['g', 'e'], by decide⟩
        · exact ⟨['l', 'e'], by decide⟩
      · have hvalue : (itemRule a sg.operator v).leaf.2.value = .string v.held := by
          cases sg <;> rfl
        rw [hvalue]
        exact nofun

lemma worded_leaf_of_mem_nodeAll : ∀ fs : List Form, ∀ r ∈ Node.rulesAll (Form.nodeAll fs),
    Query.Worded r.leaf
  | [], r, h => by simp [Node.rulesAll] at h
  | f :: fs, r, h => by
      rw [Form.nodeAll_cons, Node.rulesAll, List.mem_append] at h
      rcases h with h | h
      · exact worded_leaf f r h
      · exact worded_leaf_of_mem_nodeAll fs r h

end

/-! ## How deeply the query nests -/

/-- A negation has the negation of the expression. -/
lemma toExpr?_negation (n : Node) : (negation n).toExpr? = n.toExpr?.map .not := by
  rcases negation_cases n with ⟨⟨op, field, value, i, temporal⟩, rfl, hop, hneg⟩ | hneg
  · obtain rfl : op = .equals := hop
    rw [hneg]
    rfl
  · rw [hneg, Node.toExpr?_not]

lemma writtenHeight_of_join? {c : Connective} (hc : c ≠ .not) {es : List Expr} {e : Expr}
    (h : c.join? es = some e) : Query.writtenHeight e = Query.writtenHeights es := by
  cases es with
  | nil => cases c <;> cases h
  | cons d es =>
      cases c with
      | and | or =>
          obtain rfl := Option.some.inj h
          rw [Query.writtenHeight]
      | not => exact absurd rfl hc

lemma writtenHeight_not_le (e : Expr) :
    Query.writtenHeight (.not e) ≤ Query.writtenHeight e + 1 := by
  rw [Query.writtenHeight]
  exact Query.enclosed_le _ _

mutual

/-- **A query nests no deeper than the filter it comes from,** without the or around the root. -/
lemma writtenHeight_toExpr?_node : ∀ (f : Form) (e : Expr), f.node.toExpr? = some e →
    Query.writtenHeight e ≤ f.height
  | .and fs, e, h => by
      rw [Form.node, Node.toExpr?] at h
      rw [writtenHeight_of_join? (by simp) h, Form.height]
      exact Query.writtenHeights_le (writtenHeight_le_of_mem_toExprs fs)
  | .or fs, e, h => by
      rw [Form.node, Node.toExpr?] at h
      rw [writtenHeight_of_join? (by simp) h, Form.height]
      exact Query.writtenHeights_le (writtenHeight_le_of_mem_toExprs fs)
  | .not f, e, h => by
      rw [← negation_node, toExpr?_negation, Option.map_eq_some_iff] at h
      obtain ⟨d, hd, rfl⟩ := h
      have ih := writtenHeight_toExpr?_node f d hd
      have hle := writtenHeight_not_le d
      rw [Form.height]
      omega
  | .item a sg v, e, h => by
      have hcompare : ∀ c t, Query.writtenHeight (.compare c t) = 0 := fun c t => by
        rw [Query.writtenHeight]
      rw [Form.height]
      cases sg with
      | unequal =>
          obtain rfl := Option.some.inj h
          have hle := writtenHeight_not_le (Expr.equals (String.ofList a.chars) (.string v.held))
          rwa [Expr.equals, hcompare] at hle
      | equal | atLeast | atMost =>
          obtain rfl := Option.some.inj h
          exact Nat.zero_le _

lemma writtenHeight_le_of_mem_toExprs : ∀ (fs : List Form),
    ∀ e ∈ Node.toExprs (Form.nodeAll fs), Query.writtenHeight e ≤ Form.heightAll fs
  | [], e, h => by
      rw [Form.nodeAll_nil] at h
      cases h
  | f :: fs, e, h => by
      rw [Form.nodeAll_cons, Node.toExprs] at h
      rw [Form.heightAll_cons]
      have hmem : f.node.toExpr? = some e ∨ e ∈ Node.toExprs (Form.nodeAll fs) := by
        cases hf : f.node.toExpr? with
        | none =>
            rw [hf] at h
            exact .inr h
        | some d =>
            rw [hf] at h
            exact (List.mem_cons.mp h).imp (fun heq => by rw [heq]) id
      rcases hmem with hf | hfs
      · have ih := writtenHeight_toExpr?_node f e hf
        omega
      · have ih := writtenHeight_le_of_mem_toExprs fs e hfs
        omega

end

/-- The or that is put around a root is one pair of parentheses more. -/
lemma writtenHeight_toExpr?_ofNode {f : Form} {e : Expr}
    (h : (Group.ofNode f.node).toExpr? = some e) : Query.writtenHeight e ≤ f.height + 1 := by
  have hroot : (Group.ofNode f.node).toNode = f.node ∨
      (Group.ofNode f.node).toNode = .group .or 0 [f.node] := by
    cases f.node with
    | rule r => exact .inr rfl
    | group c i ns =>
        cases c with
        | and | or => exact .inl rfl
        | not => exact .inr rfl
  rw [Group.toExpr?] at h
  rcases hroot with hroot | hroot
  · rw [hroot] at h
    have hle := writtenHeight_toExpr?_node f e h
    omega
  · rw [hroot, Node.toExpr?] at h
    rw [writtenHeight_of_join? (by simp) h]
    refine Query.writtenHeights_le fun d hd => ?_
    have hsingle := writtenHeight_le_of_mem_toExprs [f] d
    rw [Form.nodeAll_cons, Form.nodeAll_nil, Form.heightAll_cons, Form.heightAll_nil] at hsingle
    have hle := hsingle hd
    omega

/-! ## The query of a filter -/

/-- **The query of a filter that was read** is read if and only if the attributes of the filter are
names of queries and the query keeps the nesting limit.  If they are, the query is read as the
normal form of the expression, and it nests at most one level deeper than the filter. -/
theorem parse_print_toExpr? (s : String) (t : Group) (h : parse s = .ok t) :
    ((∃ e, Query.parse (Query.print t.toExpr?) = .ok e) ↔
      (∀ r ∈ t.rules, Query.IsName r.field) ∧
        Query.nesting (Query.print t.toExpr?).toList ≤ nestingLimit) ∧
    ((∀ r ∈ t.rules, Query.IsName r.field) →
      Query.nesting (Query.print t.toExpr?).toList ≤ nesting (Text.trim s.toList) + 1 ∧
        Query.parse (Query.print t.toExpr?) =
          if Query.nesting (Query.print t.toExpr?).toList ≤ nestingLimit then
            .ok ((t.toExpr?.map Query.normal).getD .all)
          else .error .tooDeep) := by
  obtain ⟨f, hf, -, rfl⟩ := exists_form_of_parse_eq h
  have hnames : (∀ r ∈ (Group.ofNode f.node).numbered.rules, Query.IsName r.field) ↔
      ∀ l ∈ f.node.rules.map Rule.leaf, Query.IsName l.2.name := by
    rw [← Group.rules_ofNode, ← Group.map_rules_numbered (fun _ _ => rfl), List.forall_mem_map]
    rfl
  have hleaves := Group.leaves_toExpr? (notsSingle_ofNode (notsSingle_node f))
  rw [Group.rules_ofNode] at hleaves
  rw [Group.toExpr?_numbered, hnames, ← hf, Form.nesting_text, ← hleaves]
  cases he : (Group.ofNode f.node).toExpr? with
  | none =>
      have hread : Query.parse (Query.print none) = .ok .all := by decide
      have hnesting : Query.nesting (Query.print none).toList = 0 := by decide
      rw [hread, hnesting]
      exact ⟨⟨fun _ => ⟨nofun, Nat.zero_le _⟩, fun _ => ⟨.all, rfl⟩⟩, fun _ => ⟨Nat.zero_le _, rfl⟩⟩
  | some e =>
      rw [he, Option.map_some, Option.getD_some] at hleaves
      rw [Option.map_some, Option.getD_some, Option.map_some, Option.getD_some]
      have hworded : ∀ l ∈ Query.leaves e, Query.Worded l := by
        rw [hleaves, List.forall_mem_map]
        exact worded_leaf f
      refine ⟨Query.exists_parse_print_eq_ok_iff hworded, fun hgood => ?_⟩
      have hwritable : ∀ l ∈ Query.leaves e, Query.Writable l := fun l hl =>
        (hworded l hl).writable (hgood l hl)
      refine ⟨?_, Query.parse_print hwritable⟩
      rw [Query.nesting_print hwritable]
      exact writtenHeight_toExpr?_ofNode he

/-- The tree of a filter with a quote in a value, an empty or and a negated inequality. -/
def quotedTree : Group :=
  ⟨.or, 0, [.group .not 1 [.group .and 2 [.rule ⟨.equals, "c.n", some (.text "a'b"), 3, .after⟩,
    .group .or 4 [], .group .not 5 [.rule ⟨.notEquals, "mail", some (.text "x*"), 6, .after⟩]]]]⟩

theorem parse_print_toExpr?_quotedTree :
    parse "(!(&(c.n=a'b)(|)(!(mail!=x*))))" = .ok quotedTree ∧
      Query.print quotedTree.toExpr? =
        "(!((c.n eq 'a\\'b') and (!(!(mail eq 'x*')))))" ∧
      Query.parse "(!((c.n eq 'a\\'b') and (!(!(mail eq 'x*')))))" =
        .ok (.not (.and [Expr.equals "c.n" (.string "a'b"),
          .not (.not (Expr.equals "mail" (.string "x*")))])) := by
  have hread : parse "(!(&(c.n=a'b)(|)(!(mail!=x*))))" = .ok quotedTree := by decide +kernel
  have hprint : Query.print quotedTree.toExpr? =
      "(!((c.n eq 'a\\'b') and (!(!(mail eq 'x*')))))" := by decide
  obtain ⟨-, hquery⟩ := (parse_print_toExpr? _ quotedTree hread).2 (by decide)
  rw [hprint, if_pos (by decide)] at hquery
  exact ⟨hread, hprint, hquery⟩

/-- The tree of a filter whose attribute begins with a digit. -/
def digitTree : Group :=
  ⟨.or, 0, [.rule ⟨.equals, "1a", some (.text "b"), 1, .after⟩]⟩

/-- **So some filter that is read has a query that is not.** -/
theorem not_forall_parse_print_toExpr? :
    ¬ ∀ (s : String) (t : Group), parse s = .ok t →
      ∃ e, Query.parse (Query.print t.toExpr?) = .ok e := by
  intro hall
  have hread : parse "(1a=b)" = .ok digitTree := by decide +kernel
  have hprint : Query.print digitTree.toExpr? = "(1a eq 'b')" := by decide
  have hstuck : (Query.parse "(1a eq 'b')").toOption = none := by decide +kernel
  obtain ⟨e, he⟩ := hall _ _ hread
  rw [hprint] at he
  rw [he] at hstuck
  cases hstuck

end Ldap

end AccessFilter
