import AccessFilter.Editor.Loading
import AccessFilter.Proofs.Editor.Obstacle
import AccessFilter.Proofs.Ldap.Cycle

/-!
# The structured editor saves what it loaded

Of all the ways in which a tree can come back in another form from its LDAP text, only one concerns
trees that the structured editor shows: the text of a group without children does not say what its
connective was.

**Depth.**  The editor limits the groups inside one another and the reader the parentheses.  A rule
is written with two pairs of parentheses at most, so the text of a tree opens at most two more than
its depth.

* `Group.withEmptyAnds` — the tree in which every or without children is made an and.
* `Group.obstacle?_withEmptyAnds` — the editor does not look at what changes by that.
* `Ldap.numbered_canonical_ofNode` — the form in which a tree that is shown comes back.
* `Ldap.writtenHeight_le_depth` — how many parentheses are open at once.
* `EditorView.exists_form_of_load_eq`, `EditorView.load_text` — loading in terms of the grammar.
* **`EditorView.load_print`** — what was loaded is saved, and is loaded again.
-/

namespace AccessFilter

/-! ## Groups without children -/

/-- The connective of a group as it is read again: if the group has no children an or becomes an
and. -/
def Connective.settled (childless : Bool) : Connective → Connective
  | .or => if childless then .and else .or
  | c => c

lemma Connective.settled_eq_not_iff {c : Connective} {childless : Bool} :
    c.settled childless = .not ↔ c = .not := by
  cases c <;> cases childless <;> simp [settled]

namespace Node

mutual

/-- A node in which every or without children, itself included, is made an and. -/
def withEmptyAnds : Node → Node
  | rule r => rule r
  | group c i ns => group (c.settled ns.isEmpty) i (withEmptyAndsAll ns)

/-- Several nodes in which every or without children is made an and. -/
def withEmptyAndsAll : List Node → List Node
  | [] => []
  | n :: ns => n.withEmptyAnds :: withEmptyAndsAll ns

end

lemma isRule_withEmptyAnds (n : Node) : n.withEmptyAnds.isRule = n.isRule := by
  cases n <;> rfl

lemma all_isRule_withEmptyAndsAll (ns : List Node) :
    (withEmptyAndsAll ns).all isRule = ns.all isRule := by
  induction ns with
  | nil => rfl
  | cons n ns ih => rw [withEmptyAndsAll, List.all_cons, List.all_cons, isRule_withEmptyAnds, ih]

mutual

lemma editable_withEmptyAnds : ∀ n : Node, n.withEmptyAnds.Editable ↔ n.Editable
  | rule r => Iff.rfl
  | group c i ns => by
      rw [withEmptyAnds, Editable, Editable, Connective.settled_eq_not_iff,
        all_isRule_withEmptyAndsAll, editableAll_withEmptyAndsAll ns]

lemma editableAll_withEmptyAndsAll : ∀ ns : List Node,
    EditableAll (withEmptyAndsAll ns) ↔ EditableAll ns
  | [] => Iff.rfl
  | n :: ns => by
      rw [withEmptyAndsAll, EditableAll, EditableAll, editable_withEmptyAnds n,
        editableAll_withEmptyAndsAll ns]

end

mutual

lemma depth_withEmptyAnds : ∀ n : Node, n.withEmptyAnds.depth = n.depth
  | rule r => rfl
  | group c i ns => by rw [withEmptyAnds, depth, depth, depthAll_withEmptyAndsAll ns]

lemma depthAll_withEmptyAndsAll : ∀ ns : List Node, depthAll (withEmptyAndsAll ns) = depthAll ns
  | [] => rfl
  | n :: ns => by
      rw [withEmptyAndsAll, depthAll, depthAll, depth_withEmptyAnds n, depthAll_withEmptyAndsAll ns]

end

lemma isEmpty_renumberAll (ns : List Node) (start : Nat) :
    (renumberAll ns start).1.isEmpty = ns.isEmpty := by
  cases ns <;> rfl

mutual

lemma renumber_withEmptyAnds : ∀ (n : Node) (start : Nat), n.withEmptyAnds.renumber start =
    ((n.renumber start).1.withEmptyAnds, (n.renumber start).2)
  | rule r, start => rfl
  | group c i ns, start => by
      simp only [withEmptyAnds, renumber, renumberAll_withEmptyAndsAll ns (start + 1),
        isEmpty_renumberAll]

lemma renumberAll_withEmptyAndsAll : ∀ (ns : List Node) (start : Nat),
    renumberAll (withEmptyAndsAll ns) start =
      (withEmptyAndsAll (renumberAll ns start).1, (renumberAll ns start).2)
  | [], start => rfl
  | n :: ns, start => by
      simp only [withEmptyAndsAll, renumberAll, renumber_withEmptyAnds n start,
        renumberAll_withEmptyAndsAll ns (n.renumber start).2]

end

end Node

namespace Group

/-- **The tree in which every or without children is made an and.**  Nothing else changes, and a not
stays a not. -/
def withEmptyAnds (g : Group) : Group :=
  { g with
    connective := g.connective.settled g.children.isEmpty
    children := Node.withEmptyAndsAll g.children }

lemma toNode_withEmptyAnds (g : Group) : g.withEmptyAnds.toNode = g.toNode.withEmptyAnds := rfl

/-- **The editor shows a tree whatever the connectives of groups without children are.** -/
lemma obstacle?_withEmptyAnds {g : Group} {maxDepth : Nat} :
    g.withEmptyAnds.obstacle? maxDepth = none ↔ g.obstacle? maxDepth = none := by
  rw [obstacle?_eq_none_iff, obstacle?_eq_none_iff, depth, depth, toNode_withEmptyAnds,
    Node.editable_withEmptyAnds, Node.depth_withEmptyAnds]

lemma numbered_withEmptyAnds (g : Group) : g.withEmptyAnds.numbered = g.numbered.withEmptyAnds := by
  refine toNode_injective ?_
  rw [toNode_withEmptyAnds, numbered, numbered, toNode_renumber, toNode_renumber,
    toNode_withEmptyAnds, Node.renumber_withEmptyAnds]

lemma ofNode_withEmptyAnds (n : Node) : ofNode n.withEmptyAnds = (ofNode n).withEmptyAnds := by
  match n with
  | .rule r => rfl
  | .group .and i ns => rfl
  | .group .not i ns => rfl
  | .group .or i [] => rfl
  | .group .or i (n :: ns) => rfl

/-- The root that a node is given does not change whether it can be shown. -/
lemma editable_of_editable_ofNode {n : Node} (h : (ofNode n).toNode.Editable) : n.Editable := by
  match n, h with
  | .rule r, h => exact h.2.1
  | .group .not i ns, h => exact h.2.1
  | .group .and i ns, h => exact h
  | .group .or i ns, h => exact h

lemma depth_le_depth_ofNode (n : Node) : n.depth ≤ (ofNode n).depth := by
  match n with
  | .rule r => exact Nat.zero_le _
  | .group .and i ns => exact Nat.le_refl _
  | .group .or i ns => exact Nat.le_refl _
  | .group .not i ns =>
      change _ ≤ max (Node.group .not i ns).depth 0 + 1
      omega

end Group

/-! ## What comes back of a tree that is shown -/

namespace Ldap

/-- If an equality comes back as it is, so does its negation. -/
lemma canonicalRule_notEquals {r : Rule} (hop : r.operator = .equals)
    (h : canonicalRule r = .rule r) :
    canonicalRule { r with operator := .notEquals } = .rule { r with operator := .notEquals } := by
  have hsame : Rule.make r.field .equals (some (.text (String.ofList (shown r)))) = r := by
    rw [canonicalRule, hop] at h
    exact Node.rule.inj h
  have hnegated : canonicalRule { r with operator := .notEquals } =
      .rule { Rule.make r.field .equals (some (.text (String.ofList (shown r)))) with
        operator := .notEquals } := rfl
  rw [hnegated, hsame]

/-- The value of an item is a text already, and its state the one after a change. -/
lemma canonicalRule_itemRule (a : Attribute) (v : ValueForm) (op : Operator)
    (h : op.isEquality = true) :
    canonicalRule (itemRule a op v) = .rule (itemRule a op v) := by
  have hheld : String.ofList (shown (itemRule a op v)) = v.held := String.ofList_toList
  have hmake : canonicalRule (itemRule a op v) = .rule (Rule.make (String.ofList a.chars) op
      (some (.text (String.ofList (shown (itemRule a op v)))))) := by
    cases op with
    | equals | notEquals => rfl
    | _ => cases h
  rw [hmake, hheld]
  rfl

/-- An and or an or comes back as what comes back of its children, with its connective settled. -/
lemma canonicalNode_group {c : Connective} (hc : c ≠ .not) (i : Nat) (ns : List Node) :
    canonicalNode (.group c i ns) = .group (c.settled ns.isEmpty) 0 (canonicalNodes ns) := by
  match c, ns, hc with
  | .and, [], _ | .or, [], _ =>
      rw [canonicalNode, canonicalNodes]
      rfl
  | .and, n :: ns, _ | .or, n :: ns, _ =>
      rw [canonicalNode, canonicalNodes]
      · rfl
      · simp
  | .not, _, hc => exact absurd rfl hc

mutual

/-- **A derivation that the editor shows stands for what comes back of it,** up to the connectives
of groups without children. -/
lemma canonicalNode_node : ∀ f : Form, f.node.Editable →
    canonicalNode f.node = f.node.withEmptyAnds
  | .and fs, h | .or fs, h => by
      rw [Form.node] at h ⊢
      rw [canonicalNode_group (by simp), canonicalNodes_nodeAll fs h.2, Node.withEmptyAnds]
  | .not f, h => by
      rw [← negation_node] at h ⊢
      rcases negation_cases f.node with ⟨r, hr, hop, hneg⟩ | hneg
      · have ih := canonicalNode_node f (by rw [hr, Node.Editable, hop]; rfl)
        rw [hr, canonicalNode] at ih
        rw [hneg, canonicalNode]
        exact canonicalRule_notEquals hop ih
      · -- what is negated is a rule, and one that no negation is read into
        rw [hneg] at h ⊢
        have ih := canonicalNode_node f h.2.1
        have hrule : f.node.isRule = true := by simpa using h.1 rfl
        rw [canonicalNode_not, ih]
        cases hn : f.node with
        | group c i ns => rw [hn] at hrule; cases hrule
        | rule r => rw [hn] at hneg; exact hneg
  | .item a sg v, h => by
      rw [Form.node_item] at h ⊢
      rw [canonicalNode, canonicalRule_itemRule a v sg.operator h, Node.withEmptyAnds]

lemma canonicalNodes_nodeAll : ∀ fs : List Form, Node.EditableAll (Form.nodeAll fs) →
    canonicalNodes (Form.nodeAll fs) = Node.withEmptyAndsAll (Form.nodeAll fs)
  | [], _ => by rw [Form.nodeAll_nil, canonicalNodes, Node.withEmptyAndsAll]
  | f :: fs, h => by
      rw [Form.nodeAll_cons] at h ⊢
      rw [canonicalNodes, Node.withEmptyAndsAll, canonicalNode_node f h.1,
        canonicalNodes_nodeAll fs h.2]

end

/-- The root that reading puts around a node comes back as such. -/
lemma canonical_ofNode {n : Node} (h : n.NotsSingle) :
    canonical (Group.ofNode n) = Group.ofNode (canonicalNode n) := by
  match n, h with
  | .rule r, _ =>
      rw [canonicalNode, ofNode_canonicalRule]
      exact canonical_or_singleton 0 (.rule r)
  | .group .not i ns, h =>
      obtain ⟨n, rfl⟩ := List.length_eq_one_iff.mp (h.1 rfl)
      rw [canonicalNode_not, ofNode_negation, ← canonicalNode_not i n]
      exact canonical_or_singleton 0 (.group .not i [n])
  | .group .and i ns, _ => rfl
  | .group .or i ns, _ => rfl

mutual

/-- **A text opens at most two parentheses more than its tree is deep:** those of a rule. -/
lemma writtenHeight_le_depth : ∀ n : Node, writtenHeight n ≤ n.depth + 2
  | .rule r => by
      rw [writtenHeight, ruleHeight]
      split <;> simp [Node.depth]
  | .group c i ns => by
      have ih := writtenHeights_le_depthAll ns
      rw [writtenHeight, Node.depth]
      omega

lemma writtenHeights_le_depthAll : ∀ ns : List Node,
    writtenHeights ns ≤ Node.depthAll ns + 2
  | [] => by simp [writtenHeights]
  | n :: ns => by
      have ih := writtenHeight_le_depth n
      have ihs := writtenHeights_le_depthAll ns
      rw [writtenHeights, Node.depthAll]
      omega

end

/-- **The tree that is read of a derivation comes back with empty ands,** if it is shown. -/
lemma numbered_canonical_ofNode {f : Form}
    (h : (Group.ofNode f.node).numbered.toNode.Editable) :
    (canonical (Group.ofNode f.node)).numbered =
      (Group.ofNode f.node).numbered.withEmptyAnds := by
  rw [Group.editable_numbered] at h
  rw [canonical_ofNode (notsSingle_node f),
    canonicalNode_node f (Group.editable_of_editable_ofNode h), Group.ofNode_withEmptyAnds,
    Group.numbered_withEmptyAnds]

/-- The height of the text of a tree that was read. -/
lemma writtenHeight_outermost_le_depth (f : Form) :
    writtenHeight (outermost (Group.ofNode f.node)) ≤
      (Group.ofNode f.node).numbered.depth + 2 := by
  rw [Group.depth_numbered]
  calc writtenHeight (outermost (Group.ofNode f.node))
      ≤ writtenHeight f.node := writtenHeight_outermost_ofNode f.node
    _ ≤ f.node.depth + 2 := writtenHeight_le_depth f.node
    _ ≤ (Group.ofNode f.node).depth + 2 :=
      Nat.add_le_add_right (Group.depth_le_depth_ofNode f.node) 2

end Ldap

/-! ## Loading -/

namespace EditorView

open Ldap

/-- **A tree that is loaded is read of a derivation.**  For a blank filter that is the one of an or
without children. -/
lemma exists_form_of_load_eq {raw : String} {maxDepth : Nat} {t : Group} (hpos : 1 ≤ maxDepth)
    (h : load raw maxDepth = .structured t) :
    ∃ f : Form, t = (Group.ofNode f.node).numbered ∧ t.obstacle? maxDepth = none := by
  rw [load] at h
  split_ifs at h with hblank
  · -- this tree has a depth of one, which the editor must allow
    cases h
    refine ⟨.or [], by rw [Form.node, Form.nodeAll_nil]; rfl, ?_⟩
    rw [Group.obstacle?_eq_none_iff]
    exact ⟨⟨nofun, trivial⟩, hpos⟩
  · split at h
    · cases h
    · next tree hparse =>
      split at h
      · cases h
      · next hobstacle =>
        cases h
        obtain ⟨f, -, -, ht⟩ := exists_form_of_parse_eq hparse
        exact ⟨f, ht, hobstacle⟩

/-- **A derived text is loaded as the tree that is read of it,** if the limits are kept. -/
lemma load_text {f : Form} {maxDepth : Nat} (hheight : f.height ≤ nestingLimit)
    (h : (Group.ofNode f.node).numbered.obstacle? maxDepth = none) :
    load (String.ofList f.text) maxDepth = .structured (Group.ofNode f.node).numbered := by
  have hblank : Text.isBlankText (String.ofList f.text) = false := by
    obtain ⟨s, hs⟩ := f.exists_text_eq
    rw [Text.isBlankText, String.toList_ofList, hs, List.all_cons]
    rfl
  rw [load, hblank, parse_text, Form.nesting_text, if_pos hheight, if_neg (by simp)]
  simp only [h]

/-- **The structured editor saves what it loaded.**  A tree that was loaded is written, and its text
is loaded as the same tree with the same indices, in which every or without children is an and. -/
theorem load_print {raw : String} {maxDepth : Nat} {t : Group} (hpos : 1 ≤ maxDepth)
    (hmax : maxDepth ≤ 62) (h : load raw maxDepth = .structured t) :
    ∃ text, print t = .ok text ∧ load text maxDepth = .structured t.withEmptyAnds := by
  obtain ⟨f, rfl, hobstacle⟩ := exists_form_of_load_eq hpos h
  obtain ⟨k, hprint, hheight, hnode⟩ := exists_form_of_print_node f
  obtain ⟨heditable, hdepth⟩ := Group.obstacle?_eq_none_iff.mp hobstacle
  have hreload : (Group.ofNode k.node).numbered =
      (Group.ofNode f.node).numbered.withEmptyAnds := by
    rw [hnode, numbered_canonical_ofNode heditable]
  -- the nesting limit leaves room for the two parentheses of a rule
  have hlimit : k.height ≤ nestingLimit := by
    have hwritten := writtenHeight_outermost_le_depth f
    rw [nestingLimit]
    omega
  refine ⟨String.ofList k.text, hprint, ?_⟩
  rw [load_text hlimit (by rwa [hreload, Group.obstacle?_withEmptyAnds]), hreload]

/-- An or without children, a not of a negated equality, and a negated equality in a group. -/
def nestedTree : Group :=
  ⟨.and, 0, [.group .or 1 [],
    .group .not 2 [.rule ⟨.notEquals, "cn", some (.text "a*"), 3, .after⟩],
    .group .or 4 [.rule ⟨.notEquals, "uid", some (.text "("), 5, .after⟩, .group .and 6 []]]⟩

theorem load_print_nestedTree :
    load " (&(|)(!(cn!=a*))(|(!(uid=\\())(&))) " 3 = .structured nestedTree ∧
      print nestedTree = .ok "(&(&)(!(!(cn=a*)))(|(!(uid=\\28))(&)))" ∧
      load "(&(&)(!(!(cn=a*)))(|(!(uid=\\28))(&)))" 3 = .structured ⟨.and, 0, [.group .and 1 [],
        .group .not 2 [.rule ⟨.notEquals, "cn", some (.text "a*"), 3, .after⟩],
        .group .or 4 [.rule ⟨.notEquals, "uid", some (.text "("), 5, .after⟩,
          .group .and 6 []]]⟩ := by
  have hload : load " (&(|)(!(cn!=a*))(|(!(uid=\\())(&))) " 3 = .structured nestedTree := by
    decide +kernel
  obtain ⟨text, hprint, hagain⟩ := load_print (by decide) (by decide) hload
  obtain rfl : text = "(&(&)(!(!(cn=a*)))(|(!(uid=\\28))(&)))" := by
    rw [← Except.ok.injEq, ← hprint]
    rfl
  exact ⟨hload, hprint, hagain.trans rfl⟩

end EditorView

end AccessFilter
