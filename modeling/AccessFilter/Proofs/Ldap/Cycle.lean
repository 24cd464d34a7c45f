import AccessFilter.Proofs.Ldap.Canonical
import AccessFilter.Proofs.Tree.Numbering
import AccessFilter.Proofs.Tree.Rules

/-!
# Reading, writing, reading again

An editor reads a filter, and what it writes is read again the next time.  The text does not change
any more after the first time it was written, unless it cannot be read again: a negated equality is
written with one pair of parentheses more than it may have been read with, and that can be the one
that is too many.

* `print_numbered` — indices do not show in a text.
* **`print_canonical`** — the form in which a tree comes back is written as the tree itself.
* `rules_node`, `notsSingle_node` — what the readers build can be written.
* **`print_parse_print`** — a text that was written is written again, if it can be read at all.
* **`not_forall_print_parse_print`** — some accepted filter is written as one that is rejected.
-/

namespace AccessFilter.Ldap

/-! ## Indices do not show -/

mutual

lemma nodeText_cleared : ∀ n : Node, nodeText n.cleared = nodeText n
  | .rule r => rfl
  | .group c i [] => rfl
  | .group c i (n :: ns) => by
      rw [Node.cleared, Node.clearedAll, nodeText_group, nodeText_group, nodeTexts, nodeTexts,
        nodeText_cleared n, nodeTexts_clearedAll ns]

lemma nodeTexts_clearedAll : ∀ ns : List Node, nodeTexts (Node.clearedAll ns) = nodeTexts ns
  | [] => rfl
  | n :: ns => by
      rw [Node.clearedAll, nodeTexts, nodeTexts, nodeText_cleared n, nodeTexts_clearedAll ns]

end

/-- A root that joins no child or several is written. -/
lemma outermost_of_length_ne_one {g : Group} (h : g.children.length ≠ 1) :
    outermost g = g.toNode := by
  unfold outermost
  split
  · exact absurd rfl h
  · exact absurd rfl h
  · rfl

lemma outermost_cleared (g : Group) : outermost g.cleared = (outermost g).cleared := by
  obtain ⟨c, i, ns⟩ := g
  match c, ns with
  | .or, [.rule r] => rfl
  | .or, [.group d j ms] => cases d <;> rfl
  | .or, n :: m :: ms =>
      have hlen : (Group.cleared ⟨.or, i, n :: m :: ms⟩).children.length ≠ 1 := by
        simp [Group.cleared, Node.clearedAll]
      rw [outermost_of_length_ne_one hlen, outermost_of_length_ne_one (by simp),
        Group.toNode_cleared]
  | .or, [] | .and, _ | .not, _ => rfl

/-- **The text of a tree does not depend on its indices.** -/
lemma print_numbered (g : Group) : print g.numbered = print g := by
  have hcleared : ∀ h : Group, print h.cleared = print h := fun h => by
    rw [print, print, outermost_cleared, nodeText_cleared]
  rw [← hcleared g.numbered, Group.cleared_numbered, hcleared]

/-! ## The canonical form is written as the tree -/

/-- Marking literal asterisks does not change what a text begins with, as long as that is neither an
asterisk nor the start of a mark. -/
lemma isPrefixOf_markStars_append {p : List Char} (hp : ∀ c ∈ p, c ≠ '*' ∧ c ≠ '\\') (k : Nat) :
    ∀ s : List Char, p.isPrefixOf (markStars s ++ List.replicate k '*') = p.isPrefixOf s := by
  induction p with
  | nil => intro s; rfl
  | cons x p ih =>
      have hstar : (x == '*') = false := beq_false_of_ne (hp x List.mem_cons_self).1
      have hslash : (x == '\\') = false := beq_false_of_ne (hp x List.mem_cons_self).2
      intro s
      cases s with
      | nil =>
          cases k with
          | zero => rfl
          | succ k => simp [markStars, List.replicate_succ, List.isPrefixOf, hstar]
      | cons c s =>
          by_cases hc : c = '*'
          · subst hc
            simp [markStars, starMark, List.isPrefixOf, hstar, hslash]
          · have ih' := ih (fun d hd => hp d (List.mem_cons_of_mem x hd)) s
            simp only [markStars] at ih'
            simp [markStars, List.isPrefixOf, hc, ih']

/-- **A value whose asterisks are literal is written as the value it comes from,** with the
wildcards behind it as they are kept. -/
lemma escape_markStars_append (keepWildcards : Bool) (k : Nat) (s : List Char) :
    escape keepWildcards (markStars s ++ List.replicate k '*') =
      escape false s ++ escape keepWildcards (List.replicate k '*') := by
  induction s with
  | nil => rfl
  | cons c s ih =>
      by_cases hc : c = '*'
      · subst hc
        have hmark : markStars ('*' :: s) = '\\' :: '2' :: 'a' :: markStars s := rfl
        rw [hmark]
        simp [escape, escapeChar, ih, starMark]
      · have hmark : markStars (c :: s) = c :: markStars s := by simp [markStars, hc]
        have hpre := isPrefixOf_markStars_append (p := ['2', 'a']) (by simp) k s
        rw [hmark, List.cons_append, escape, escape, ih, List.append_assoc]
        simp only [escapeChar, hc, hpre, if_false]

lemma escape_literal (keepWildcards : Bool) (s : List Char) :
    escape keepWildcards (markStars s) = escape false s := by
  have h := escape_markStars_append keepWildcards 0 s
  rwa [List.replicate_zero, List.append_nil, escape, List.append_nil] at h

lemma escape_literal_star (s : List Char) :
    escape true (markStars s ++ ['*']) = escape false s ++ ['*'] :=
  escape_markStars_append true 1 s

lemma escape_star (s : List Char) : escape true ('*' :: s) = '*' :: escape true s := rfl

lemma nodeText_canonicalRule (r : Rule) : nodeText (canonicalRule r) = ruleText r := by
  obtain ⟨op, field, v, i, temporal⟩ := r
  cases op <;>
    simp [canonicalRule, nodeText, nodeTexts, ruleText, Rule.make, shown, Scalar.display,
      escape_literal, escape_literal_star, escape_star, escape, negated, plain, sign]

/-- The negation of a node is written like a not around it. -/
lemma nodeText_negation (n : Node) : nodeText (negation n) = nodeText (.group .not 0 [n]) := by
  rcases negation_cases n with ⟨⟨op, field, v, i, temporal⟩, rfl, hop, hneg⟩ | hneg
  · obtain rfl : op = .equals := hop
    rw [hneg]
    simp [nodeText, nodeTexts, ruleText, negated, plain, sign]
  · rw [hneg]

/-- A group that has children comes back as what is written like a group again. -/
lemma nodeText_canonicalNode_group (c : Connective) (i : Nat) (n : Node) (ns : List Node) :
    nodeText (canonicalNode (.group c i (n :: ns))) =
      nodeText (.group c 0 (canonicalNode n :: canonicalNodes ns)) := by
  by_cases h : c = .not ∧ ns = []
  · obtain ⟨rfl, rfl⟩ := h
    rw [canonicalNode_not, nodeText_negation, canonicalNodes]
  · rw [canonicalNode]
    exact fun hc hns => h ⟨hc, hns⟩

mutual

/-- **The form in which a node comes back is written as the node itself.** -/
theorem nodeText_canonicalNode : ∀ n : Node, nodeText (canonicalNode n) = nodeText n
  | .rule r => by rw [canonicalNode, nodeText_canonicalRule, nodeText]
  | .group c i [] => rfl
  | .group c i (n :: ns) => by
      rw [nodeText_canonicalNode_group, nodeText_group, nodeText_group, nodeTexts, nodeTexts,
        nodeText_canonicalNode n, nodeTexts_canonicalNodes ns]

lemma nodeTexts_canonicalNodes : ∀ ns : List Node, nodeTexts (canonicalNodes ns) = nodeTexts ns
  | [] => by rw [canonicalNodes]
  | n :: ns => by
      rw [canonicalNodes, nodeTexts, nodeTexts, nodeText_canonicalNode n,
        nodeTexts_canonicalNodes ns]

end

/-- A node that joins others by and or or, which is what the root of a tree does. -/
def Joins (n : Node) : Prop :=
  ∃ c i ns, c ≠ .not ∧ n = .group c i ns

lemma outermost_or_singleton {i : Nat} {n : Node} (h : Joins n) :
    outermost ⟨.or, i, [n]⟩ = .group .or i [n] := by
  obtain ⟨c, j, ns, hc, rfl⟩ := h
  cases c with
  | and | or => rfl
  | not => exact absurd rfl hc

lemma joins_of_outermost_eq {g : Group} {i : Nat} {n : Node}
    (h : outermost g = .group .or i [n]) : Joins n := by
  obtain ⟨c, j, ns⟩ := g
  unfold outermost at h
  split at h
  · cases h
  · cases h
  · next hrule hnot =>
    obtain ⟨rfl, rfl, rfl⟩ := Node.group.inj h
    cases n with
    | rule r => exact absurd rfl (hrule j r)
    | group c k ns =>
        refine ⟨c, k, ns, ?_, rfl⟩
        rintro rfl
        exact hnot j k ns rfl

/-- A node that joins others comes back as one that does. -/
lemma joins_canonicalNode {n : Node} (h : Joins n) : Joins (canonicalNode n) := by
  obtain ⟨c, i, ns, hc, rfl⟩ := h
  cases ns with
  | nil => exact ⟨.and, 0, [], by simp, by rw [canonicalNode]⟩
  | cons n ns =>
      refine ⟨c, 0, _, hc, by rw [canonicalNode]; exact fun h => absurd h hc⟩

/-- Only an or of one child comes back as an or of one child. -/
lemma exists_of_canonicalNode_eq {n m : Node} {i : Nat} (h : canonicalNode n = .group .or i [m]) :
    ∃ j k, n = .group .or j [k] ∧ m = canonicalNode k := by
  cases n with
  | rule r =>
      obtain ⟨op, field, v, j, temporal⟩ := r
      cases op <;> cases h
  | group c j ns =>
      cases ns with
      | nil => cases h
      | cons k ks =>
          by_cases hc : c = .not ∧ ks = []
          · obtain ⟨rfl, rfl⟩ := hc
            rw [canonicalNode_not] at h
            rcases negation_cases (canonicalNode k) with ⟨r, -, -, hneg⟩ | hneg
            · rw [hneg] at h
              cases h
            · rw [hneg] at h
              cases h
          · rw [canonicalNode] at h
            · obtain ⟨rfl, rfl, hm⟩ := Node.group.inj h
              obtain ⟨rfl, hks⟩ := List.cons.inj hm
              cases ks with
              | nil => exact ⟨j, k, rfl, rfl⟩
              | cons l ls => rw [canonicalNodes] at hks; cases hks
            · exact fun hnot hks => hc ⟨hnot, hks⟩

/-- Reading puts back the or that was left out around what is written, and no other one. -/
lemma outermost_ofNode {n : Node} (h : ∀ i m, n = .group .or i [m] → Joins m) :
    outermost (Group.ofNode n) = n := by
  match n, h with
  | .rule r, _ => rfl
  | .group .not i ns, _ => rfl
  | .group .and i ns, _ => rfl
  | .group .or i [], _ => rfl
  | .group .or i (m :: k :: ns), _ => exact outermost_of_length_ne_one (by simp [Group.ofNode])
  | .group .or i [m], h => exact outermost_or_singleton (h i m rfl)

/-- **The form in which a tree comes back is written as the tree itself.** -/
theorem print_canonical {g : Group} (hnots : g.NotsSingle) : print (canonical g) = print g := by
  have hroot : ∀ i m, canonicalNode (outermost g) = .group .or i [m] → Joins m := by
    intro i m h
    obtain ⟨j, k, hk, rfl⟩ := exists_of_canonicalNode_eq h
    exact joins_canonicalNode (joins_of_outermost_eq hk)
  rw [Group.notsSingle_iff] at hnots
  rw [print, ← ofNode_outermost hnots, outermost_ofNode hroot, nodeText_canonicalNode, print]

/-! ## What is read can be written -/

/-- A negation shows of the rules what the negated node shows of them, if an equality does not show
whether it is negated. -/
lemma map_rules_negation {β : Type} {k : Rule → β}
    (hk : ∀ r : Rule, r.operator = .equals → k { r with operator := .notEquals } = k r)
    (n : Node) : (negation n).rules.map k = n.rules.map k := by
  rcases negation_cases n with ⟨r, rfl, hop, hneg⟩ | hneg
  · rw [hneg, Node.rules, Node.rules, List.map_singleton, List.map_singleton, hk r hop]
  · rw [hneg, Node.rules_singleton]

/-- A negation asks for the fields of what it negates, and for a change only where that does. -/
lemma exists_of_mem_rules_negation {n : Node} {r : Rule} (h : r ∈ (negation n).rules) :
    ∃ q ∈ n.rules, r.field = q.field ∧ r.operator.isChange = q.operator.isChange := by
  have hmem := List.mem_map_of_mem (f := fun r => (r.field, r.operator.isChange)) h
  rw [map_rules_negation fun r hop => by rw [hop]; rfl] at hmem
  obtain ⟨q, hq, hqr⟩ := List.mem_map.mp hmem
  exact ⟨q, hq, (congrArg Prod.fst hqr).symm, (congrArg Prod.snd hqr).symm⟩

mutual

/-- **The rules that a derivation stands for can be written.** -/
lemma rules_node : ∀ (f : Form), ∀ r ∈ f.node.rules,
    IsAttribute r.field ∧ r.operator.isChange = false
  | .and fs, r, h | .or fs, r, h => rulesAll_nodeAll fs r (by rwa [Form.node, Node.rules] at h)
  | .not f, r, h => by
      rw [← negation_node] at h
      obtain ⟨q, hq, hfield, hop⟩ := exists_of_mem_rules_negation h
      rw [hfield, hop]
      exact rules_node f q hq
  | .item a sg v, r, h => by
      rw [Form.node_item] at h
      obtain rfl := List.mem_singleton.mp h
      refine ⟨⟨?_, ?_⟩, ?_⟩
      · rw [itemRule, String.toList_ofList]
        exact a.nonempty
      · rw [itemRule, String.toList_ofList, List.all_eq_true]
        exact a.allowed
      · cases sg <;> rfl

lemma rulesAll_nodeAll : ∀ (fs : List Form), ∀ r ∈ Node.rulesAll (Form.nodeAll fs),
    IsAttribute r.field ∧ r.operator.isChange = false
  | [], r, h => by simp [Node.rulesAll] at h
  | f :: fs, r, h => by
      rw [Form.nodeAll_cons, Node.rulesAll, List.mem_append] at h
      rcases h with h | h
      · exact rules_node f r h
      · exact rulesAll_nodeAll fs r h

end

lemma notsSingle_negation {n : Node} (h : n.NotsSingle) : (negation n).NotsSingle := by
  rcases negation_cases n with ⟨r, -, -, hneg⟩ | hneg
  · rw [hneg]
    trivial
  · rw [hneg]
    exact ⟨fun _ => rfl, h, trivial⟩

mutual

/-- **The nots that a derivation stands for negate one node.** -/
lemma notsSingle_node : ∀ f : Form, f.node.NotsSingle
  | .and fs | .or fs => by
      rw [Form.node]
      exact ⟨nofun, notsSingleAll_nodeAll fs⟩
  | .not f => by
      rw [← negation_node]
      exact notsSingle_negation (notsSingle_node f)
  | .item a sg v => by cases sg <;> trivial

lemma notsSingleAll_nodeAll : ∀ fs : List Form, Node.NotsSingleAll (Form.nodeAll fs)
  | [] => by
      rw [Form.nodeAll_nil]
      trivial
  | f :: fs => by
      rw [Form.nodeAll_cons]
      exact ⟨notsSingle_node f, notsSingleAll_nodeAll fs⟩

end

lemma writtenHeight_negation (n : Node) : writtenHeight (negation n) ≤ writtenHeight n + 1 := by
  rcases negation_cases n with ⟨r, rfl, hop, hneg⟩ | hneg
  · simp [hneg, writtenHeight, ruleHeight, hop]
  · simp [hneg, writtenHeight, writtenHeights]

mutual

/-- **A node is written with at most one pair of parentheses more** inside one another than it was
read with. -/
lemma writtenHeight_node : ∀ f : Form, writtenHeight f.node ≤ f.height + 1
  | .and fs | .or fs => by
      have ih := writtenHeights_nodeAll fs
      rw [Form.node, writtenHeight, Form.height]
      omega
  | .not f => by
      have ih := writtenHeight_node f
      have hneg := writtenHeight_negation f.node
      rw [← negation_node, Form.height]
      omega
  | .item a sg v => by
      cases sg <;>
        simp [Form.node, writtenHeight, ruleHeight, itemRule, Form.height, Sign.operator]

lemma writtenHeights_nodeAll : ∀ fs : List Form,
    writtenHeights (Form.nodeAll fs) ≤ Form.heightAll fs + 1
  | [] => by simp [writtenHeights]
  | f :: fs => by
      have ihf := writtenHeight_node f
      have ihs := writtenHeights_nodeAll fs
      rw [Form.nodeAll_cons, Form.heightAll_cons, writtenHeights]
      omega

end

lemma notsSingle_ofNode {n : Node} (h : n.NotsSingle) : (Group.ofNode n).NotsSingle := by
  rw [Group.notsSingle_iff]
  cases n with
  | rule r => exact ⟨nofun, h, trivial⟩
  | group c i ns =>
      cases c with
      | not => exact ⟨nofun, h, trivial⟩
      | and | or => exact h

lemma writtenHeight_outermost_ofNode (n : Node) :
    writtenHeight (outermost (Group.ofNode n)) ≤ writtenHeight n := by
  have hle : ∀ g : Group, writtenHeight (outermost g) ≤ writtenHeight g.toNode := by
    intro g
    unfold outermost
    split
    · simp [Group.toNode, writtenHeight, writtenHeights]
    · simp [Group.toNode, writtenHeight, writtenHeights]
    · exact Nat.le_refl _
  cases n with
  | rule r => exact Nat.le_refl _
  | group c i ns =>
      cases c with
      | not => exact Nat.le_refl _
      | and | or => exact hle _

/-! ## The cycle -/

/-- The tree of a derivation is written as a derived text again, which stands for the canonical form
of that tree. -/
lemma exists_form_of_print_node (f : Form) :
    ∃ k : Form, print (Group.ofNode f.node).numbered = .ok (String.ofList k.text) ∧
      k.height = writtenHeight (outermost (Group.ofNode f.node)) ∧
      Group.ofNode k.node = canonical (Group.ofNode f.node) := by
  have hrules := rules_node f
  rw [← Group.rules_ofNode] at hrules
  rw [print_numbered]
  exact exists_form_of_print (notsSingle_ofNode (notsSingle_node f))
    (fun r hr => (hrules r hr).1) (fun r hr => (hrules r hr).2)

/-- **What an editor writes, it writes again.**  A filter that was read is written, with at most one
pair of parentheses more inside one another.  If this text keeps the nesting limit it is read, and
the tree that is read is written as the same text; otherwise it is rejected. -/
theorem print_parse_print (s : String) (t : Group) (h : parse s = .ok t) :
    ∃ u, print t = .ok u ∧ nesting u.toList ≤ nesting (Text.trim s.toList) + 1 ∧
      if nesting u.toList ≤ nestingLimit then ∃ t', parse u = .ok t' ∧ print t' = .ok u
      else parse u = .error .tooDeep := by
  obtain ⟨f, hf, -, rfl⟩ := exists_form_of_parse_eq h
  obtain ⟨k, hk, hheight, hnode⟩ := exists_form_of_print_node f
  have hagain : print (canonical (Group.ofNode f.node)).numbered = .ok (String.ofList k.text) := by
    rw [print_numbered, print_canonical (notsSingle_ofNode (notsSingle_node f)), ← print_numbered,
      hk]
  refine ⟨String.ofList k.text, hk, ?_, ?_⟩
  · rw [String.toList_ofList, ← hf, Form.nesting_text, Form.nesting_text, hheight]
    exact Nat.le_trans (writtenHeight_outermost_ofNode f.node) (writtenHeight_node f)
  · rw [String.toList_ofList, parse_text, hnode]
    split_ifs
    · exact ⟨_, rfl, hagain⟩
    · rfl

/-- The tree of a filter with blanks around it, a wildcard in a comparison, an escaped letter and an
empty or. -/
def blanksTree : Group :=
  ⟨.and, 0, [.rule ⟨.greaterOrEqual, "a", some (.text "x*"), 1, .after⟩,
    .group .not 2 [.rule ⟨.notEquals, "b", some (.text "y"), 3, .after⟩], .group .or 4 []]⟩

theorem print_parse_print_blanksTree :
    parse " (&(a>=x*)(!(b!=\\y))(|)) " = .ok blanksTree ∧
      print blanksTree = .ok "(&(a>=x\\2a)(!(!(b=y)))(&))" ∧
      ∃ t', parse "(&(a>=x\\2a)(!(!(b=y)))(&))" = .ok t' ∧
        print t' = .ok "(&(a>=x\\2a)(!(!(b=y)))(&))" := by
  have hread : parse " (&(a>=x*)(!(b!=\\y))(|)) " = .ok blanksTree := by decide +kernel
  obtain ⟨u, hu, -, h⟩ := print_parse_print _ blanksTree hread
  obtain rfl : u = "(&(a>=x\\2a)(!(!(b=y)))(&))" := by
    rw [← Except.ok.injEq, ← hu]
    rfl
  rw [if_pos (by decide)] at h
  exact ⟨hread, hu, h⟩

/-- A filter under so many ands. -/
def under : Nat → Form → Form
  | 0, f => f
  | depth + 1, f => .and [under depth f]

lemma height_under (depth : Nat) (f : Form) : (under depth f).height = f.height + depth := by
  induction depth with
  | zero => rfl
  | succ depth ih =>
      rw [under, Form.height, Form.heightAll_cons, Form.heightAll_nil, ih]
      omega

lemma writtenHeight_node_under (depth : Nat) (f : Form) :
    writtenHeight (under depth f).node = writtenHeight f.node + depth := by
  induction depth with
  | zero => rfl
  | succ depth ih =>
      rw [under, Form.node, writtenHeight, Form.nodeAll_cons, Form.nodeAll_nil, writtenHeights,
        writtenHeights, ih]
      omega

/-- A derivation under ands stands for the root of a tree. -/
lemma outermost_ofNode_under (depth : Nat) (f : Form) :
    outermost (Group.ofNode (under (depth + 1) f).node) = (under (depth + 1) f).node := by
  rw [under, Form.node]
  rfl

/-- **At the limit the cycle breaks.**  A negated equality that stands as deep as can be is read,
and is written with one pair of parentheses too many. -/
theorem parse_print_under_unequal (a : Attribute) (v : ValueForm) :
    ∃ t u, parse (String.ofList (under 63 (.item a .unequal v)).text) = .ok t ∧
      print t = .ok u ∧ parse u = .error .tooDeep := by
  obtain ⟨k, hk, hheight, -⟩ := exists_form_of_print_node (under 63 (.item a .unequal v))
  have hitem : writtenHeight (Form.item a .unequal v).node = 2 := rfl
  rw [outermost_ofNode_under, writtenHeight_node_under, hitem] at hheight
  refine ⟨_, _, ?_, hk, ?_⟩
  · rw [parse_text, Form.nesting_text, height_under, Form.height, if_pos (by decide)]
  · rw [parse_text, Form.nesting_text, hheight, if_neg (by decide)]

/-- **So not every accepted filter is written as an accepted one.** -/
theorem not_forall_print_parse_print :
    ¬ ∀ (s : String) (t : Group), parse s = .ok t →
      ∃ u, print t = .ok u ∧ ∃ t', parse u = .ok t' ∧ print t' = .ok u := by
  intro hall
  obtain ⟨t, u, ht, hu, hdeep⟩ := parse_print_under_unequal
    ⟨['a'], by simp, List.forall_mem_singleton.mpr rfl⟩
    ⟨[.plain 'b' (by decide)], trivial, by decide⟩
  obtain ⟨w, hw, t', ht', -⟩ := hall _ t ht
  obtain rfl : w = u := Except.ok.inj (hw.symm.trans hu)
  rw [hdeep] at ht'
  cases ht'

end AccessFilter.Ldap
