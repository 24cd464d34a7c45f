import AccessFilter.Proofs.Meaning.Backends
import AccessFilter.Proofs.Meaning.Negation
import AccessFilter.Proofs.Session.Arity

/-!
# Pushing negations down before a tree is saved

A tree is saved as a filter text, and the text is what it means from then on.  Every group without
children is written as the filter that every record passes.  So pushing negations down, which makes
the dual of a group that stands under a not, keeps the meaning of what is saved, unless that group
has no children: its not is a filter that no record passes, and its dual one that every record does.

* `Rule.truth` — whether a rule of a filter text is true when its items are.
* `Ldap.holds_formula_canonicalNode` — what comes back of a node says what its text says.
* `Ldap.holds_nodeFormula_pushNegations` — what pushing negations down makes of the text.
* **`Ldap.print_and_print_pushNegations`** — what is saved with negations pushed down passes every
  record that was passed before, and no other one as long as no not gives way that negates a group
  without children.
* **`Ldap.not_forall_holds_print_pushNegations`** — and otherwise it may pass others.
-/

namespace AccessFilter

/-! ## Truth of items -/

/-- Whether a rule is true when what rules test has these truth values: a negated rule is the
negation of what it tests. -/
def Rule.truth (v : Comparison × Target → Bool) (r : Rule) : Bool :=
  if r.operator.isNegated then !v r.leaf else v r.leaf

section

variable {w : Rule → Bool}

mutual

/-- Where indices do not matter to the rules they do not matter to what a node says. -/
lemma Node.holds_formula_cleared (hw : ∀ r i, w { r with index := i } = w r) : ∀ n : Node,
    n.cleared.formula.holds w = n.formula.holds w
  | .rule r => hw r 0
  | .group c i ns => by
      rw [Node.cleared, Node.holds_group, Node.holds_group, Node.holdsAll_formulas_clearedAll hw ns]

lemma Node.holdsAll_formulas_clearedAll (hw : ∀ r i, w { r with index := i } = w r) :
    ∀ ns : List Node, Formula.holdsAll w (Node.formulas (Node.clearedAll ns)) =
      Formula.holdsAll w (Node.formulas ns)
  | [] => rfl
  | n :: ns => by
      rw [Node.clearedAll, Node.formulas, Node.formulas, Formula.holdsAll, Formula.holdsAll,
        Node.holds_formula_cleared hw n, Node.holdsAll_formulas_clearedAll hw ns]

end

/-- **Numbering does not matter to what a tree says.** -/
lemma Group.holds_formula_numbered (hw : ∀ r i, w { r with index := i } = w r) (g : Group) :
    g.numbered.formula.holds w = g.formula.holds w := by
  have hcleared : ∀ h : Group, h.cleared.formula.holds w = h.formula.holds w := fun h =>
    Node.holds_formula_cleared hw h.toNode
  rw [← hcleared g.numbered, Group.cleared_numbered, hcleared]

/-- The or that is put around a root makes no difference. -/
lemma Group.holds_formula_ofNode (n : Node) :
    (Group.ofNode n).formula.holds w = n.formula.holds w := by
  cases n with
  | rule r => exact Group.holds_or_singleton 0 _
  | group c i ns =>
      cases c with
      | and | or => rfl
      | not => exact Group.holds_or_singleton 0 _

end

namespace Ldap

/-! ## What comes back says what was written -/

section

variable (v : Comparison × Target → Bool)

/-- Whether what comes back of a rule is true. -/
def savedTruth (r : Rule) : Bool :=
  (canonicalRule r).formula.holds (Rule.truth v)

lemma holds_formula_canonicalRule (r : Rule) :
    (canonicalRule r).formula.holds (Rule.truth v) = (ruleFormula r).holds (savedTruth v) := by
  obtain ⟨op, field, value, i, temporal⟩ := r
  cases op with
  | notEquals | notContains | notExists | hasNotChanged =>
      simp [ruleFormula, Operator.positive?, Formula.holds, Formula.holdsAll, Connective.combine,
        savedTruth, canonicalRule, Node.formula, Rule.truth, Operator.isNegated, Rule.leaf,
        Comparison.ofRule, Operator.takesValue, Rule.make, shown]
  | _ => rfl

/-- The negation of what comes back says the opposite. -/
lemma holds_formula_negation (n : Node) :
    (negation n).formula.holds (Rule.truth v) = !n.formula.holds (Rule.truth v) := by
  rcases negation_cases n with ⟨⟨op, field, value, i, temporal⟩, rfl, hop, hneg⟩ | hneg
  · obtain rfl : op = .equals := hop
    rw [hneg]
    rfl
  · rw [hneg, Node.holds_not]

/-- A group that has children comes back as what says the same of its children. -/
lemma holds_canonicalNode_group (c : Connective) (i : Nat) (n : Node) (ns : List Node) :
    (canonicalNode (.group c i (n :: ns))).formula.holds (Rule.truth v) =
      (Node.group c 0 (canonicalNode n :: canonicalNodes ns)).formula.holds (Rule.truth v) := by
  by_cases h : c = .not ∧ ns = []
  · obtain ⟨rfl, rfl⟩ := h
    rw [canonicalNode_not, holds_formula_negation, canonicalNodes, Node.holds_not]
  · rw [canonicalNode]
    exact fun hc hns => h ⟨hc, hns⟩

mutual

/-- **What comes back of a node says what its text says.** -/
theorem holds_formula_canonicalNode : ∀ n : Node,
    (canonicalNode n).formula.holds (Rule.truth v) = (nodeFormula n).holds (savedTruth v)
  | .rule r => by rw [canonicalNode, holds_formula_canonicalRule, nodeFormula]
  | .group c i [] => rfl
  | .group c i (n :: ns) => by
      rw [holds_canonicalNode_group, Node.holds_group, Node.formulas, Formula.holdsAll,
        nodeFormula, Formula.holds, Formula.holdsAll, holds_formula_canonicalNode n,
        holdsAll_canonicalNodes ns]

lemma holdsAll_canonicalNodes : ∀ ns : List Node,
    Formula.holdsAll (Rule.truth v) (Node.formulas (canonicalNodes ns)) =
      Formula.holdsAll (savedTruth v) (nodeFormulas ns)
  | [] => rfl
  | n :: ns => by
      rw [canonicalNodes, Node.formulas, Formula.holdsAll, nodeFormulas, Formula.holdsAll,
        holds_formula_canonicalNode n, holdsAll_canonicalNodes ns]

end

/-- **What comes back of a tree says what its text says.** -/
lemma holds_formula_canonical {g : Group} (h : g.NotsSingle) :
    (canonical g).numbered.formula.holds (Rule.truth v) = (formula g).holds (savedTruth v) := by
  rw [Group.holds_formula_numbered (fun _ _ => rfl), ← ofNode_outermost (g.notsSingle_iff.mp h),
    Group.holds_formula_ofNode, holds_formula_canonicalNode, formula]

end

/-! ## Pushing negations down -/

/-- A group that has no children. -/
def isEmptied : Node → Bool
  | .group _ _ [] => true
  | _ => false

mutual

/-- Whether no not that could give way negates a group without children.  A not that stands below
another one cannot give way. -/
def notsFilled : Node → Bool
  | .rule _ => true
  | .group .not _ ns => ns.all fun n => !isEmptied n
  | .group .and _ ns | .group .or _ ns => notsFilledAll ns

/-- The same for several nodes. -/
def notsFilledAll : List Node → Bool
  | [] => true
  | n :: ns => notsFilled n && notsFilledAll ns

end

lemma notsFilled_group {c : Connective} (hc : c ≠ .not) (i : Nat) (ns : List Node) :
    notsFilled (.group c i ns) = notsFilledAll ns := by
  cases c with
  | and | or => rw [notsFilled]
  | not => exact absurd rfl hc

section

variable {w : Rule → Bool}

/-- A rule and its opposite say the opposite, whatever the rules test. -/
lemma holds_nodeFormula_opposite {n m : Node} (h : Node.Opposite n m) :
    (nodeFormula m).holds w = !(nodeFormula n).holds w := by
  obtain @⟨r, q, hq⟩ := h
  obtain ⟨op, field, value, i, temporal⟩ := r
  rcases Rule.flipped?_eq_some_iff.mp hq with ⟨rfl, rfl⟩ | ⟨rfl, rfl⟩ <;>
    simp [nodeFormula, ruleFormula, Operator.positive?, Formula.holds, Formula.holdsAll,
      Connective.combine]

lemma holdsAll_nodeFormulas_opposite {ns ms : List Node} (h : List.Forall₂ Node.Opposite ns ms) :
    Formula.holdsAll w (nodeFormulas ms) = (Formula.holdsAll w (nodeFormulas ns)).map (!·) := by
  induction h with
  | nil => rfl
  | cons hn _ ih =>
      rw [nodeFormulas, nodeFormulas, Formula.holdsAll, Formula.holdsAll, List.map_cons, ih,
        holds_nodeFormula_opposite hn]

/-- A group that has children says what its connective makes of them. -/
lemma holds_nodeFormula_group (c : Connective) (i : Nat) {ns : List Node} (h : ns ≠ []) :
    (nodeFormula (.group c i ns)).holds w =
      c.combine (Formula.holdsAll w (nodeFormulas ns)) := by
  obtain ⟨n, ns, rfl⟩ := List.exists_cons_of_ne_nil h
  rw [nodeFormula, Formula.holds, nodeFormulas]

lemma holds_nodeFormula_singleton (c : Connective) (i : Nat) (n : Node) :
    (nodeFormula (.group c i [n])).holds w = c.combine [(nodeFormula n).holds w] :=
  holds_nodeFormula_group c i (List.cons_ne_nil _ _)

/-- The dual of a group of rules that has children, with their opposites in it, says the
opposite. -/
lemma holds_nodeFormula_dual {c : Connective} (hc : c ≠ .not) (i j : Nat) {ns ms : List Node}
    (hne : ns ≠ []) (h : List.Forall₂ Node.Opposite ns ms) :
    (nodeFormula (.group c.dual i ms)).holds w = !(nodeFormula (.group c j ns)).holds w := by
  have hms : ms ≠ [] := by
    rintro rfl
    cases h
    exact hne rfl
  rw [holds_nodeFormula_group _ _ hms, holds_nodeFormula_group _ _ hne,
    holdsAll_nodeFormulas_opposite h, Connective.combine_dual hc]

/-- And and or are monotone. -/
lemma combine_le {c : Connective} (hc : c ≠ .not) {as bs : List Bool}
    (h : List.Forall₂ (· ≤ ·) as bs) : c.combine as ≤ c.combine bs := by
  have hand : ∀ a b x y : Bool, a ≤ b → x ≤ y → (a && x) ≤ (b && y) := by decide
  have hor : ∀ a b x y : Bool, a ≤ b → x ≤ y → (a || x) ≤ (b || y) := by decide
  cases c with
  | not => exact absurd rfl hc
  | and =>
      induction h with
      | nil => exact Bool.le_refl _
      | cons hab _ ih => exact hand _ _ _ _ hab ih
  | or =>
      induction h with
      | nil => exact Bool.le_refl _
      | cons hab _ ih => exact hor _ _ _ _ hab ih

mutual

/-- **What pushing negations down makes of the text of a node.**  Only a not of a group without
children does not say the same any more: it says nothing, and what it gives way to everything.  It
stands under ands and ors only, so the text says no less than before. -/
theorem holds_nodeFormula_pushNegations : ∀ n : Node,
    (nodeFormula n).holds w ≤ (nodeFormula n.pushNegations).holds w ∧
      (notsFilled n = true →
        (nodeFormula n.pushNegations).holds w = (nodeFormula n).holds w)
  | .rule r => ⟨Bool.le_refl _, fun _ => rfl⟩
  | .group c i ns => by
      by_cases hc : c = .not
      · subst hc
        rcases Node.pushNegations_not i ns with hp | ⟨n, m, rfl, hm, hp⟩ |
          ⟨c, j, ms, ks, hc, rfl, hks, hp⟩
        · rw [hp]
          exact ⟨Bool.le_refl _, fun _ => rfl⟩
        · have heq : (nodeFormula m).holds w = (nodeFormula (.group .not i [n])).holds w := by
            simp [holds_nodeFormula_singleton, holds_nodeFormula_opposite hm, Connective.combine]
          rw [hp]
          exact ⟨Bool.le_of_eq heq.symm, fun _ => heq⟩
        · by_cases hms : ms = []
          · subst hms
            refine ⟨?_, fun hfilled => by simp [notsFilled, isEmptied] at hfilled⟩
            rw [holds_nodeFormula_singleton]
            exact Bool.false_le _
          · have heq : (nodeFormula (.group c.dual i ks)).holds w =
                (nodeFormula (.group .not i [.group c j ms])).holds w := by
              simp [holds_nodeFormula_singleton, holds_nodeFormula_dual hc i j hms hks,
                Connective.combine]
            rw [hp]
            exact ⟨Bool.le_of_eq heq.symm, fun _ => heq⟩
      · rw [Node.pushNegations_group hc, notsFilled_group hc]
        match ns with
        | [] => exact ⟨Bool.le_refl _, fun _ => rfl⟩
        | n :: ns =>
            obtain ⟨hle, heq⟩ := holdsAll_nodeFormulas_pushAll (n :: ns)
            rw [holds_nodeFormula_group c i (List.cons_ne_nil _ _),
              holds_nodeFormula_group c i (by rw [Node.pushAll]; exact List.cons_ne_nil _ _)]
            exact ⟨combine_le hc hle, fun hfilled => by rw [heq hfilled]⟩

lemma holdsAll_nodeFormulas_pushAll : ∀ ns : List Node,
    List.Forall₂ (· ≤ ·) (Formula.holdsAll w (nodeFormulas ns))
        (Formula.holdsAll w (nodeFormulas (Node.pushAll ns))) ∧
      (notsFilledAll ns = true → Formula.holdsAll w (nodeFormulas (Node.pushAll ns)) =
        Formula.holdsAll w (nodeFormulas ns))
  | [] => ⟨.nil, fun _ => rfl⟩
  | n :: ns => by
      obtain ⟨hle, heq⟩ := holds_nodeFormula_pushNegations n
      obtain ⟨hles, heqs⟩ := holdsAll_nodeFormulas_pushAll ns
      refine ⟨.cons hle hles, fun hfilled => ?_⟩
      rw [notsFilledAll, Bool.and_eq_true] at hfilled
      rw [Node.pushAll, nodeFormulas, nodeFormulas, Formula.holdsAll, Formula.holdsAll,
        heq hfilled.1, heqs hfilled.2]

end

/-- The or around a root that is left out of the text makes no difference to what it says. -/
lemma holds_formula_eq (g : Group) : (formula g).holds w = (nodeFormula g.toNode).holds w := by
  have hsingle : ∀ i n, (nodeFormula (.group .or i [n])).holds w = (nodeFormula n).holds w := by
    intro i n
    simp [holds_nodeFormula_singleton, Connective.combine]
  unfold formula outermost
  split
  · exact (hsingle _ _).symm
  · exact (hsingle _ _).symm
  · rfl

/-- What the root of a tree becomes makes no difference to what the text says. -/
lemma holds_formula_pushNegations_eq (g : Group) :
    (formula g.pushNegations).holds w = (nodeFormula g.toNode.pushNegations).holds w := by
  have hindex : ∀ c i j ns,
      (nodeFormula (.group c i ns)).holds w = (nodeFormula (.group c j ns)).holds w := by
    intro c i j ns
    cases ns <;> rfl
  rw [holds_formula_eq]
  unfold Group.pushNegations
  split
  · next r hr =>
    rw [hr, Group.toNode, holds_nodeFormula_singleton]
    simp [Connective.combine]
  · next c i ns hn =>
    rw [hn]
    split_ifs
    · rw [Group.toNode, holds_nodeFormula_singleton, hindex c g.nextIndex i]
      simp [Connective.combine]
    · rfl

/-- **What pushing negations down makes of the text of a tree.** -/
lemma holds_formula_pushNegations (g : Group) :
    (formula g).holds w ≤ (formula g.pushNegations).holds w ∧
      (notsFilled g.toNode = true →
        (formula g.pushNegations).holds w = (formula g).holds w) := by
  rw [holds_formula_eq, holds_formula_pushNegations_eq]
  exact holds_nodeFormula_pushNegations g.toNode

end

/-! ## What is saved -/

lemma rule_common_field : Rule.Common Rule.field := by
  intro r q h
  rcases Rule.flipped?_eq_some_iff.mp h with ⟨-, rfl⟩ | ⟨-, rfl⟩ <;> rfl

lemma rule_common_isChange : Rule.Common fun r => r.operator.isChange := by
  intro r q h
  rcases Rule.flipped?_eq_some_iff.mp h with ⟨hop, rfl⟩ | ⟨hop, rfl⟩ <;>
    simp only [hop, Operator.isChange]

/-- What is true of something that opposite rules have in common stays true. -/
lemma forall_rules_pushNegations {β : Type} {k : Rule → β} (hk : Rule.Common k) {p : β → Prop}
    {g : Group} (h : ∀ r ∈ g.rules, p (k r)) : ∀ r ∈ g.pushNegations.rules, p (k r) := by
  rw [← List.forall_mem_map (f := k) (P := p)] at h ⊢
  rwa [Group.map_rules_pushNegations hk]

/-- **What is saved after negations were pushed down** passes every record that it passed before,
whatever is true of the records.  It passes no other one, as long as no not that could give way
negates a group without children. -/
theorem print_and_print_pushNegations (g : Group) (hnots : g.NotsSingle)
    (hfields : ∀ r ∈ g.rules, IsAttribute r.field)
    (hops : ∀ r ∈ g.rules, r.operator.isChange = false) :
    ∃ u w, print g = .ok u ∧ print g.pushNegations = .ok w ∧
      (nesting u.toList ≤ nestingLimit → nesting w.toList ≤ nestingLimit →
        ∃ t t', parse u = .ok t ∧ parse w = .ok t' ∧
          ∀ v : Comparison × Target → Bool,
            (t.formula.holds (Rule.truth v) = true → t'.formula.holds (Rule.truth v) = true) ∧
              (notsFilled g.toNode = true →
                t'.formula.holds (Rule.truth v) = t.formula.holds (Rule.truth v))) := by
  have hnots' := Group.notsSingle_pushNegations hnots
  obtain ⟨f, hf, -, hn⟩ := exists_form_of_print hnots hfields hops
  obtain ⟨f', hf', -, hn'⟩ := exists_form_of_print hnots'
    (forall_rules_pushNegations rule_common_field hfields)
    (forall_rules_pushNegations (p := (· = false)) rule_common_isChange hops)
  refine ⟨_, _, hf, hf', ?_⟩
  rw [String.toList_ofList, String.toList_ofList]
  intro hlimit hlimit'
  refine ⟨(canonical g).numbered, (canonical g.pushNegations).numbered, ?_, ?_, ?_⟩
  · rw [parse_text, if_pos hlimit, hn]
  · rw [parse_text, if_pos hlimit', hn']
  · intro v
    rw [holds_formula_canonical v hnots, holds_formula_canonical v hnots']
    exact holds_formula_pushNegations g

/-- A not of an and, a not of a comparison that has no opposite, and an or without children. -/
def pushedTree : Group :=
  ⟨.and, 0, [.group .not 1 [.group .and 2 [.rule ⟨.equals, "a", some (.text "1"), 3, .after⟩,
    .rule ⟨.notEquals, "b", none, 4, .after⟩]],
    .group .not 5 [.rule ⟨.startsWith, "c", some (.text "x"), 6, .before⟩], .group .or 7 []]⟩

theorem print_and_print_pushNegations_pushedTree :
    print pushedTree = .ok "(&(!(&(a=1)(!(b=))))(!(c=x*))(&))" ∧
      print pushedTree.pushNegations = .ok "(&(|(!(a=1))(b=))(!(c=x*))(&))" ∧
      ∃ t t', parse "(&(!(&(a=1)(!(b=))))(!(c=x*))(&))" = .ok t ∧
        parse "(&(|(!(a=1))(b=))(!(c=x*))(&))" = .ok t' ∧
        ∀ v : Comparison × Target → Bool,
          t'.formula.holds (Rule.truth v) = t.formula.holds (Rule.truth v) := by
  obtain ⟨u, w, hu, hw, h⟩ := print_and_print_pushNegations pushedTree (by decide) (by decide)
    (by decide)
  obtain rfl : u = "(&(!(&(a=1)(!(b=))))(!(c=x*))(&))" := by
    rw [← Except.ok.injEq, ← hu]
    rfl
  obtain rfl : w = "(&(|(!(a=1))(b=))(!(c=x*))(&))" := by
    rw [← Except.ok.injEq, ← hw]
    rfl
  obtain ⟨t, t', ht, ht', hv⟩ := h (by decide) (by decide)
  exact ⟨hu, hw, t, t', ht, ht', fun v => (hv v).2 (by decide)⟩

/-- A rule, and a not of an or from which every rule was removed. -/
def unfilledTree : Group :=
  ⟨.and, 0, [.rule ⟨.equals, "a", some (.text "1"), 1, .after⟩, .group .not 2 [.group .or 3 []]]⟩

/-- **Otherwise others may pass.**  What is saved of a rule and a not of an or without children
passes no record, and passes the records of the rule after negations were pushed down. -/
theorem not_forall_holds_print_pushNegations :
    ¬ ∀ g : Group, g.NotsSingle → (∀ r ∈ g.rules, IsAttribute r.field) →
      (∀ r ∈ g.rules, r.operator.isChange = false) →
      ∀ (u w : String) (t t' : Group), print g = .ok u → print g.pushNegations = .ok w →
        parse u = .ok t → parse w = .ok t' →
        ∀ v : Comparison × Target → Bool,
          t'.formula.holds (Rule.truth v) = t.formula.holds (Rule.truth v) := by
  intro hall
  have hread : parse "(&(a=1)(!(&)))" = .ok ⟨.and, 0, [.rule ⟨.equals, "a", some (.text "1"), 1,
      .after⟩, .group .not 2 [.group .and 3 []]]⟩ := by decide +kernel
  have hread' : parse "(&(a=1)(&))" = .ok ⟨.and, 0, [.rule ⟨.equals, "a", some (.text "1"), 1,
      .after⟩, .group .and 2 []]⟩ := by decide +kernel
  have h := hall unfilledTree (by decide) (by decide) (by decide) _ _ _ _ rfl rfl hread hread'
    fun _ => true
  revert h
  decide

end Ldap

end AccessFilter
