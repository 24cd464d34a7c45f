import AccessFilter.Governance.Conversion
import Mathlib.Data.List.Forall2
import Mathlib.Tactic.Common

/-!
# Which rules an expression keeps

The expression of a tree tests rules of the tree, in the order of the tree, but not always all of
them.  A group that has nothing left in it disappears, which costs no rule.  A not needs exactly one
operand, and where several of its children have expressions it disappears with all of them.  So the
rules of such a not are lost, without a failure, and the expression passes more records than the
tree asks for; if the not is the root there is no expression at all, as if the tree had no rules.

**Nots.**  A not directly around a comparison comes from a rule that is negated or from a group
around the rule.  To tell what is due to the rule, rules are collected with the group around them in
mind (`flaggedRules`).

* `Expr.tests` — the comparisons in an expression, each with whether a not stands around it.
* `TestedBy` — a comparison says what a rule says.
* `Group.kept` — the rules that are not lost.
* **`tests_toExpr?`** — the expression tests the kept rules, and these are all rules exactly if no
  not has several children with rules.
* **`not_forall_tests_toExpr?`** — a not of two rules, which are lost.
-/

namespace AccessFilter

/-! ## Tests -/

/-- A comparison in an expression, and whether a not stands directly around it. -/
structure Test where
  denied : Bool
  comparison : Comparison
  target : Target
  deriving DecidableEq, Repr

namespace Expr

mutual

/-- The comparisons in an expression that stands directly under a not or does not. -/
def testsUnder (denied : Bool) : Expr → List Test
  | and es => testsEach es
  | or es => testsEach es
  | not e => e.testsUnder true
  | all => []
  | compare c t => [⟨denied, c, t⟩]

/-- The comparisons in several expressions that are joined. -/
def testsEach : List Expr → List Test
  | [] => []
  | e :: es => e.testsUnder false ++ testsEach es

end

/-- **The comparisons in an expression,** in order. -/
def tests (e : Expr) : List Test :=
  e.testsUnder false

end Expr

/-- **A comparison that says what a rule says.**  It compares the field of the rule by the positive
form of the rule's operator with the value of the rule.  A not stands around it exactly if the
operator is negated or the group around the rule is a not, which is what the flag says. -/
structure TestedBy (flagged : Rule × Bool) (t : Test) : Prop where
  comparison : t.comparison.name =
    (flagged.1.operator.positive?.getD flagged.1.operator).name
  field : t.target.name = flagged.1.field
  /-- A test for presence or for a change compares with nothing. -/
  value : t.target.value =
    if flagged.1.operator.takesValue then (flagged.1.value.map Scalar.toJson).getD .null else .null
  denied : t.denied = (flagged.1.operator.isNegated || flagged.2)

/-! ## The rules that are kept -/

/-- What a group keeps, from what each of its children keeps if it keeps anything.  A not of several
such children keeps nothing. -/
def Connective.keep {α : Type} (c : Connective) (kept : List (List α)) : List α :=
  if c = .not ∧ 1 < kept.length then [] else kept.flatten

namespace Node

mutual

/-- The rules at and below a node, each with whether the group around it is a not.  The flag is that
of the group around the node. -/
def flaggedRules (flag : Bool) : Node → List (Rule × Bool)
  | rule r => [(r, flag)]
  | group c _ ns => flaggedRulesAll (c = .not) ns

/-- The same for several nodes. -/
def flaggedRulesAll (flag : Bool) : List Node → List (Rule × Bool)
  | [] => []
  | n :: ns => n.flaggedRules flag ++ flaggedRulesAll flag ns

end

mutual

/-- **The rules at and below a node that are kept.** -/
def kept (flag : Bool) : Node → List (Rule × Bool)
  | rule r => [(r, flag)]
  | group c _ ns => c.keep (keptEach (c = .not) ns)

/-- What is kept of each of several nodes, for those of which anything is kept. -/
def keptEach (flag : Bool) : List Node → List (List (Rule × Bool))
  | [] => []
  | n :: ns =>
    if n.kept flag = [] then keptEach flag ns else n.kept flag :: keptEach flag ns

end

mutual

lemma map_fst_flaggedRules (flag : Bool) : ∀ n : Node,
    (n.flaggedRules flag).map Prod.fst = n.rules
  | rule _ => rfl
  | group c _ ns => map_fst_flaggedRulesAll (c = .not) ns

lemma map_fst_flaggedRulesAll (flag : Bool) : ∀ ns : List Node,
    (flaggedRulesAll flag ns).map Prod.fst = rulesAll ns
  | [] => rfl
  | n :: ns => by
      rw [flaggedRulesAll, rulesAll, List.map_append, map_fst_flaggedRules flag n,
        map_fst_flaggedRulesAll flag ns]

end

/-- There is something to keep where there are rules. -/
lemma flaggedRules_eq_nil_iff {flag : Bool} {n : Node} :
    n.flaggedRules flag = [] ↔ n.rules = [] := by
  rw [← map_fst_flaggedRules flag n, List.map_eq_nil_iff]

variable {flag : Bool}

lemma keptEach_eq_filter (ns : List Node) :
    keptEach flag ns = (ns.map (kept flag)).filter (· ≠ []) := by
  induction ns with
  | nil => rfl
  | cons n ns ih =>
      rw [keptEach, List.map_cons, List.filter_cons, ← ih]
      by_cases hn : n.kept flag = [] <;> simp [hn]

lemma flatten_keptEach_cons (n : Node) (ns : List Node) :
    (keptEach flag (n :: ns)).flatten = n.kept flag ++ (keptEach flag ns).flatten := by
  rw [keptEach]
  split_ifs with hn
  · rw [hn, List.nil_append]
  · exact List.flatten_cons

mutual

lemma kept_sublist (flag : Bool) : ∀ n : Node, (n.kept flag).Sublist (n.flaggedRules flag)
  | rule r => List.Sublist.refl [(r, flag)]
  | group c i ns => by
      rw [kept, Connective.keep, flaggedRules]
      split_ifs
      · exact List.nil_sublist _
      · exact flatten_keptEach_sublist (c = .not) ns

lemma flatten_keptEach_sublist (flag : Bool) : ∀ ns : List Node,
    (keptEach flag ns).flatten.Sublist (flaggedRulesAll flag ns)
  | [] => List.Sublist.refl []
  | n :: ns => by
      rw [flatten_keptEach_cons, flaggedRulesAll]
      exact (kept_sublist flag n).append (flatten_keptEach_sublist flag ns)

end

/-- What several nodes keep is all their rules exactly if that is so for each. -/
lemma flatten_keptEach_eq_iff (ns : List Node) :
    (keptEach flag ns).flatten = flaggedRulesAll flag ns ↔
      ∀ n ∈ ns, n.kept flag = n.flaggedRules flag := by
  induction ns with
  | nil => simp [keptEach, flaggedRulesAll]
  | cons n ns ih =>
      rw [flatten_keptEach_cons, flaggedRulesAll, List.forall_mem_cons, ← ih]
      constructor
      · intro h
        have hlength := congrArg List.length h
        have hn := kept_sublist flag n
        have hns := flatten_keptEach_sublist flag ns
        rw [List.length_append, List.length_append] at hlength
        have hle := hn.length_le
        have hle' := hns.length_le
        exact ⟨hn.eq_of_length (by omega), hns.eq_of_length (by omega)⟩
      · rintro ⟨hn, hns⟩
        rw [hn, hns]

/-- As many nodes keep a rule as have one, if all rules are kept. -/
lemma length_keptEach {ns : List Node} (h : ∀ n ∈ ns, n.kept flag = n.flaggedRules flag) :
    (keptEach flag ns).length = (ns.filter (·.rules ≠ [])).length := by
  rw [keptEach_eq_filter, List.map_congr_left h, List.filter_map, List.length_map]
  simp only [Function.comp_def, ne_eq, flaggedRules_eq_nil_iff]

/-- Several nodes that keep rules have rules. -/
lemma flaggedRulesAll_ne_nil {ns : List Node} (h : keptEach flag ns ≠ []) :
    flaggedRulesAll flag ns ≠ [] := by
  intro hrules
  obtain ⟨rs, hrs⟩ := List.exists_mem_of_ne_nil _ h
  have hne : rs ≠ [] := by
    rw [keptEach_eq_filter] at hrs
    exact of_decide_eq_true (List.mem_filter.mp hrs).2
  have hflat : (keptEach flag ns).flatten = [] :=
    List.sublist_nil.mp (hrules ▸ flatten_keptEach_sublist flag ns)
  exact hne (List.flatten_eq_nil_iff.mp hflat rs hrs)

mutual

/-- **Nothing is lost of a node** exactly if no not has several children with rules. -/
lemma kept_eq_iff (flag : Bool) : ∀ n : Node, n.kept flag = n.flaggedRules flag ↔
    ∀ h ∈ n.groups, h.connective = .not → (h.children.filter (·.rules ≠ [])).length ≤ 1
  | rule r => by simp [kept, flaggedRules, groups]
  | group c i ns => by
      rw [groups, List.forall_mem_cons, ← forall_kept_eq_iff (c = .not) ns, kept,
        Connective.keep, flaggedRules]
      constructor
      · intro h
        split_ifs at h with hlost
        · have hne : keptEach (c = .not) ns ≠ [] := List.ne_nil_of_length_pos (by omega)
          exact absurd h.symm (flaggedRulesAll_ne_nil hne)
        · have hns := (flatten_keptEach_eq_iff ns).mp h
          refine ⟨fun hc => ?_, hns⟩
          rw [← length_keptEach hns]
          exact Nat.not_lt.mp fun hlt => hlost ⟨hc, hlt⟩
      · rintro ⟨hfew, hns⟩
        rw [if_neg, flatten_keptEach_eq_iff]
        · exact hns
        · rw [length_keptEach hns]
          exact fun ⟨hc, hlt⟩ => absurd (hfew hc) (Nat.not_le.mpr hlt)

lemma forall_kept_eq_iff (flag : Bool) : ∀ ns : List Node,
    (∀ n ∈ ns, n.kept flag = n.flaggedRules flag) ↔
      ∀ h ∈ groupsAll ns, h.connective = .not → (h.children.filter (·.rules ≠ [])).length ≤ 1
  | [] => by simp [groupsAll]
  | n :: ns => by
      rw [List.forall_mem_cons, groupsAll, List.forall_mem_append, kept_eq_iff flag n,
        forall_kept_eq_iff flag ns]

end

end Node

namespace Group

/-- The rules of a tree, each with whether the group around it is a not. -/
def flaggedRules (g : Group) : List (Rule × Bool) :=
  g.toNode.flaggedRules false

/-- **The rules of a tree that are kept.** -/
def kept (g : Group) : List (Rule × Bool) :=
  g.toNode.kept false

end Group

/-! ## What the expression tests -/

/-- An expression that tests rules, at least one.  The flag is that of what stands around it. -/
def Expr.Keeps (flag : Bool) (rules : List (Rule × Bool)) (e : Expr) : Prop :=
  rules ≠ [] ∧ List.Forall₂ TestedBy rules (e.testsUnder flag)

lemma Rule.keeps_toExpr (r : Rule) (flag : Bool) : r.toExpr.Keeps flag [(r, flag)] := by
  have hname : (Comparison.ofRule r.operator).name =
      (r.operator.positive?.getD r.operator).name := by
    cases r.operator <;> rfl
  refine ⟨List.cons_ne_nil _ _, ?_⟩
  rw [Rule.toExpr]
  cases hnegated : r.operator.isNegated with
  | true => exact .cons ⟨hname, rfl, rfl, by rw [hnegated, Bool.true_or]⟩ .nil
  | false => exact .cons ⟨hname, rfl, rfl, by rw [hnegated, Bool.false_or]⟩ .nil

lemma forall₂_testsEach {kept : List (List (Rule × Bool))} {es : List Expr}
    (h : List.Forall₂ (fun rs e => e.Keeps false rs) kept es) :
    List.Forall₂ TestedBy kept.flatten (Expr.testsEach es) := by
  induction h with
  | nil => exact .nil
  | cons hkeeps _ ih =>
      rw [List.flatten_cons, Expr.testsEach]
      exact List.rel_append hkeeps.2 ih

/-- What is joined, or is not, of expressions that test some rules each. -/
lemma keeps_join? {c : Connective} {kept : List (List (Rule × Bool))} {es : List Expr}
    (h : List.Forall₂ (fun rs e => e.Keeps (c = .not) rs) kept es) (flag : Bool) :
    (c.join? es = none → c.keep kept = []) ∧
      ∀ e, c.join? es = some e → e.Keeps flag (c.keep kept) := by
  cases h with
  | nil => cases c <;> exact ⟨fun _ => rfl, nofun⟩
  | @cons rs e kept es hkeeps hrest =>
      cases c with
      | and | or =>
          refine ⟨nofun, fun d hd => ?_⟩
          obtain rfl := Option.some.inj hd
          exact ⟨List.append_ne_nil_of_left_ne_nil hkeeps.1 _,
            forall₂_testsEach (.cons hkeeps hrest)⟩
      | not =>
          cases hrest with
          | cons => exact ⟨fun _ => if_pos ⟨rfl, by simp⟩, nofun⟩
          | nil =>
              refine ⟨nofun, fun d hd => ?_⟩
              obtain rfl := Option.some.inj hd
              have hkeep : Connective.not.keep [rs] = rs := List.append_nil rs
              rw [hkeep]
              exact hkeeps

mutual

/-- **A node without an expression keeps no rule, and the expression of any other tests those that
are kept.** -/
lemma Node.keeps_toExpr? (flag : Bool) : ∀ n : Node, (n.toExpr? = none → n.kept flag = []) ∧
    ∀ e, n.toExpr? = some e → e.Keeps flag (n.kept flag)
  | .rule r => by
      refine ⟨nofun, fun e he => ?_⟩
      obtain rfl := Option.some.inj he
      exact r.keeps_toExpr flag
  | .group c _ ns => keeps_join? (Node.keeps_toExprs (c = .not) ns) flag

lemma Node.keeps_toExprs (flag : Bool) : ∀ ns : List Node,
    List.Forall₂ (fun rs e => e.Keeps flag rs) (keptEach flag ns) (toExprs ns)
  | [] => .nil
  | n :: ns => by
      obtain ⟨hnone, hsome⟩ := Node.keeps_toExpr? flag n
      have hns := Node.keeps_toExprs flag ns
      rw [keptEach, toExprs]
      cases hn : n.toExpr? with
      | none =>
          rw [if_pos (hnone hn)]
          exact hns
      | some e =>
          rw [if_neg (hsome e hn).1]
          exact .cons (hsome e hn) hns

end

namespace Group

/-- The comparisons in the expression of a tree, none if there is no expression. -/
def tests (g : Group) : List Test :=
  (g.toExpr?.map Expr.tests).getD []

/-- **What the expression of a tree tests.**  It tests rules of the tree in the order of the tree,
namely the kept ones; and these are all rules if and only if no not in the tree has several children
with rules. -/
theorem tests_toExpr? (g : Group) :
    g.flaggedRules.map Prod.fst = g.rules ∧ g.kept.Sublist g.flaggedRules ∧
      List.Forall₂ TestedBy g.kept g.tests ∧
      (List.Forall₂ TestedBy g.flaggedRules g.tests ↔ ∀ h ∈ g.groups, h.connective = .not →
        (h.children.filter (·.rules ≠ [])).length ≤ 1) := by
  have hsublist : g.kept.Sublist g.flaggedRules := Node.kept_sublist false g.toNode
  have htests : List.Forall₂ TestedBy g.kept g.tests := by
    obtain ⟨hnone, hsome⟩ := Node.keeps_toExpr? false g.toNode
    rw [tests, kept, toExpr?]
    cases he : g.toNode.toExpr? with
    | none =>
        rw [hnone he]
        exact .nil
    | some e => exact (hsome e he).2
  refine ⟨Node.map_fst_flaggedRules false g.toNode, hsublist, htests,
    Iff.trans ?_ (Node.kept_eq_iff false g.toNode)⟩
  change _ ↔ g.kept = g.flaggedRules
  constructor
  · intro hall
    exact hsublist.eq_of_length (htests.length_eq.trans hall.length_eq.symm)
  · intro hkept
    rwa [← hkept]

/-- A not of two rules has no expression. -/
theorem not_forall_tests_toExpr? :
    ¬ ∀ g : Group, List.Forall₂ TestedBy g.flaggedRules g.tests := by
  intro hall
  have hlength := (hall ⟨.not, 0, [.rule ⟨.equals, "a", some (.text "1"), 1, .after⟩,
    .rule ⟨.equals, "b", some (.text "2"), 2, .after⟩]⟩).length_eq
  exact absurd hlength (by decide)

end Group

end AccessFilter
