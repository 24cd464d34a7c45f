import AccessFilter.Governance.Scope
import AccessFilter.Proofs.Governance.Canonical
import AccessFilter.Proofs.Tree.Rules

/-!
# Paths come back as states and fields

A tree is turned into an expression with a path in the place of every field, and comes back with
every path taken apart again.  What a path names is the *place* of its rule, a state and a field;
the rest of the tree comes back as it does without paths.

**Places.**  A path is joined without any escape, but it is also taken apart from the left: the
resource type is known, and the segment of a state has no point in it.  Whatever then follows is the
field, points and all.

**The rest.**  A canonical form is made without a look at places, and keeps the rules in their
order, so the places that come back are those of the tree, one by one.

* `readPath_fieldPath` — a path names the place it was made for.
* `mapRules_canonicalNode`, `map_place_canonicalNode` — canonical forms and places.
* `Scope.exists_toGroup_eq_ok` — an expression on paths is read.
* **`Scope.toGroup_toExpr?`** — a tree with rules comes back, each rule with its place.
-/

namespace AccessFilter

/-- What a path names: the state of the record, and the field. -/
def Rule.place (r : Rule) : Temporal × String :=
  (r.temporal, r.field)

/-- The rule at another place. -/
def Rule.placedAt (r : Rule) (place : Temporal × String) : Rule :=
  { r with temporal := place.1, field := place.2 }

/-- A rule without its place. -/
def Rule.unplaced (r : Rule) : Rule :=
  r.placedAt (.after, "")

namespace Scope

/-- The state that a path carries over; without one in the path it is the state after the change. -/
def carried (s : Scope) (t : Temporal) : Temporal :=
  if s.resourceType.isSome ∧ s.showsTemporal = true then t else .after

lemma point_notMem_segment (t : Temporal) : '.' ∉ t.segment.toList := by
  cases t <;> decide

/-- **A path names the place it was made for,** whatever the resource type and the field are. -/
theorem readPath_fieldPath {s : Scope} {type : String} (hs : s.resourceType = some type)
    (t : Temporal) (field : String) :
    s.readPath type (fieldPath type t field s.showsTemporal) = .ok (s.carried t, field) := by
  cases h : s.showsTemporal with
  | true =>
      have hpath : (fieldPath type t field true).toList =
          type.toList ++ '.' :: (t.segment.toList ++ '.' :: field.toList) := by
        simp [fieldPath]
      simp [readPath, hpath, dropResource_append, splitAtPoint?_append (point_notMem_segment t),
        Temporal.ofSegment?_eq_some_iff.mpr rfl, carried, h, hs]
  | false =>
      have hpath : (fieldPath type t field false).toList = type.toList ++ '.' :: field.toList := by
        simp [fieldPath]
      simp [readPath, hpath, dropResource_append, carried, h]

end Scope

/-! ## Canonical forms and places -/

namespace Governance

lemma mapRules_denial (n : Node) :
    denial (n.mapRules Rule.unplaced) = (denial n).mapRules Rule.unplaced := by
  cases n with
  | group c i ns => rfl
  | rule r =>
      obtain ⟨op, field, v, i, temporal⟩ := r
      cases op <;> rfl

mutual

/-- Places can be forgotten before or after. -/
lemma mapRules_canonicalNode : ∀ n : Node, n.NotsSingle →
    canonicalNode (n.mapRules Rule.unplaced) = (canonicalNode n).mapRules Rule.unplaced
  | .rule r, _ => rfl
  | .group c i ns, h => by
      by_cases hc : c = .not
      · subst hc
        obtain ⟨n, rfl⟩ := List.length_eq_one_iff.mp (h.1 rfl)
        rw [Node.mapRules, Node.mapRulesAll, Node.mapRulesAll, canonicalNode, canonicalNode,
          mapRules_canonicalNode n h.2.1, mapRules_denial]
      · rw [Node.mapRules, canonicalNode_group hc, canonicalNode_group hc, Node.mapRules,
          mapRules_canonicalNodes ns h.2]

lemma mapRules_canonicalNodes : ∀ ns : List Node, Node.NotsSingleAll ns →
    canonicalNodes (Node.mapRulesAll Rule.unplaced ns) =
      Node.mapRulesAll Rule.unplaced (canonicalNodes ns)
  | [], _ => rfl
  | n :: ns, h => by
      simp only [Node.mapRulesAll, canonicalNodes, Node.rules_mapRules, List.map_eq_nil_iff,
        mapRules_canonicalNode n h.1, mapRules_canonicalNodes ns h.2]
      split_ifs <;> rfl

end

lemma map_place_denial (n : Node) : (denial n).rules.map Rule.place = n.rules.map Rule.place := by
  cases n with
  | group c i ns => simp [denial, Node.rules, Node.rulesAll]
  | rule r =>
      obtain ⟨op, field, v, i, temporal⟩ := r
      cases op <;> rfl

mutual

/-- The rules come back in their order, each on its field. -/
lemma map_place_canonicalNode : ∀ n : Node, n.NotsSingle →
    (canonicalNode n).rules.map Rule.place = n.rules.map fun r => (.after, r.field)
  | .rule r, _ => rfl
  | .group c i ns, h => by
      by_cases hc : c = .not
      · subst hc
        obtain ⟨n, rfl⟩ := List.length_eq_one_iff.mp (h.1 rfl)
        rw [canonicalNode, map_place_denial, map_place_canonicalNode n h.2.1, Node.rules,
          Node.rulesAll, Node.rulesAll, List.append_nil]
      · rw [canonicalNode_group hc, Node.rules, Node.rules, map_place_canonicalNodes ns h.2]

lemma map_place_canonicalNodes : ∀ ns : List Node, Node.NotsSingleAll ns →
    (Node.rulesAll (canonicalNodes ns)).map Rule.place =
      (Node.rulesAll ns).map fun r => (.after, r.field)
  | [], _ => rfl
  | n :: ns, h => by
      rw [canonicalNodes, Node.rulesAll, List.map_append, ← map_place_canonicalNodes ns h.2]
      split_ifs with hn
      · rw [hn, List.map_nil, List.nil_append]
      · rw [Node.rulesAll, List.map_append, map_place_canonicalNode n h.1]

end

/-- A tree with rules has an expression, and comes back as its canonical form. -/
lemma exists_toExpr? {g : Group} (hrules : g.rules ≠ []) (hnots : g.NotsSingle) :
    ∃ e, g.toExpr? = some e ∧ Group.ofExpr e = (canonical g).numbered := by
  rw [Group.notsSingle_iff] at hnots
  have hsome : g.toExpr? ≠ none := (toExpr?_eq_none_iff g.toNode hnots).not.mpr hrules
  obtain ⟨e, he⟩ := Option.ne_none_iff_exists'.mp hsome
  exact ⟨e, he, by rw [Group.ofExpr, toNode_of_toExpr?_eq g.toNode hnots he, canonical]⟩

lemma mapRules_canonical {g : Group} (hnots : g.NotsSingle) :
    (canonical g).numbered.mapRules Rule.unplaced =
      (canonical (g.mapRules Rule.unplaced)).numbered := by
  rw [Group.notsSingle_iff] at hnots
  rw [← Group.numbered_mapRules (fun _ _ => rfl), canonical, ← Group.ofNode_mapRules,
    ← mapRules_canonicalNode g.toNode hnots]
  rfl

lemma map_place_canonical {g : Group} (hnots : g.NotsSingle) :
    (canonical g).numbered.rules.map Rule.place = g.rules.map fun r => (.after, r.field) := by
  rw [Group.notsSingle_iff] at hnots
  rw [Group.map_rules_numbered (fun _ _ => rfl), canonical, Group.rules_ofNode,
    map_place_canonicalNode g.toNode hnots]
  rfl

end Governance

namespace Scope

open Governance

/-- The rule with its path in place of the field. -/
def withPath (s : Scope) (type : String) (r : Rule) : Rule :=
  { r with field := fieldPath type r.temporal r.field s.showsTemporal }

/-- The place that the path at a place names; if it names none, the place itself. -/
def located (s : Scope) (type : String) (place : Temporal × String) : Temporal × String :=
  (s.readPath type place.2).toOption.getD place

lemma located_withPath {s : Scope} {type : String} (hs : s.resourceType = some type)
    (t : Temporal) (r : Rule) :
    s.located type (t, (s.withPath type r).field) = (s.carried r.temporal, r.field) := by
  rw [located, withPath, readPath_fieldPath hs]
  rfl

/-- **An expression on paths is read,** and the rules of its tree stand at the places for which the
paths were made. -/
lemma exists_toGroup_eq_ok {s : Scope} {type : String} (hs : s.resourceType = some type) {e : Expr}
    {rs : List Rule} (hpaths : (Group.ofExpr e).rules.map Rule.place =
      rs.map fun r => (.after, (s.withPath type r).field)) :
    ∃ t, s.toGroup e = .ok t ∧
      t.mapRules Rule.unplaced = (Group.ofExpr e).mapRules Rule.unplaced ∧
      t.rules.map Rule.place = rs.map fun r => (s.carried r.temporal, r.field) := by
  have hread : ∀ r ∈ (Group.ofExpr e).rules,
      (s.readPath type r.field).map r.placedAt = .ok (r.placedAt (s.located type r.place)) := by
    intro r hr
    obtain ⟨q, -, hq⟩ := List.mem_map.mp (hpaths ▸ List.mem_map_of_mem hr)
    have hfield : r.field = (s.withPath type q).field := (congrArg Prod.snd hq).symm
    rw [← hq, located_withPath hs, hfield, withPath, readPath_fieldPath hs]
    rfl
  refine ⟨(Group.ofExpr e).mapRules fun r => r.placedAt (s.located type r.place), ?_, ?_, ?_⟩
  · rw [toGroup, hs]
    exact Group.tryRules_eq_ok hread
  · rw [Group.mapRules_mapRules]
    rfl
  · calc ((Group.ofExpr e).mapRules fun r => r.placedAt (s.located type r.place)).rules.map
          Rule.place
        = ((Group.ofExpr e).rules.map Rule.place).map (s.located type) := by
          rw [Group.rules_mapRules, List.map_map, List.map_map]
          rfl
      _ = rs.map fun r => (s.carried r.temporal, r.field) := by
          simp [hpaths, located_withPath hs]

/-- **A tree with rules comes back from its expression with paths,** and no path of that expression
is one that cannot be taken apart.  But for the places of its rules it is the tree that comes back
from its expression without paths.  The places are those of the tree, rule by rule, as far as the
paths carry them. -/
theorem toGroup_toExpr? (s : Scope) {g : Group} (hrules : g.rules ≠ []) (hnots : g.NotsSingle) :
    ∃ e e₀ t, s.toExpr? g = some e ∧ g.toExpr? = some e₀ ∧ s.toGroup e = .ok t ∧
      t.mapRules Rule.unplaced = (Group.ofExpr e₀).mapRules Rule.unplaced ∧
      t.rules.map Rule.place = g.rules.map fun r => (s.carried r.temporal, r.field) := by
  obtain ⟨e₀, he₀, hof₀⟩ := exists_toExpr? hrules hnots
  cases hs : s.resourceType with
  | none =>
      refine ⟨e₀, e₀, Group.ofExpr e₀, ?_, he₀, ?_, rfl, ?_⟩
      · rw [toExpr?, hs]
        exact he₀
      · rw [toGroup, hs]
      · rw [hof₀, map_place_canonical hnots]
        simp [carried, hs]
  | some type =>
      have hrules' : (g.mapRules (s.withPath type)).rules ≠ [] := by
        rw [Group.rules_mapRules]
        exact List.map_eq_nil_iff.not.mpr hrules
      have hnots' := (Group.notsSingle_mapRules (s.withPath type) g).mpr hnots
      obtain ⟨e, he, hof⟩ := exists_toExpr? hrules' hnots'
      have hpaths : (Group.ofExpr e).rules.map Rule.place =
          g.rules.map fun r => (.after, (s.withPath type r).field) := by
        rw [hof, map_place_canonical hnots', Group.rules_mapRules, List.map_map]
        rfl
      obtain ⟨t, ht, hrest, hplaces⟩ := exists_toGroup_eq_ok hs hpaths
      have hforget : (g.mapRules (s.withPath type)).mapRules Rule.unplaced =
          g.mapRules Rule.unplaced := by
        rw [Group.mapRules_mapRules]
        rfl
      refine ⟨e, e₀, t, ?_, he₀, ht, ?_, hplaces⟩
      · rw [toExpr?, hs]
        exact he
      · rw [hrest, hof, mapRules_canonical hnots', hforget, ← mapRules_canonical hnots, ← hof₀]

/-- Fields that are empty, begin like a path or hold the name of a state, next to a group without
rules. -/
def pointedTree : Group :=
  ⟨.not, 3, [.group .or 1 [.rule ⟨.equals, "", some (.text "x"), 5, .before⟩,
    .group .not 2 [.rule ⟨.contains, "a.before.b", none, 4, .after⟩], .group .and 6 [],
    .rule ⟨.exists, ".before.", none, 0, .before⟩]]⟩

theorem toGroup_toExpr?_pointedTree :
    pointedTree.rules ≠ [] ∧ pointedTree.NotsSingle ∧
      ∃ e t, Scope.toExpr? ⟨some "a.before", true⟩ pointedTree = some e ∧
        Scope.toGroup ⟨some "a.before", true⟩ e = .ok t ∧
        t.rules.map Rule.place =
          [(.before, ""), (.after, "a.before.b"), (.before, ".before.")] := by
  have hrules : pointedTree.rules ≠ [] := by decide
  have hnots : pointedTree.NotsSingle := by decide
  obtain ⟨e, -, t, he, -, ht, -, hplaces⟩ :=
    toGroup_toExpr? ⟨some "a.before", true⟩ hrules hnots
  exact ⟨hrules, hnots, e, t, he, ht, hplaces⟩

end Scope

end AccessFilter
