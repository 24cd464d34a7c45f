import AccessFilter.Proofs.Ldap.Cycle
import AccessFilter.Proofs.Tree.Edit
import AccessFilter.Proofs.Tree.Negation
import AccessFilter.Proofs.Tree.Rules
import AccessFilter.Governance.Scope
import AccessFilter.Tree.Session

/-!
# A not keeps its one child

The readers build trees whose root is an and or an or and in which every not has exactly one child,
and no session takes the second property away, whatever its edits are and however stale their paths.
The first one is the readers' own: an edit may well make a not of the root.

**Readers.**  A not is only ever put around one node, and changing rules or indices afterwards moves
no child.

**Edits.**  `notsSingle_edit` says for all edits at a path what has to be checked of the one group
that changes.  A not refuses to take or to give a child, and only a group of one child becomes a
not.  Pushing negations down leaves no nots behind that were not there before.

* `Group.notsSingle_apply` — what one edit keeps.
* `Group.notsSingle_run` — what a session keeps.
* **`Group.notsSingle_readers_and_run`** — the readers and the sessions together.
-/

namespace AccessFilter

/-! ## Readers -/

lemma Node.notsSingle_negation {n : Node} (h : n.NotsSingle) : n.negation.NotsSingle := by
  have hnot : (Node.group .not 0 [n]).NotsSingle := ⟨fun _ => rfl, h, trivial⟩
  cases n with
  | group c i ns => exact hnot
  | rule r =>
      rw [negation]
      split
      · trivial
      · exact hnot

lemma Comparison.notsSingle_toNode (c : Comparison) (t : Target) : (c.toNode t).NotsSingle := by
  rw [toNode]
  split
  · trivial
  · refine ⟨by simp, Node.notsSingleAll_iff_forall.mpr ?_⟩
    intro n hn
    obtain ⟨v, -, rfl⟩ := List.mem_map.mp hn
    trivial

mutual

/-- **The nots of an expression's node negate one node.** -/
lemma Expr.notsSingle_toNode : ∀ e : Expr, e.toNode.NotsSingle
  | .and es | .or es => by
      rw [Expr.toNode]
      exact ⟨nofun, Expr.notsSingleAll_toNodes es⟩
  | .not e => by
      rw [Expr.toNode]
      exact Node.notsSingle_negation (Expr.notsSingle_toNode e)
  | .all => ⟨nofun, trivial⟩
  | .compare c t => c.notsSingle_toNode t

lemma Expr.notsSingleAll_toNodes : ∀ es : List Expr, Node.NotsSingleAll (Expr.toNodes es)
  | [] => trivial
  | e :: es => ⟨Expr.notsSingle_toNode e, Expr.notsSingleAll_toNodes es⟩

end

namespace Group

/-- A tree as the readers build it: the root joins its children by and or or, and every not in the
tree has exactly one child. -/
structure Rooted (g : Group) : Prop where
  joins : g.connective ≠ .not
  notsSingle : g.NotsSingle

lemma connective_ofNode (n : Node) : (ofNode n).connective ≠ .not := by
  cases n with
  | rule r => simp [ofNode, make]
  | group c i ns => cases c <;> simp [ofNode, make]

/-- What the readers do last: they put the node under a root and number the tree. -/
lemma rooted_numbered_ofNode {n : Node} (h : n.NotsSingle) : (ofNode n).numbered.Rooted :=
  ⟨connective_ofNode n, (notsSingle_numbered _).mpr (Ldap.notsSingle_ofNode h)⟩

lemma rooted_parse {s : String} {t : Group} (h : Ldap.parse s = .ok t) : t.Rooted := by
  obtain ⟨f, -, -, rfl⟩ := Ldap.exists_form_of_parse_eq h
  exact rooted_numbered_ofNode (Ldap.notsSingle_node f)

lemma rooted_ofExpr (e : Expr) : (ofExpr e).Rooted :=
  rooted_numbered_ofNode e.notsSingle_toNode

lemma rooted_tryRules {ε : Type} {f : Rule → Except ε Rule} {g t : Group} (hg : g.Rooted)
    (h : g.tryRules f = .ok t) : t.Rooted := by
  obtain rfl := eq_mapRules_of_tryRules_eq h
  exact ⟨hg.joins, (notsSingle_mapRules _ g).mpr hg.notsSingle⟩

lemma rooted_toGroup {s : Scope} {e : Expr} {t : Group} (h : s.toGroup e = .ok t) : t.Rooted := by
  rw [Scope.toGroup] at h
  split at h
  · obtain rfl := Except.ok.inj h
    exact rooted_ofExpr e
  · exact rooted_tryRules (rooted_ofExpr e) h

/-! ## Edits at a path -/

/-- **Only the group that changes has to be checked.** -/
lemma notsSingle_edit {change : Group → Option Group}
    (hchange : ∀ g h, change g = some h → g.NotsSingle → h.NotsSingle) {g : Group}
    (path : List Nat) (hg : g.NotsSingle) : (g.edit path change).NotsSingle := by
  refine edit_induction (motive := fun g h => g.NotsSingle → h.NotsSingle)
    (fun _ => id) hchange ?_ g path hg
  intro g i child h hi ih hg
  have hchild := ((notsSingle_iff_forall g).mp hg).2 _ (List.mem_of_getElem? hi)
  exact notsSingle_set hg ((notsSingle_iff h).mp (ih ((notsSingle_iff child).mpr hchild))) i

lemma notsSingle_newNode (rule : Option Rule) (asGroup : Bool) (start : Nat) :
    (newNode rule asGroup start).NotsSingle := by
  cases asGroup with
  | false => trivial
  | true => exact ⟨nofun, trivial, trivial⟩

lemma notsSingle_addRule {g : Group} (hg : g.NotsSingle) (path : List Nat) (rule : Option Rule)
    (asGroup : Bool) : (g.addRule path rule asGroup).NotsSingle := by
  refine notsSingle_edit ?_ path hg
  intro g h hadd hg
  obtain ⟨hopen, rfl⟩ := addChild_eq_some_iff.mp hadd
  rw [notsSingle_iff_forall] at hg ⊢
  refine ⟨fun hc => by simp [hopen hc], ?_⟩
  intro n hn
  rcases List.mem_append.mp hn with hn | hn
  · exact hg.2 n hn
  · rw [List.mem_singleton.mp hn]
    exact notsSingle_newNode rule asGroup _

lemma notsSingle_removeChild {g : Group} (hg : g.NotsSingle) (path : List Nat) (position : Nat) :
    (g.removeChild path position).NotsSingle := by
  refine notsSingle_edit ?_ path hg
  intro g h herase hg
  obtain ⟨hnot, -, rfl⟩ := eraseChild_eq_some_iff.mp herase
  rw [notsSingle_iff_forall] at hg ⊢
  exact ⟨fun hc => absurd hc hnot, fun n hn => hg.2 n (List.mem_of_mem_eraseIdx hn)⟩

lemma notsSingle_setConnective {g : Group} (hg : g.NotsSingle) (path : List Nat)
    (connective : Connective) : (g.setConnective path connective).NotsSingle := by
  refine notsSingle_edit ?_ path hg
  intro g h hset hg
  obtain ⟨hone, rfl⟩ := withConnective_eq_some_iff.mp hset
  rw [notsSingle_iff_forall] at hg ⊢
  exact ⟨hone, hg.2⟩

lemma notsSingle_changeRule {g : Group} (hg : g.NotsSingle) (path : List Nat) (position : Nat)
    (change : RuleChange) : (g.changeRule path position change).NotsSingle := by
  refine notsSingle_edit ?_ path hg
  intro g h hset hg
  obtain ⟨r, -, rfl⟩ := changeChild_eq_some_iff.mp hset
  have hrule : (Node.rule (change.apply r)).NotsSingle := trivial
  exact notsSingle_set hg hrule position

/-! ## Pushing negations down -/

end Group

namespace Node

/-- Opposites are rules, so a group of them has no nots in it. -/
lemma notsSingle_dual {c : Connective} (hc : c ≠ .not) (i : Nat) {ns ms : List Node}
    (h : List.Forall₂ Opposite ns ms) : (group c.dual i ms).NotsSingle := by
  refine ⟨fun hd => absurd hd (Connective.dual_ne_not hc), ?_⟩
  induction h with
  | nil => trivial
  | cons hn _ ih =>
      cases hn
      exact ⟨trivial, ih⟩

mutual

lemma notsSingle_pushNegations : ∀ n : Node, n.NotsSingle → n.pushNegations.NotsSingle
  | rule r, _ => trivial
  | group c i ns, h => by
      by_cases hc : c = .not
      · subst hc
        rcases pushNegations_not i ns with hp | ⟨n, m, rfl, hm, hp⟩ |
          ⟨c, j, ms, ks, hc, rfl, hk, hp⟩
        · rwa [hp]
        · rw [hp]
          cases hm
          trivial
        · rw [hp]
          exact notsSingle_dual hc i hk
      · rw [pushNegations_group hc]
        exact ⟨fun h => absurd h hc, notsSingleAll_pushAll ns h.2⟩

lemma notsSingleAll_pushAll : ∀ ns : List Node, NotsSingleAll ns → NotsSingleAll (pushAll ns)
  | [], _ => trivial
  | n :: ns, h => ⟨notsSingle_pushNegations n h.1, notsSingleAll_pushAll ns h.2⟩

end

end Node

namespace Group

lemma notsSingle_pushNegations {g : Group} (hg : g.NotsSingle) : g.pushNegations.NotsSingle := by
  rcases g.pushNegations_cases with ⟨hc, hp⟩ | ⟨-, hp | ⟨n, m, -, hm, hp⟩ |
    ⟨c, j, ms, ks, hc, -, hk, hp⟩⟩
  · rw [hp, notsSingle_iff]
    exact ⟨fun h => absurd h hc, Node.notsSingleAll_pushAll _ ((notsSingle_iff g).mp hg).2⟩
  · rwa [hp]
  · rw [hp, notsSingle_iff]
    cases hm
    exact ⟨nofun, trivial, trivial⟩
  · rw [hp, notsSingle_iff]
    exact ⟨nofun, Node.notsSingle_dual hc _ hk, trivial⟩

/-! ## Sessions -/

/-- **What an edit keeps.** -/
theorem notsSingle_apply {g : Group} (hg : g.NotsSingle) (e : Edit) : (g.apply e).NotsSingle := by
  cases e with
  | addRule path rule asGroup => exact notsSingle_addRule hg path rule asGroup
  | removeChild path position => exact notsSingle_removeChild hg path position
  | setConnective path connective => exact notsSingle_setConnective hg path connective
  | changeRule path position change => exact notsSingle_changeRule hg path position change
  | select path position field raw resolver => exact notsSingle_changeRule hg path position _
  | pushNegations => exact notsSingle_pushNegations hg

/-- **What a session keeps.** -/
theorem notsSingle_run {g : Group} (hg : g.NotsSingle) (edits : List Edit) :
    (g.run edits).NotsSingle := by
  induction edits generalizing g with
  | nil => exact hg
  | cons e edits ih => exact ih (notsSingle_apply hg e)

/-- **Nots keep their one child.**  Every tree that is read, from a filter text, from an expression
or from an expression with paths, has an and or an or as its root and exactly one child in every
not; and a session that starts from a tree with one child in every not ends in such a tree. -/
theorem notsSingle_readers_and_run :
    (∀ (s : String) (t : Group), Ldap.parse s = .ok t → t.Rooted) ∧
      (∀ e : Expr, (ofExpr e).Rooted) ∧
      (∀ (s : Scope) (e : Expr) (t : Group), s.toGroup e = .ok t → t.Rooted) ∧
      ∀ (g : Group) (edits : List Edit), g.NotsSingle → (g.run edits).NotsSingle := by
  refine ⟨?_, rooted_ofExpr, ?_, ?_⟩
  · intro s t h
    exact rooted_parse h
  · intro s e t h
    exact rooted_toGroup h
  · intro g edits h
    exact notsSingle_run h edits

/-- A not of an and, in which there is another not. -/
def deniedTree : Group :=
  ⟨.or, 0, [.group .not 1 [.group .and 2 [.rule ⟨.equals, "a", some (.text "1"), 3, .after⟩,
    .group .not 4 [.rule ⟨.greaterOrEqual, "b", some (.text "2"), 5, .after⟩]]]]⟩

/-- Edits that try to give a not a second child and to take its only one, that make a not of groups
with one child and with several, and whose paths lead nowhere in the end. -/
def denyingEdits : List Edit :=
  [.addRule [0] none true, .removeChild [0, 0, 1] 0, .setConnective [0, 0] .not,
    .setConnective [0, 0, 1] .or, .addRule [0, 0, 1] none true, .removeChild [0, 0, 1] 0,
    .setConnective [0, 0, 1] .not, .setConnective [] .not, .removeChild [0, 0, 0] 1,
    .setConnective [0, 0] .or, .pushNegations, .addRule [0, 7] none false]

theorem notsSingle_readers_and_run_deniedTree :
    Ldap.parse "(!(&(a=1)(!(b>=2))))" = .ok deniedTree ∧ deniedTree.Rooted ∧
      (Scope.toGroup ⟨some "user", false⟩ (.not (.equals "user.a" (.string "1"))) =
        .ok ⟨.or, 0, [.rule ⟨.notEquals, "a", some (.text "1"), 1, .after⟩]⟩) ∧
      Group.Rooted ⟨.or, 0, [.rule ⟨.notEquals, "a", some (.text "1"), 1, .after⟩]⟩ ∧
      (deniedTree.run denyingEdits).NotsSingle := by
  have hparse : Ldap.parse "(!(&(a=1)(!(b>=2))))" = .ok deniedTree := by decide +kernel
  have htoGroup : Scope.toGroup ⟨some "user", false⟩ (.not (.equals "user.a" (.string "1"))) =
      .ok ⟨.or, 0, [.rule ⟨.notEquals, "a", some (.text "1"), 1, .after⟩]⟩ := by rfl
  obtain ⟨hread, -, hscope, hrun⟩ := notsSingle_readers_and_run
  have hroot := hread _ _ hparse
  exact ⟨hparse, hroot, htoGroup, hscope _ _ _ htoGroup, hrun _ denyingEdits hroot.notsSingle⟩

end Group

end AccessFilter
