import AccessFilter.Proofs.Tree.Frame

/-!
# Edits that do not meet can change places

An editor may send two edits in either order.  A change of a rule can change places with every
addition, every change of a connective and every change of another rule, at any path; two additions
to different groups can change places but for the indices, which are given out in the order of the
edits.

**Children that are exchanged.**  An edit below a group exchanges one child of it for another node.
`Passes` says that a change of the group and such an exchange do not meet, and `edit_nil_comm` that
they can change places then.  The rest is a walk down the two paths until they part (`edit_comm`).

**Indices.**  The next free index is looked up in the whole tree.  A change of a rule leaves it as
it is (`nextIndex_changeRule`), and clearing the indices leaves nothing of it (`cleared_addRule`).

* `edit_comm` — edits at two groups.
* `edit_changeRule_comm` — a change of a rule and an edit at any path.
* **`edits_commute`** — the edits that can change places.
-/

namespace AccessFilter

lemma Node.maxIndexAll_set {m : Node} : ∀ {ns : List Node} {i : Nat} {n : Node},
    ns[i]? = some n → m.maxIndex = n.maxIndex → maxIndexAll (ns.set i m) = maxIndexAll ns
  | [], _, _, h, _ => by cases h
  | n :: ns, 0, _, h, hm => by
      obtain rfl := Option.some.inj h
      rw [List.set_cons_zero, maxIndexAll, maxIndexAll, hm]
  | n :: ns, i + 1, _, h, hm => by
      have hrest : maxIndexAll (ns.set i m) = maxIndexAll ns := maxIndexAll_set h hm
      rw [List.set_cons_succ, maxIndexAll, maxIndexAll, hrest]

namespace Group

/-! ## Children that are exchanged -/

/-- A change of a group that comes to the same before and after a child `n` is exchanged for `m`,
and that leaves the child in its place. -/
def Passes (change : Group → Option Group) (i : Nat) (n m : Node) : Prop :=
  ∀ g : Group, g.children[i]? = some n →
    (change { g with children := g.children.set i m } =
      (change g).map fun h => { h with children := h.children.set i m }) ∧
    ∀ h, change g = some h → h.children[i]? = some n

lemma passes_addChild (node : Node) (i : Nat) (n m : Node) : Passes (addChild node) i n m := by
  intro g hi
  have hlt : i < g.children.length := (List.getElem?_eq_some_iff.mp hi).1
  constructor
  · simp only [addChild, ne_eq, List.set_eq_nil_iff]
    split_ifs
    · rfl
    · rw [Option.map_some, List.set_append_left _ _ hlt]
  · intro h hadd
    obtain ⟨-, rfl⟩ := addChild_eq_some_iff.mp hadd
    rw [List.getElem?_append_left hlt, hi]

lemma passes_withConnective (c : Connective) (i : Nat) (n m : Node) :
    Passes (withConnective c) i n m := by
  intro g hi
  constructor
  · simp only [withConnective, List.length_set]
    split_ifs <;> rfl
  · intro h hset
    obtain ⟨-, rfl⟩ := withConnective_eq_some_iff.mp hset
    exact hi

lemma passes_changeChild {position i : Nat} (hne : position ≠ i) (change : RuleChange)
    (n m : Node) : Passes (changeChild position change) i n m := by
  intro g hi
  constructor
  · simp only [changeChild, List.getElem?_set_ne hne.symm]
    split
    · rw [Option.map_some, List.set_comm _ _ hne]
    · rfl
  · intro h hset
    obtain ⟨r, -, rfl⟩ := changeChild_eq_some_iff.mp hset
    rw [List.getElem?_set_ne hne, hi]

/-- A change of a group that does not look into the groups below it. -/
def PassesGroups (change : Group → Option Group) : Prop :=
  ∀ (i : Nat) (child inner : Group), Passes change i child.toNode inner.toNode

/-- A group is no rule to change. -/
lemma changeChild_of_group {position : Nat} {g child : Group}
    (hi : g.children[position]? = some child.toNode) (change : RuleChange) :
    changeChild position change g = none := by
  rw [changeChild, hi]
  rfl

lemma passesGroups_changeChild (position : Nat) (change : RuleChange) :
    PassesGroups (changeChild position change) := by
  intro i child inner
  by_cases hne : position = i
  · intro g hi
    subst hne
    have hlt := (List.getElem?_eq_some_iff.mp hi).1
    rw [changeChild_of_group hi, changeChild_of_group (List.getElem?_set_self hlt)]
    exact ⟨rfl, nofun⟩
  · exact passes_changeChild hne change _ _

/-- **A change of a group and an exchange of a child that do not meet can change places.** -/
lemma edit_nil_comm {change : Group → Option Group} {i : Nat} {n m : Node}
    (hpasses : Passes change i n m) {e : Group → Group}
    (he : ∀ g : Group, g.children[i]? = some n → e g = { g with children := g.children.set i m })
    {g : Group} (hi : g.children[i]? = some n) : (e g).edit [] change = e (g.edit [] change) := by
  obtain ⟨hset, hkept⟩ := hpasses g hi
  rw [he g hi, edit, edit, editAt?, editAt?, hset]
  cases hchange : change g with
  | none => exact (he g hi).symm
  | some h => exact (he h (hkept h hchange)).symm

/-! ## Two edits at groups -/

lemma edit_cons {change : Group → Option Group} {g k : Group} {i : Nat}
    (hi : g.children[i]? = some k.toNode) (path : List Nat) : g.edit (i :: path) change =
      { g with children := g.children.set i (k.edit path change).toNode } := by
  rw [edit, edit, editAt?_cons hi]
  cases editAt? change k path with
  | some inner => rfl
  | none =>
      obtain ⟨hlt, hchild⟩ := List.getElem?_eq_some_iff.mp hi
      rw [Option.map_none, Option.getD_none, Option.getD_none, ← hchild, List.set_getElem_self]

/-- An edit of a group and one below it. -/
lemma edit_nil_comm_edit_cons {change change' : Group → Option Group}
    (hpasses : PassesGroups change) {g child : Group} {i : Nat}
    (hi : g.children[i]? = some child.toNode) (path : List Nat) :
    (g.edit (i :: path) change').edit [] change = (g.edit [] change).edit (i :: path) change' :=
  edit_nil_comm (e := fun g => g.edit (i :: path) change') (hpasses i child _)
    (fun _ hi => edit_cons hi path) hi

/-- **Two edits at groups can change places** if neither looks into the groups below its own, and if
they do so where they are at the same group. -/
lemma edit_comm {change change' : Group → Option Group} (hpasses : PassesGroups change)
    (hpasses' : PassesGroups change') : ∀ {p q : List Nat} {g h k : Group},
    g.nodeAt? p = some h.toNode → g.nodeAt? q = some k.toNode →
    (p = q → (h.edit [] change).edit [] change' = (h.edit [] change').edit [] change) →
    (g.edit p change).edit q change' = (g.edit q change').edit p change
  | [], [], g, h, k, hp, _, hsame => by
      obtain rfl : g = h := toNode_injective (Option.some.inj hp)
      exact hsame rfl
  | [], j :: q, g, h, k, _, hq, _ => by
      obtain ⟨child, hj, -⟩ := exists_child_of_nodeAt?_eq hq
      exact (edit_nil_comm_edit_cons hpasses hj q).symm
  | i :: p, [], g, h, k, hp, _, _ => by
      obtain ⟨child, hi, -⟩ := exists_child_of_nodeAt?_eq hp
      exact edit_nil_comm_edit_cons hpasses' hi p
  | i :: p, j :: q, g, h, k, hp, hq, hsame => by
      obtain ⟨child, hi, hchild⟩ := exists_child_of_nodeAt?_eq hp
      obtain ⟨child', hj, hchild'⟩ := exists_child_of_nodeAt?_eq hq
      have hlt : i < g.children.length := (List.getElem?_eq_some_iff.mp hi).1
      have hlt' : j < g.children.length := (List.getElem?_eq_some_iff.mp hj).1
      rw [edit_cons hi, edit_cons hj]
      by_cases hij : i = j
      · subst hij
        obtain rfl : child = child' := toNode_injective (Option.some.inj (hi.symm.trans hj))
        have ih := edit_comm hpasses hpasses' hchild hchild' fun hpq => hsame (by rw [hpq])
        rw [edit_cons (List.getElem?_set_self hlt), edit_cons (List.getElem?_set_self hlt), ih,
          List.set_set, List.set_set]
      · have hi' := List.getElem?_set_ne (l := g.children) (a := (child'.edit q change').toNode)
          (Ne.symm hij)
        have hj' := List.getElem?_set_ne (l := g.children) (a := (child.edit p change).toNode) hij
        rw [hi] at hi'
        rw [hj] at hj'
        rw [edit_cons hj', edit_cons hi', List.set_comm _ _ hij]

/-! ## A change of a rule and another edit -/

/-- A change of a rule leads no path to a group or away from one. -/
lemma at?_changeRule_eq_none {g : Group} {q : List Nat} (hq : g.at? q = none) (p : List Nat)
    (i : Nat) (change : RuleChange) : (g.changeRule p i change).at? q = none := by
  refine edit_induction (motive := fun g h => ∀ q, g.at? q = none → h.at? q = none)
    (fun _ _ => id) ?_ ?_ g p q hq
  · intro g h hset q hq
    obtain ⟨r, hr, rfl⟩ := changeChild_eq_some_iff.mp hset
    have hlt : i < g.children.length := (List.getElem?_eq_some_iff.mp hr).1
    cases q with
    | nil => cases hq
    | cons j q =>
        rw [at?]
        by_cases hj : j = i
        · rw [hj, List.getElem?_set_self hlt]
        · rw [List.getElem?_set_ne (Ne.symm hj)]
          exact hq
  · intro g k child h hk ih q hq
    have hlt : k < g.children.length := (List.getElem?_eq_some_iff.mp hk).1
    cases q with
    | nil => cases hq
    | cons j q =>
        rw [at?] at hq ⊢
        by_cases hj : j = k
        · rw [hj, hk] at hq
          rw [hj, List.getElem?_set_self hlt]
          exact ih q hq
        · rw [List.getElem?_set_ne (Ne.symm hj)]
          exact hq

/-- **A change of a rule and an edit at any path can change places,** if the edit does not look into
the groups below its own, nor at the rule. -/
lemma edit_changeRule_comm {edited : Group → Option Group} (hpasses : PassesGroups edited)
    {g h : Group} {p : List Nat} {i : Nat} {r : Rule} (hp : g.nodeAt? p = some h.toNode)
    (hr : h.children[i]? = some (.rule r)) (change : RuleChange) {q : List Nat}
    (hrule : q = p → Passes edited i (.rule r) (.rule (change.apply r))) :
    (g.changeRule p i change).edit q edited = (g.edit q edited).changeRule p i change := by
  cases hq : g.at? q with
  | none =>
      rw [edit_of_at?_eq_none _ _ _ hq,
        edit_of_at?_eq_none _ _ _ (at?_changeRule_eq_none hq p i change)]
  | some k =>
      refine edit_comm (passesGroups_changeChild i change) hpasses hp (at?_eq_some_iff.mp hq) ?_
      intro hpq
      refine edit_nil_comm (e := fun g => g.edit [] (changeChild i change))
        (hrule hpq.symm) ?_ hr
      intro g hr
      rw [edit, editAt?, changeChild, hr]
      rfl

/-! ## Indices -/

/-- A change of a rule leaves the next free index as it is. -/
lemma nextIndex_changeRule (g : Group) (p : List Nat) (i : Nat) (change : RuleChange) :
    (g.changeRule p i change).nextIndex = g.nextIndex := by
  have hmax : (g.changeRule p i change).maxIndex = g.maxIndex := by
    refine edit_induction (motive := fun g h => h.maxIndex = g.maxIndex) (fun _ => rfl) ?_ ?_ g p
    · intro g h hset
      obtain ⟨r, hr, rfl⟩ := changeChild_eq_some_iff.mp hset
      have hset := Node.maxIndexAll_set (m := .rule (change.apply r)) hr rfl
      exact congrArg (max g.index) hset
    · intro g k child h hk ih
      exact congrArg (max g.index) (Node.maxIndexAll_set hk ih)
  rw [nextIndex, nextIndex, hmax]

/-- An edit can be made after the indices are cleared. -/
lemma cleared_edit {change change' : Group → Option Group}
    (hchange : ∀ g : Group, change' g.cleared = (change g).map cleared) : ∀ (path : List Nat)
    (g : Group), (g.edit path change).cleared = g.cleared.edit path change'
  | [], g => by
      rw [edit, edit, editAt?, editAt?, hchange]
      cases change g <;> rfl
  | i :: path, g => by
      have hchildren : g.cleared.children[i]? = g.children[i]?.map Node.cleared := by
        rw [cleared, Node.clearedAll_eq_map, List.getElem?_map]
      cases hi : g.children[i]? with
      | none =>
          rw [hi, Option.map_none] at hchildren
          rw [edit, edit, editAt?, editAt?, hi, hchildren]
          rfl
      | some n =>
          rw [hi, Option.map_some] at hchildren
          cases n with
          | rule r =>
              rw [edit, edit, editAt?, editAt?, hi, hchildren]
              rfl
          | group c j ns =>
              rw [edit_cons (k := ⟨c, j, ns⟩) hi,
                edit_cons (k := Group.cleared ⟨c, j, ns⟩) hchildren,
                ← cleared_edit hchange path, cleared, Node.clearedAll_eq_map, List.map_set,
                ← Node.clearedAll_eq_map]
              rfl

/-- **Without its indices a tree with a new node** does not show which index the node got. -/
lemma cleared_addRule (g : Group) (path : List Nat) (rule : Option Rule) (asGroup : Bool) :
    (g.addRule path rule asGroup).cleared =
      g.cleared.edit path (addChild (newNode rule asGroup 0).cleared) := by
  refine cleared_edit ?_ path g
  intro h
  have hnew : (newNode rule asGroup g.nextIndex).cleared = (newNode rule asGroup 0).cleared := by
    cases asGroup <;> rfl
  have hchildren : h.cleared.children = h.children.map Node.cleared := Node.clearedAll_eq_map _
  have hconnective : h.cleared.connective = h.connective := rfl
  simp only [addChild, ne_eq, hchildren, hconnective, List.map_eq_nil_iff]
  split_ifs
  · rfl
  · rw [Option.map_some, ← hnew]
    simp only [cleared, Node.clearedAll_eq_map, List.map_append, List.map_cons, List.map_nil]

/-! ## The edits -/

lemma passesGroups_addChild (node : Node) : PassesGroups (addChild node) :=
  fun i child inner => passes_addChild node i child.toNode inner.toNode

lemma passesGroups_withConnective (c : Connective) : PassesGroups (withConnective c) :=
  fun i child inner => passes_withConnective c i child.toNode inner.toNode

/-- A rule stands in a group. -/
lemma exists_group_of_nodeAt?_eq {r : Rule} {i : Nat} : ∀ {p : List Nat} {g : Group},
    g.nodeAt? (p ++ [i]) = some (.rule r) →
      ∃ h : Group, g.nodeAt? p = some h.toNode ∧ h.children[i]? = some (.rule r)
  | [], g, hat => ⟨g, rfl, (g.nodeAt?_singleton i).symm.trans hat⟩
  | k :: p, g, hat => by
      obtain ⟨n, hk, hn⟩ := Option.bind_eq_some_iff.mp hat
      cases n with
      | rule q => cases p <;> cases hn
      | group c j ns =>
          obtain ⟨h, hh, hi⟩ := exists_group_of_nodeAt?_eq (g := ⟨c, j, ns⟩) hn
          exact ⟨h, (nodeAt?_cons_of_getElem? (k := ⟨c, j, ns⟩) hk p).trans hh, hi⟩

/-- A path leads to the same group without the indices. -/
lemma nodeAt?_cleared {h : Group} : ∀ {p : List Nat} {g : Group},
    g.nodeAt? p = some h.toNode → g.cleared.nodeAt? p = some h.cleared.toNode
  | [], g, hat => by
      obtain rfl : g = h := toNode_injective (Option.some.inj hat)
      rfl
  | k :: p, g, hat => by
      obtain ⟨child, hk, hchild⟩ := exists_child_of_nodeAt?_eq hat
      have hcleared : g.cleared.children[k]? = some child.cleared.toNode := by
        rw [cleared, Node.clearedAll_eq_map, List.getElem?_map, hk]
        rfl
      rw [nodeAt?_cons_of_getElem? hcleared]
      exact nodeAt?_cleared hchild

/-- **Edits that can change places.**  A change of a rule can do so with an addition, with a change
of a connective and with a change of a rule at another position, whether their paths lead to a group
or not; and so can two additions to different groups, up to the indices of the new nodes. -/
theorem edits_commute (g : Group) :
    (∀ p i r change, g.nodeAt? (p ++ [i]) = some (.rule r) →
      (∀ q rule asGroup, (g.changeRule p i change).addRule q rule asGroup =
        (g.addRule q rule asGroup).changeRule p i change) ∧
      (∀ q connective, (g.changeRule p i change).setConnective q connective =
        (g.setConnective q connective).changeRule p i change) ∧
      ∀ q j change', (q, j) ≠ (p, i) → (g.changeRule p i change).changeRule q j change' =
        (g.changeRule q j change').changeRule p i change) ∧
    ∀ (p q : List Nat) (h k : Group), g.nodeAt? p = some h.toNode → g.nodeAt? q = some k.toNode →
      p ≠ q → ∀ rule rule' asGroup asGroup',
        ((g.addRule p rule asGroup).addRule q rule' asGroup').cleared =
          ((g.addRule q rule' asGroup').addRule p rule asGroup).cleared := by
  constructor
  · intro p i r change hat
    obtain ⟨h, hp, hr⟩ := exists_group_of_nodeAt?_eq hat
    refine ⟨fun q rule asGroup => ?_, fun q connective => ?_, fun q j change' hne => ?_⟩
    · rw [addRule, addRule, nextIndex_changeRule]
      exact edit_changeRule_comm (passesGroups_addChild _) hp hr change
        fun _ => passes_addChild _ i _ _
    · exact edit_changeRule_comm (passesGroups_withConnective connective) hp hr change
        fun _ => passes_withConnective connective i _ _
    · refine edit_changeRule_comm (passesGroups_changeChild j change') hp hr change fun hqp => ?_
      refine passes_changeChild (fun hji => hne ?_) change' _ _
      rw [hqp, hji]
  · intro p q h k hp hq hpq rule rule' asGroup asGroup'
    simp only [cleared_addRule]
    exact edit_comm (passesGroups_addChild _) (passesGroups_addChild _) (nodeAt?_cleared hp)
      (nodeAt?_cleared hq) fun hsame => absurd hsame hpq

/-- A rule in an or that is the child of a not. -/
def layeredTree : Group :=
  ⟨.and, 0, [.group .not 1 [.group .or 2 [.rule ⟨.equals, "a", some (.text "1"), 3, .after⟩]],
    .rule ⟨.equals, "b", none, 4, .after⟩]⟩

/-- The change of the rule with an addition beside it, with its group becoming a not and with a
change at a path that leads to no group; and two additions, to the root and beside the rule. -/
theorem edits_commute_layeredTree :
    let change : RuleChange := ⟨some .lessThan, none, some none, none⟩
    let changed := layeredTree.changeRule [0, 0] 0 change
    let above := layeredTree.addRule [] none true
    let beside := layeredTree.addRule [0, 0] none false
    layeredTree.nodeAt? ([0, 0] ++ [0]) =
        some (.rule ⟨.equals, "a", some (.text "1"), 3, .after⟩) ∧
      changed.addRule [0, 0] none false = beside.changeRule [0, 0] 0 change ∧
      changed.setConnective [0, 0] .not =
        (layeredTree.setConnective [0, 0] .not).changeRule [0, 0] 0 change ∧
      changed.changeRule [1] 0 change =
        (layeredTree.changeRule [1] 0 change).changeRule [0, 0] 0 change ∧
      changed.changeRule [1] 0 change = changed ∧
      layeredTree.nodeAt? [] = some layeredTree.toNode ∧
      layeredTree.nodeAt? [0, 0] = some (Group.toNode
        ⟨.or, 2, [.rule ⟨.equals, "a", some (.text "1"), 3, .after⟩]⟩) ∧
      (above.addRule [0, 0] none false).cleared = (beside.addRule [] none true).cleared ∧
      above.addRule [0, 0] none false ≠ beside.addRule [] none true := by
  have hrule : layeredTree.nodeAt? ([0, 0] ++ [0]) =
      some (.rule ⟨.equals, "a", some (.text "1"), 3, .after⟩) := rfl
  have hgroup : layeredTree.nodeAt? [0, 0] = some (Group.toNode
      ⟨.or, 2, [.rule ⟨.equals, "a", some (.text "1"), 3, .after⟩]⟩) := rfl
  obtain ⟨hchange, hadd⟩ := edits_commute layeredTree
  obtain ⟨hadded, hset, hother⟩ :=
    hchange [0, 0] 0 _ ⟨some .lessThan, none, some none, none⟩ hrule
  exact ⟨hrule, hadded [0, 0] none false, hset [0, 0] .not, hother [1] 0 _ (by decide), by decide,
    rfl, hgroup, hadd [] [0, 0] _ _ rfl hgroup (by decide) none none true false, by decide⟩

end Group

end AccessFilter
