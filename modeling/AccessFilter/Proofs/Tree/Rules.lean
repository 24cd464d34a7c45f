import AccessFilter.Proofs.Except
import AccessFilter.Proofs.Tree.Shape

/-!
# Changing every rule of a tree

A change of every rule moves no node and touches no group.  So it passes through whatever looks at
groups only, and as far as it leaves indices alone it can be made before a tree is numbered or
after.

* `Node.rules_mapRules`, `Node.mapRules_mapRules`, `Node.notsSingle_mapRules` — what a change does
  to the rules, to another change, and to the nots.
* `Node.tryRules_eq_ok`, `Node.eq_mapRules_of_tryRules_eq` — a change that may fail is one that
  cannot, wherever it does not.
* `Node.tryRules_eq_error_iff` — where it fails, the first rule decides how.
* **`Group.numbered_mapRules`**, `Group.map_rules_numbered` — changes and numbering.
-/

namespace AccessFilter

variable {ε : Type}

/-- The fault of a result, none if there is a result. -/
def fault? {α : Type} : Except ε α → Option ε
  | .error e => some e
  | .ok _ => none

namespace Node

/-- A group of one child has the rules of the child. -/
lemma rules_singleton (c : Connective) (i : Nat) (n : Node) : (group c i [n]).rules = n.rules :=
  List.append_nil _

mutual

lemma rules_mapRules (f : Rule → Rule) : ∀ n : Node, (n.mapRules f).rules = n.rules.map f
  | rule r => rfl
  | group c i ns => by rw [mapRules, rules, rules, rulesAll_mapRulesAll f ns]

lemma rulesAll_mapRulesAll (f : Rule → Rule) : ∀ ns : List Node,
    rulesAll (mapRulesAll f ns) = (rulesAll ns).map f
  | [] => rfl
  | n :: ns => by
      rw [mapRulesAll, rulesAll, rulesAll, List.map_append, rules_mapRules f n,
        rulesAll_mapRulesAll f ns]

end

mutual

lemma mapRules_mapRules (f g : Rule → Rule) : ∀ n : Node,
    (n.mapRules f).mapRules g = n.mapRules (g ∘ f)
  | rule r => rfl
  | group c i ns => by rw [mapRules, mapRules, mapRules, mapRulesAll_mapRulesAll f g ns]

lemma mapRulesAll_mapRulesAll (f g : Rule → Rule) : ∀ ns : List Node,
    mapRulesAll g (mapRulesAll f ns) = mapRulesAll (g ∘ f) ns
  | [] => rfl
  | n :: ns => by
      rw [mapRulesAll, mapRulesAll, mapRulesAll, mapRules_mapRules f g n,
        mapRulesAll_mapRulesAll f g ns]

end

mutual

lemma notsSingle_mapRules (f : Rule → Rule) : ∀ n : Node,
    (n.mapRules f).NotsSingle ↔ n.NotsSingle
  | rule r => Iff.rfl
  | group c i ns => by
      have hlen : (mapRulesAll f ns).length = ns.length := by
        rw [mapRulesAll_eq_map, List.length_map]
      rw [mapRules, NotsSingle, NotsSingle, hlen, notsSingleAll_mapRulesAll f ns]

lemma notsSingleAll_mapRulesAll (f : Rule → Rule) : ∀ ns : List Node,
    NotsSingleAll (mapRulesAll f ns) ↔ NotsSingleAll ns
  | [] => Iff.rfl
  | n :: ns => by
      rw [mapRulesAll, NotsSingleAll, NotsSingleAll, notsSingle_mapRules f n,
        notsSingleAll_mapRulesAll f ns]

end

mutual

/-- A change that succeeds for every rule makes the same of a tree as one that cannot fail. -/
lemma tryRules_eq_ok {f : Rule → Except ε Rule} {g : Rule → Rule} : ∀ n : Node,
    (∀ r ∈ n.rules, f r = .ok (g r)) → n.tryRules f = .ok (n.mapRules g)
  | rule r, h => by
      rw [tryRules, h r (List.mem_singleton_self r)]
      rfl
  | group c i ns, h => by
      rw [tryRules, tryRulesAll_eq_ok ns h]
      rfl

lemma tryRulesAll_eq_ok {f : Rule → Except ε Rule} {g : Rule → Rule} : ∀ ns : List Node,
    (∀ r ∈ rulesAll ns, f r = .ok (g r)) → tryRulesAll f ns = .ok (mapRulesAll g ns)
  | [], _ => rfl
  | n :: ns, h => by
      rw [rulesAll, List.forall_mem_append] at h
      rw [tryRulesAll, tryRules_eq_ok n h.1, tryRulesAll_eq_ok ns h.2]
      rfl

end

mutual

/-- A change that may fail only changes rules. -/
lemma eq_mapRules_of_tryRules_eq {f : Rule → Except ε Rule} : ∀ {n m : Node},
    n.tryRules f = .ok m → m = n.mapRules fun r => (f r).toOption.getD r
  | rule r, m, h => by
      obtain ⟨q, hq, rfl⟩ := map_eq_ok_iff.mp h
      rw [mapRules, hq]
      rfl
  | group c i ns, m, h => by
      obtain ⟨ms, hms, rfl⟩ := map_eq_ok_iff.mp h
      rw [mapRules, ← eq_mapRulesAll_of_tryRulesAll_eq hms]

lemma eq_mapRulesAll_of_tryRulesAll_eq {f : Rule → Except ε Rule} : ∀ {ns ms : List Node},
    tryRulesAll f ns = .ok ms → ms = mapRulesAll (fun r => (f r).toOption.getD r) ns
  | [], ms, h => by
      cases h
      rfl
  | n :: ns, ms, h => by
      obtain ⟨m, hm, h⟩ := bind_eq_ok_iff.mp h
      obtain ⟨ks, hks, h⟩ := bind_eq_ok_iff.mp h
      obtain rfl := Except.ok.inj h
      rw [mapRulesAll, ← eq_mapRules_of_tryRules_eq hm,
        ← eq_mapRulesAll_of_tryRulesAll_eq hks]

end

mutual

/-- **The first rule for which a change fails decides the failure.** -/
lemma tryRules_eq_error_iff {f : Rule → Except ε Rule} {e : ε} : ∀ n : Node,
    n.tryRules f = .error e ↔ (n.rules.findSome? fun r => fault? (f r)) = some e
  | rule r => by
      rw [tryRules, rules, List.findSome?_singleton]
      cases f r <;> simp [Except.map, fault?]
  | group c i ns => by
      rw [tryRules, rules, ← tryRulesAll_eq_error_iff ns]
      cases tryRulesAll f ns <;> simp [Except.map]

lemma tryRulesAll_eq_error_iff {f : Rule → Except ε Rule} {e : ε} : ∀ ns : List Node,
    tryRulesAll f ns = .error e ↔ ((rulesAll ns).findSome? fun r => fault? (f r)) = some e
  | [] => by simp [tryRulesAll, rulesAll]
  | n :: ns => by
      rw [tryRulesAll, rulesAll, List.findSome?_append, Option.or_eq_some_iff,
        ← tryRulesAll_eq_error_iff ns]
      cases hn : n.tryRules f with
      | error d =>
          rw [(tryRules_eq_error_iff n).mp hn]
          simp
      | ok m =>
          have hnone : (n.rules.findSome? fun r => fault? (f r)) = none := by
            refine Option.eq_none_iff_forall_ne_some.mpr fun d hd => ?_
            rw [(tryRules_eq_error_iff n).mpr hd] at hn
            cases hn
          rw [hnone]
          cases tryRulesAll f ns <;> simp

end

/-! ## Changes and numbering -/

mutual

lemma renumber_mapRules {f : Rule → Rule}
    (hf : ∀ r i, f { r with index := i } = { f r with index := i }) : ∀ (n : Node) (start : Nat),
    (n.mapRules f).renumber start = ((n.renumber start).1.mapRules f, (n.renumber start).2)
  | rule r, start => congrArg (fun q => (rule q, start + 1)) (hf r start).symm
  | group c i ns, start => by
      simp only [mapRules, renumber, renumberAll_mapRulesAll hf ns (start + 1)]

lemma renumberAll_mapRulesAll {f : Rule → Rule}
    (hf : ∀ r i, f { r with index := i } = { f r with index := i }) :
    ∀ (ns : List Node) (start : Nat), renumberAll (mapRulesAll f ns) start =
      (mapRulesAll f (renumberAll ns start).1, (renumberAll ns start).2)
  | [], start => rfl
  | n :: ns, start => by
      simp only [mapRulesAll, renumberAll, renumber_mapRules hf n start,
        renumberAll_mapRulesAll hf ns (n.renumber start).2]

end

mutual

lemma map_rules_renumber {β : Type} {k : Rule → β} (hk : ∀ r i, k { r with index := i } = k r) :
    ∀ (n : Node) (start : Nat), (n.renumber start).1.rules.map k = n.rules.map k
  | rule r, start => by
      rw [renumber, rules, rules, List.map_singleton, List.map_singleton, hk]
  | group c i ns, start => by
      simp only [renumber, rules, map_rulesAll_renumberAll hk ns (start + 1)]

lemma map_rulesAll_renumberAll {β : Type} {k : Rule → β}
    (hk : ∀ r i, k { r with index := i } = k r) : ∀ (ns : List Node) (start : Nat),
    (rulesAll (renumberAll ns start).1).map k = (rulesAll ns).map k
  | [], start => rfl
  | n :: ns, start => by
      simp only [renumberAll, rulesAll, List.map_append, map_rules_renumber hk n start,
        map_rulesAll_renumberAll hk ns (n.renumber start).2]

end

end Node

namespace Group

lemma rules_mapRules (f : Rule → Rule) (g : Group) : (g.mapRules f).rules = g.rules.map f :=
  Node.rules_mapRules f g.toNode

lemma mapRules_mapRules (f h : Rule → Rule) (g : Group) :
    (g.mapRules f).mapRules h = g.mapRules (h ∘ f) :=
  toNode_injective (Node.mapRules_mapRules f h g.toNode)

lemma notsSingle_mapRules (f : Rule → Rule) (g : Group) :
    (g.mapRules f).NotsSingle ↔ g.NotsSingle := by
  rw [notsSingle_iff, notsSingle_iff]
  exact Node.notsSingle_mapRules f g.toNode

lemma tryRules_eq_ok {f : Rule → Except ε Rule} {h : Rule → Rule} {g : Group}
    (hf : ∀ r ∈ g.rules, f r = .ok (h r)) : g.tryRules f = .ok (g.mapRules h) := by
  rw [tryRules, Node.tryRulesAll_eq_ok g.children hf]
  rfl

lemma eq_mapRules_of_tryRules_eq {f : Rule → Except ε Rule} {g t : Group}
    (h : g.tryRules f = .ok t) : t = g.mapRules fun r => (f r).toOption.getD r := by
  obtain ⟨ns, hns, rfl⟩ := map_eq_ok_iff.mp h
  rw [Node.eq_mapRulesAll_of_tryRulesAll_eq hns]
  rfl

lemma tryRules_eq_error_iff {f : Rule → Except ε Rule} {g : Group} {e : ε} :
    g.tryRules f = .error e ↔ (g.rules.findSome? fun r => fault? (f r)) = some e := by
  have h := Node.tryRulesAll_eq_error_iff (f := f) (e := e) g.children
  rw [tryRules, rules, toNode, Node.rules, ← h]
  cases Node.tryRulesAll f g.children <;> simp [Except.map]

/-- Where a change succeeds it succeeds for every rule. -/
lemma exists_of_tryRules_eq {f : Rule → Except ε Rule} {g t : Group} (h : g.tryRules f = .ok t) :
    ∀ r ∈ g.rules, ∃ q, f r = .ok q := by
  intro r hr
  cases hf : f r with
  | ok q => exact ⟨q, rfl⟩
  | error e =>
      have hsome : (g.rules.findSome? fun r => fault? (f r)).isSome :=
        List.findSome?_isSome_iff.mpr ⟨r, hr, by rw [hf]; rfl⟩
      obtain ⟨d, hd⟩ := Option.isSome_iff_exists.mp hsome
      rw [tryRules_eq_error_iff.mpr hd] at h
      cases h

lemma ofNode_mapRules (f : Rule → Rule) (n : Node) :
    ofNode (n.mapRules f) = (ofNode n).mapRules f := by
  cases n with
  | rule r => rfl
  | group c i ns => cases c <;> rfl

lemma rules_ofNode (n : Node) : (ofNode n).rules = n.rules := by
  cases n with
  | rule r => rfl
  | group c i ns =>
      cases c with
      | and | or => rfl
      | not => simp [ofNode, make, rules, toNode, Node.rules, Node.rulesAll]

/-- **A change that leaves indices alone can be made before or after numbering.** -/
lemma numbered_mapRules {f : Rule → Rule}
    (hf : ∀ r i, f { r with index := i } = { f r with index := i }) (g : Group) :
    (g.mapRules f).numbered = g.numbered.mapRules f :=
  toNode_injective (congrArg Prod.fst (Node.renumber_mapRules hf g.toNode 0))

lemma map_rules_numbered {β : Type} {k : Rule → β} (hk : ∀ r i, k { r with index := i } = k r)
    (g : Group) : g.numbered.rules.map k = g.rules.map k :=
  Node.map_rules_renumber hk g.toNode 0

end Group

end AccessFilter
