import AccessFilter.Tree.Json
import AccessFilter.Proofs.Except
import Mathlib.Tactic.Common

/-!
# Trees come back from their JSON form

In the JSON form of a tree nothing but the operator says whether a child is a group or a rule, and
almost every other part of either may be left out.  So a tree can come back only because no text
names both a connective and an operator.

**Spellings.**  Connectives are compared in small letters and operators in capitals and with
underscores for the separators between words.  The second form of a text can be computed from the
first one, so it is enough to look at the spellings of the connectives, which are few.

**Operators.**  A value is read as a group or a rule only if a text stands in the one place of the
operator (`Json.operatorText?`), and this text names the connective or the operator that is read.

* **`Connective.ofText?_eq_none_or`** — no text names a connective and an operator.
* `Group.exists_of_ofJson?_eq`, `Rule.exists_of_ofJson_eq` — the text behind a group or a rule.
* **`Group.ofJson?_eq_none_of_rule`** — no value is read both as a group and as a rule.
* `Rule.ofJson_toJson_of_le`, `Node.ofJson?_toJson` — rules and nodes come back.
* **`Group.ofJson_toJson_and_kinds_apart`** — every tree comes back, in which every child is read as
  what it is.
-/

namespace AccessFilter

/-! ## No text names both a connective and an operator -/

/-- Only capitals change when letters are made small, and there are few of them. -/
lemma Text.toUpper_toLower (c : Char) : c.toLower.toUpper = c.toUpper := by
  by_cases hupper : c.val ≥ 'A'.val ∧ c.val ≤ 'Z'.val
  · have hcapitals : ∀ n < 26,
        (Char.ofNat (65 + n)).toLower.toUpper = (Char.ofNat (65 + n)).toUpper := by decide
    have hlow : 65 ≤ c.toNat := hupper.1
    have hhigh : c.toNat ≤ 90 := hupper.2
    have hletter := hcapitals (c.toNat - 65) (by omega)
    rwa [Nat.add_sub_cancel' hlow, Char.ofNat_toNat] at hletter
  · have hsame : c.toLower = c := dif_neg hupper
    rw [hsame]

/-- Making letters small first does not change what they are as capitals. -/
lemma Text.upper_lower (s : List Char) : upper (lower s) = upper s := by
  rw [upper, upper, lower, List.map_map]
  exact List.map_congr_left fun c _ => Text.toUpper_toLower c

/-- The form in which operators are compared can be computed from the one for connectives. -/
lemma Operator.normalized_eq (s : String) : normalized s =
    String.ofList ((Text.upper (Connective.normalized s).toList).map separated) := by
  rw [normalized, Connective.normalized, Text.lowercased, Text.trimmed, String.toList_ofList,
    String.toList_ofList, Text.upper_lower]

/-- **No text names both a connective and an operator.** -/
theorem Connective.ofText?_eq_none_or (s : String) :
    ofText? s = none ∨ Operator.ofText? s = none := by
  cases h : ofText? s with
  | none => exact Or.inl rfl
  | some c =>
      have hspelled : normalized s ∈ c.spellings := by
        simpa using List.find?_some h
      have hnone : ∀ w ∈ c.spellings, Operator.all.find? (fun op => op.spellings.contains
          (String.ofList ((Text.upper w.toList).map Operator.separated))) = none := by
        cases c <;> decide
      refine Or.inr ?_
      rw [Operator.ofText?, Operator.normalized_eq]
      exact hnone _ hspelled

/-! ## The text in the place of the operator -/

/-- The text in the place of the operator, in either of the two forms of groups and rules. -/
def Json.operatorText? : Json → Option String
  | .object ms => (member? "operator" ms).bind string?
  | .array items => items[0]?.bind string?
  | _ => none

lemma Connective.exists_of_part?_eq {j : Option Json} {c : Connective} (h : part? j = some c) :
    ∃ s, j.bind Json.string? = some s ∧ ofText? s = some c := by
  unfold part? at h
  split at h
  · exact ⟨_, rfl, h⟩
  · cases h

lemma Operator.exists_of_part_eq {j : Option Json} {op : Operator} (h : part j = .ok op) :
    ∃ s, j.bind Json.string? = some s ∧ ofText? s = some op := by
  unfold part at h
  split at h
  · refine ⟨_, rfl, ?_⟩
    unfold read at h
    split at h
    · rename_i hs
      rw [hs, Except.ok.inj h]
    · cases h
  · cases h

lemma Group.connective_of_ofParts?_eq {operator index : Option Json} {ns : Option (List Node)}
    {g : Group} (h : ofParts? operator index ns = some g) :
    Connective.part? operator = some g.connective := by
  obtain ⟨c, hc, h⟩ := Option.bind_eq_some_iff.mp h
  obtain ⟨i, -, h⟩ := Option.bind_eq_some_iff.mp h
  obtain ⟨ns, -, h⟩ := Option.bind_eq_some_iff.mp h
  cases h
  exact hc

lemma Rule.operator_of_ofParts?_eq {op : Operator} {field value index temporal : Option Json}
    {r : Rule} (h : ofParts? op field value index temporal = some r) : r.operator = op := by
  obtain ⟨f, -, h⟩ := Option.bind_eq_some_iff.mp h
  obtain ⟨v, -, h⟩ := Option.bind_eq_some_iff.mp h
  obtain ⟨i, -, h⟩ := Option.bind_eq_some_iff.mp h
  obtain ⟨t, -, h⟩ := Option.bind_eq_some_iff.mp h
  cases h
  rfl

lemma JsonFault.ofOption_eq_ok_iff {α : Type} {x : Option α} {a : α} :
    ofOption x = .ok a ↔ x = some a := by
  cases x <;> simp [ofOption]

/-- **A group is read only where a text names its connective.** -/
lemma Group.exists_of_ofJson?_eq {j : Json} {g : Group} (h : ofJson? j = some g) :
    ∃ s, j.operatorText? = some s ∧ Connective.ofText? s = some g.connective := by
  unfold ofJson? at h
  split at h
  case h_5 => cases h
  all_goals exact Connective.exists_of_part?_eq (connective_of_ofParts?_eq h)

/-- **A rule is read only where a text names its operator.** -/
lemma Rule.exists_of_ofJson_eq {j : Json} {r : Rule} (h : ofJson j = .ok r) :
    ∃ s, j.operatorText? = some s ∧ Operator.ofText? s = some r.operator := by
  unfold ofJson at h
  split at h
  · -- in an object an unreadable field comes before the operator, and is a fault as well
    dsimp only at h
    split at h
    · cases h
    · obtain ⟨op, hop, h⟩ := bind_eq_ok_iff.mp h
      rw [operator_of_ofParts?_eq (JsonFault.ofOption_eq_ok_iff.mp h)]
      exact Operator.exists_of_part_eq hop
  · obtain ⟨op, hop, h⟩ := bind_eq_ok_iff.mp h
    split at h
    · cases h
    · rw [operator_of_ofParts?_eq (JsonFault.ofOption_eq_ok_iff.mp h)]
      exact Operator.exists_of_part_eq hop
  · cases h

/-- **No value is read both as a group and as a rule,** whatever else it holds. -/
theorem Group.ofJson?_eq_none_of_rule {j : Json} {r : Rule} (h : Rule.ofJson j = .ok r) :
    ofJson? j = none := by
  cases hg : ofJson? j with
  | none => rfl
  | some g =>
      obtain ⟨s, hs, hc⟩ := exists_of_ofJson?_eq hg
      obtain ⟨s', hs', hop⟩ := Rule.exists_of_ofJson_eq h
      obtain rfl : s = s' := Option.some.inj (hs.symm.trans hs')
      rcases Connective.ofText?_eq_none_or s with hn | hn
      · rw [hn] at hc
        cases hc
      · rw [hn] at hop
        cases hop

/-- Where a text stands in the place of the operator, reading a tree looks at it first. -/
lemma Group.ofJson_of_operatorText?_eq {j : Json} {s : String} (h : j.operatorText? = some s) :
    ofJson j = (Connective.read s).mapError JsonFault.cause >>= fun _ =>
      JsonFault.ofOption (ofJson? j) := by
  have hstring : ∀ {x : Option Json}, x.bind Json.string? = some s → x = some (.string s) := by
    rintro (_ | (_ | _ | _ | _ | _ | _)) hx <;> cases hx
    rfl
  cases j with
  | object ms => rw [ofJson, hstring h]
  | array items => rw [ofJson, hstring h]
  | null | bool _ | number _ | string _ => cases h

/-- A tree is read where a group is. -/
lemma Group.ofJson_eq_ok_iff {j : Json} {g : Group} : ofJson j = .ok g ↔ ofJson? j = some g := by
  constructor
  · intro h
    simp only [ofJson] at h
    split at h
    · obtain ⟨c, -, h⟩ := bind_eq_ok_iff.mp h
      exact JsonFault.ofOption_eq_ok_iff.mp h
    · cases h
  · intro h
    obtain ⟨s, hs, hc⟩ := exists_of_ofJson?_eq h
    have hread : Connective.read s = .ok g.connective := by
      rw [Connective.read, hc]
    rw [ofJson_of_operatorText?_eq hs, hread, h]
    rfl

/-! ## Rules and nodes come back -/

lemma Operator.part_name (op : Operator) : part (some (.string op.name)) = .ok op := by
  rw [part, read, ofText?_name]
  rfl

lemma Scalar.part?_toJson (v : Scalar) : part? (some v.toJson) = some (some v) := by
  cases v <;> rfl

lemma indexPart?_nat {i : Nat} (h : i ≤ indexLimit) : indexPart? (some (.nat i)) = some i := by
  rw [indexPart?, Json.nat, Json.natUpTo?, Int.toNat_natCast, if_pos ⟨Int.natCast_nonneg i, h⟩]

lemma Temporal.part?_segment (t : Temporal) : part? (some (.string t.segment)) = some t := by
  cases t <;> rfl

/-- **A rule comes back,** also without a value. -/
lemma Rule.ofJson_toJson_of_le {r : Rule} (h : r.index ≤ indexLimit) : ofJson r.toJson = .ok r := by
  obtain ⟨op, f, v, i, t⟩ := r
  have hparts : ofParts? op (some (.string f)) (v.map Scalar.toJson) (some (.nat i))
      (some (.string t.segment)) = some ⟨op, f, v, i, t⟩ := by
    have hv : Scalar.part? (v.map Scalar.toJson) = some v := by
      cases v with
      | none => rfl
      | some v => exact Scalar.part?_toJson v
    rw [ofParts?, hv, indexPart?_nat h, Temporal.part?_segment]
    rfl
  have hjson : ofJson (toJson ⟨op, f, v, i, t⟩) = Operator.part (some (.string op.name)) >>=
      fun op => JsonFault.ofOption (ofParts? op (some (.string f)) (v.map Scalar.toJson)
        (some (.nat i)) (some (.string t.segment))) := by
    cases v <;> rfl
  rw [hjson, Operator.part_name, ok_bind, hparts]
  rfl

/-- A list of nodes is read node by node. -/
lemma Node.ofJsonAll?_cons (j : Json) (js : List Json) : ofJsonAll? (j :: js) =
    (ofJson? j).bind fun n => (ofJsonAll? js).map (n :: ·) := by
  rw [ofJsonAll?, ofJson?]
  cases Group.ofJson? j with
  | some g => rfl
  | none => cases Rule.ofJson j <;> rfl

lemma Group.ofJson?_object {c : Connective} {i : Nat} {js : List Json} {ns : List Node}
    (hi : i ≤ indexLimit) (hns : Node.ofJsonAll? js = some ns) :
    ofJson? (.object [("operator", .string c.name), ("subfilters", .array js),
      ("uniqueIndex", .nat i)]) = some ⟨c, i, ns⟩ := by
  have hoperator : Connective.part? (some (.string c.name)) = some c := Connective.ofText?_name c
  have hindex := indexPart?_nat hi
  have hchildren : Node.childrenMember? [("operator", .string c.name), ("subfilters", .array js),
      ("uniqueIndex", .nat i)] = some ns := by
    rw [Node.childrenMember?, if_neg (by decide), Node.childrenMember?, if_pos rfl,
      Node.children?, hns]
  rw [ofJson?, hchildren]
  change ofParts? (some (.string c.name)) (some (.nat i)) (some ns) = _
  rw [ofParts?, hoperator, hindex]
  rfl

mutual

/-- **Every node comes back as what it is.** -/
lemma Node.ofJson?_toJson : ∀ n : Node, (∀ i ∈ n.indices, i ≤ indexLimit) →
    ofJson? n.toJson = some n
  | rule r, h => by
      have hrule := Rule.ofJson_toJson_of_le (h r.index (List.mem_singleton_self _))
      rw [toJson, ofJson?, Group.ofJson?_eq_none_of_rule hrule, hrule]
      rfl
  | group c i ns, h => by
      rw [indices, List.forall_mem_cons] at h
      have ih := ofJsonAll?_toJsonAll ns h.2
      rw [toJson, ofJson?, Group.ofJson?_object h.1 ih]
      rfl

lemma Node.ofJsonAll?_toJsonAll : ∀ ns : List Node, (∀ i ∈ indicesAll ns, i ≤ indexLimit) →
    ofJsonAll? (toJsonAll ns) = some ns
  | [], _ => rfl
  | n :: ns, h => by
      rw [indicesAll, List.forall_mem_append] at h
      rw [toJsonAll, ofJsonAll?_cons, ofJson?_toJson n h.1, ofJsonAll?_toJsonAll ns h.2]
      rfl

end

namespace Group

lemma ofJson_toJson_of_le {g : Group} (h : ∀ i ∈ g.indices, i ≤ indexLimit) :
    ofJson g.toJson = .ok g := by
  rw [indices, toNode, Node.indices, List.forall_mem_cons] at h
  rw [ofJson_eq_ok_iff, toJson, toNode, Node.toJson]
  exact ofJson?_object h.1 (Node.ofJsonAll?_toJsonAll g.children h.2)

/-- **Every tree comes back from its JSON form, and no group is taken for a rule or a rule for a
group:** not as a child, not in any other value, and not by the text of the operator. -/
theorem ofJson_toJson_and_kinds_apart :
    (∀ g : Group, (∀ i ∈ g.indices, i ≤ indexLimit) → ofJson g.toJson = .ok g) ∧
      (∀ n : Node, (∀ i ∈ n.indices, i ≤ indexLimit) → Node.ofJson? n.toJson = some n) ∧
      (∀ (j : Json) (g : Group) (r : Rule), ofJson j = .ok g → Rule.ofJson j ≠ .ok r) ∧
      ∀ s : String, Connective.ofText? s = none ∨ Operator.ofText? s = none := by
  refine ⟨fun g => ofJson_toJson_of_le, Node.ofJson?_toJson, ?_, Connective.ofText?_eq_none_or⟩
  intro j g r hg hr
  have hnone := ofJson?_eq_none_of_rule hr
  rw [ofJson_eq_ok_iff.mp hg] at hnone
  cases hnone

/-- A not with two children, the largest index, and rules that are called like connectives. -/
def crossedTree : Group :=
  ⟨.not, 0xFFFFFFFF, [.rule ⟨.notExists, "not", none, 0xFFFFFFFF, .before⟩,
    .group .and 3 [.group .or 3 [], .rule ⟨.lessThan, "", some (.text "&"), 0, .after⟩,
      .rule ⟨.equals, "and", some (.number (.int (-1))), 7, .after⟩]]⟩

theorem ofJson_toJson_crossedTree :
    (∀ i ∈ crossedTree.indices, i ≤ indexLimit) ∧ ofJson crossedTree.toJson = .ok crossedTree := by
  have hindices : ∀ i ∈ crossedTree.indices, i ≤ indexLimit := by decide
  exact ⟨hindices, ofJson_toJson_and_kinds_apart.1 crossedTree hindices⟩

end Group

end AccessFilter
