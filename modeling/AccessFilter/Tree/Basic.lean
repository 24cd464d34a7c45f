import AccessFilter.Number.Basic
import AccessFilter.Tree.Connective
import AccessFilter.Tree.Operator
import AccessFilter.Tree.Temporal
import AccessFilter.Text.Blank

/-!
# Filter trees

A filter is a tree: groups join rules and further groups by a connective, and the root is a group.
Every node carries an index by which an editor tells nodes apart.

* `Scalar` — the value a rule compares with.
* `Rule`, `Node`, `Group` — a condition, a node, and a node that is a group.
* `Group.rules`, `Group.groups`, `Group.depth`, `Group.maxIndex` — what a tree holds, how deep it is
  and how far its indices go.
* `Group.mapRules`, `Group.tryRules` — a change made to every rule.
* `Group.same` — equality that takes numbers by their value.

Functions on nodes come in pairs, one for a node and one for the children of a group, because the
children are a list of nodes.
-/

namespace AccessFilter

/-! ## Values and rules -/

/-- The value of a rule. -/
inductive Scalar where
  | bool (value : Bool)
  | number (value : Number)
  | text (value : String)
  deriving DecidableEq, Repr

namespace Scalar

/-- The value as it is shown to a user and written into filters. -/
def display : Scalar → String
  | bool true => "true"
  | bool false => "false"
  | number n => String.ofList n.text
  | text s => s

/-- The text of a value that is a text. -/
def text? : Scalar → Option String
  | text s => some s
  | _ => none

/-- A text of blanks only. -/
def isBlank : Scalar → Bool
  | text s => Text.isBlankText s
  | _ => false

/-- Equality that takes numbers by their value. -/
def same : Scalar → Scalar → Bool
  | bool a, bool b => a == b
  | number a, number b => a.same b
  | text a, text b => a == b
  | _, _ => false

end Scalar

/-- A condition on one field of a record. -/
structure Rule where
  operator : Operator
  field : String
  value : Option Scalar
  index : Nat
  temporal : Temporal
  deriving DecidableEq, Repr

namespace Rule

/-- A rule on the state after a change, not yet numbered. -/
def make (field : String) (operator : Operator) (value : Option Scalar) : Rule :=
  { operator, field, value, index := 0, temporal := .after }

/-- The rule an editor adds when it is given none: an empty text contained in a field without a
name. -/
def blank (index : Nat) : Rule :=
  { make "" .contains (some (.text "")) with index }

/-- The rule under the other form of its operator, if that has one. -/
def negated? (r : Rule) : Option Rule :=
  r.operator.opposite?.map fun operator => { r with operator }

/-- Equality that takes numbers by their value. -/
def same (a b : Rule) : Bool :=
  a.operator == b.operator && a.field == b.field && a.index == b.index &&
    a.temporal == b.temporal &&
    match a.value, b.value with
    | none, none => true
    | some x, some y => x.same y
    | _, _ => false

end Rule

/-! ## Nodes and groups -/

/-- A node of a tree: a rule, or a group of nodes. -/
inductive Node where
  | rule (rule : Rule)
  | group (connective : Connective) (index : Nat) (children : List Node)
  deriving Repr

/-- A node that is known to be a group; the root of a tree is one. -/
structure Group where
  connective : Connective
  index : Nat
  children : List Node
  deriving Repr

namespace Node

instance : Inhabited Node := ⟨group .and 0 []⟩

mutual

/-- Equality of nodes is decided by comparing them part by part. -/
def decEq : (a b : Node) → Decidable (a = b)
  | rule r, rule s => if h : r = s then isTrue (h ▸ rfl) else isFalse fun e => h (Node.rule.inj e)
  | group c i ns, group d j ms =>
    if h : c = d ∧ i = j then
      match decEqAll ns ms with
      | isTrue k => isTrue (by rw [h.1, h.2, k])
      | isFalse k => isFalse fun e => k (Node.group.inj e).2.2
    else isFalse fun e => h ⟨(Node.group.inj e).1, (Node.group.inj e).2.1⟩
  | rule _, group .. => isFalse nofun
  | group .., rule _ => isFalse nofun

/-- Equality of lists of nodes. -/
def decEqAll : (a b : List Node) → Decidable (a = b)
  | [], [] => isTrue rfl
  | [], _ :: _ => isFalse nofun
  | _ :: _, [] => isFalse nofun
  | n :: ns, m :: ms =>
    match decEq n m, decEqAll ns ms with
    | isTrue h, isTrue k => isTrue (by rw [h, k])
    | isFalse h, _ => isFalse fun e => h (List.cons.inj e).1
    | _, isFalse k => isFalse fun e => k (List.cons.inj e).2

end

instance : DecidableEq Node := decEq

/-- The index of a node itself. -/
def index : Node → Nat
  | rule r => r.index
  | group _ i _ => i

def isRule : Node → Bool
  | rule _ => true
  | group .. => false

/-- The rule that a node is. -/
def rule? : Node → Option Rule
  | rule r => some r
  | group .. => none

/-- The group that a node is. -/
def group? : Node → Option Group
  | rule _ => none
  | group c i ns => some ⟨c, i, ns⟩

/-! ## Walks over a tree -/

mutual

/-- The rules at and below a node, depth first and in the order of the children. -/
def rules : Node → List Rule
  | rule r => [r]
  | group _ _ ns => rulesAll ns

/-- The rules at and below several nodes. -/
def rulesAll : List Node → List Rule
  | [] => []
  | n :: ns => n.rules ++ rulesAll ns

end

mutual

/-- The groups at and below a node, each before the groups inside it. -/
def groups : Node → List Group
  | rule _ => []
  | group c i ns => ⟨c, i, ns⟩ :: groupsAll ns

/-- The groups at and below several nodes. -/
def groupsAll : List Node → List Group
  | [] => []
  | n :: ns => n.groups ++ groupsAll ns

end

mutual

/-- How many groups lie on the longest way down from a node, itself included. -/
def depth : Node → Nat
  | rule _ => 0
  | group _ _ ns => depthAll ns + 1

/-- The greatest depth among several nodes. -/
def depthAll : List Node → Nat
  | [] => 0
  | n :: ns => max n.depth (depthAll ns)

end

mutual

/-- The largest index at or below a node. -/
def maxIndex : Node → Nat
  | rule r => r.index
  | group _ i ns => max i (maxIndexAll ns)

/-- The largest index at or below several nodes, zero for none. -/
def maxIndexAll : List Node → Nat
  | [] => 0
  | n :: ns => max n.maxIndex (maxIndexAll ns)

end

mutual

/-- The indices at and below a node, each before those inside it. -/
def indices : Node → List Nat
  | rule r => [r.index]
  | group _ i ns => i :: indicesAll ns

/-- The indices at and below several nodes. -/
def indicesAll : List Node → List Nat
  | [] => []
  | n :: ns => n.indices ++ indicesAll ns

end

mutual

/-- The node with a change made to every rule at and below it. -/
def mapRules (f : Rule → Rule) : Node → Node
  | rule r => rule (f r)
  | group c i ns => group c i (mapRulesAll f ns)

/-- Several nodes with a change made to every rule. -/
def mapRulesAll (f : Rule → Rule) : List Node → List Node
  | [] => []
  | n :: ns => n.mapRules f :: mapRulesAll f ns

end

mutual

/-- The node with a change made to every rule that may fail; the first rule for which it does, in
the order of `rules`, decides the failure. -/
def tryRules {ε : Type} (f : Rule → Except ε Rule) : Node → Except ε Node
  | rule r => (f r).map rule
  | group c i ns => (tryRulesAll f ns).map (group c i)

/-- Several nodes with such a change made to every rule. -/
def tryRulesAll {ε : Type} (f : Rule → Except ε Rule) : List Node → Except ε (List Node)
  | [] => .ok []
  | n :: ns => do
    let n ← n.tryRules f
    let ns ← tryRulesAll f ns
    return n :: ns

end

mutual

/-- Equality that takes numbers by their value. -/
def same : Node → Node → Bool
  | rule r, rule s => r.same s
  | group c i ns, group d j ms => c == d && i == j && sameAll ns ms
  | _, _ => false

/-- Equality of lists of nodes that takes numbers by their value. -/
def sameAll : List Node → List Node → Bool
  | [], [] => true
  | n :: ns, m :: ms => n.same m && sameAll ns ms
  | _, _ => false

end

end Node

namespace Group

instance : Inhabited Group := ⟨⟨.and, 0, []⟩⟩

deriving instance DecidableEq for Group

/-- A group that is not yet numbered. -/
def make (connective : Connective) (children : List Node) : Group :=
  { connective, index := 0, children }

/-- The group as a node. -/
def toNode (g : Group) : Node :=
  .group g.connective g.index g.children

/-- Whether the group has no children. -/
def isEmpty (g : Group) : Bool :=
  g.children.isEmpty

/-- The rules of a tree, depth first and in the order of the children. -/
def rules (g : Group) : List Rule :=
  g.toNode.rules

/-- The groups of a tree, each before the groups inside it. -/
def groups (g : Group) : List Group :=
  g.toNode.groups

/-- How deeply groups are nested; one without groups inside has depth one. -/
def depth (g : Group) : Nat :=
  g.toNode.depth

/-- The largest index in a tree. -/
def maxIndex (g : Group) : Nat :=
  g.toNode.maxIndex

/-- The indices of a tree, each before those inside it. -/
def indices (g : Group) : List Nat :=
  g.toNode.indices

/-- The tree with a change made to every rule. -/
def mapRules (f : Rule → Rule) (g : Group) : Group :=
  { g with children := Node.mapRulesAll f g.children }

/-- The tree with a change made to every rule that may fail. -/
def tryRules {ε : Type} (f : Rule → Except ε Rule) (g : Group) : Except ε Group :=
  (Node.tryRulesAll f g.children).map fun children => { g with children }

/-- Equality that takes numbers by their value. -/
def same (a b : Group) : Bool :=
  a.toNode.same b.toNode

/-- The group a tree is rooted at when a filter consists of this node: the node itself if it joins
its children by and or or, an or around it otherwise. -/
def ofNode : Node → Group
  | .group .and i ns => ⟨.and, i, ns⟩
  | .group .or i ns => ⟨.or, i, ns⟩
  | n => make .or [n]

end Group

/-! ## Small laws -/

namespace Node

@[simp]
theorem indicesAll_append (ns ms : List Node) :
    indicesAll (ns ++ ms) = indicesAll ns ++ indicesAll ms := by
  induction ns with
  | nil => simp [indicesAll]
  | cons n ns ih => simp [indicesAll, ih]

theorem mapRulesAll_eq_map (f : Rule → Rule) (ns : List Node) :
    mapRulesAll f ns = ns.map (mapRules f) := by
  induction ns with
  | nil => rfl
  | cons n ns ih => simp [mapRulesAll, ih]

end Node

end AccessFilter
