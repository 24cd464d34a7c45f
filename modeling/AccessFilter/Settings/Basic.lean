import AccessFilter.Governance.Scope

/-!
# Settings in layers

Settings are put together from layers, each of which may set some of them.  A later layer wins over
an earlier one, setting by setting; what a setting means when it is zero, blank or not set at all is
decided only after all layers have been merged.

* `Settings` — the settings.
* `Layer`, `GovernanceLayer` — a layer, which sets any of them.
* `Layer.merge` — a layer with a later one laid over it.
* `Layer.settings`, `GovernanceLayer.scope` — what a layer amounts to.
* **`Layer.merge_assoc`** — it does not matter how the layers are bracketed.
-/

namespace AccessFilter

/-! ## Settings -/

/-- How deeply groups may be nested in the structured editor when nothing is set. -/
def defaultMaxDepth : Nat := 4

/-- All settings: how deeply groups may be nested in the structured editor, and how the paths of the
governance service are built. -/
structure Settings where
  maxDepth : Nat
  scope : Scope
  deriving DecidableEq, Repr

/-! ## Layers -/

/-- The settings for the governance service that a layer sets. -/
structure GovernanceLayer where
  resourceType : Option String
  showsTemporal : Option Bool
  deriving DecidableEq, Repr

/-- The settings that a layer sets. -/
structure Layer where
  maxDepth : Option Nat
  governance : Option GovernanceLayer
  deriving DecidableEq, Repr

namespace GovernanceLayer

/-- The layer that sets nothing. -/
def empty : GovernanceLayer :=
  ⟨none, none⟩

/-- A layer under a later one: what the later one does not set shows from below. -/
def merge (lower upper : GovernanceLayer) : GovernanceLayer :=
  ⟨upper.resourceType <|> lower.resourceType, upper.showsTemporal <|> lower.showsTemporal⟩

/-- The scope that a layer amounts to.  A blank resource type is none; field paths name a state
unless it is said that they do not. -/
def scope (l : GovernanceLayer) : Scope :=
  { resourceType := l.resourceType.filter fun s => !Text.isBlankText s
    showsTemporal := l.showsTemporal.getD true }

/-- The layer that sets nothing disturbs nothing above it. -/
@[simp]
theorem empty_merge (l : GovernanceLayer) : empty.merge l = l := by
  obtain ⟨l₁, l₂⟩ := l
  cases l₁ <;> cases l₂ <;> rfl

theorem merge_assoc (a b c : GovernanceLayer) : (a.merge b).merge c = a.merge (b.merge c) := by
  obtain ⟨c₁, c₂⟩ := c
  cases c₁ <;> cases c₂ <;> rfl

end GovernanceLayer

namespace Layer

/-- The layer that sets nothing. -/
def empty : Layer :=
  ⟨none, none⟩

/-- A layer under a later one: what the later one does not set shows from below. -/
def merge (lower upper : Layer) : Layer :=
  { maxDepth := upper.maxDepth <|> lower.maxDepth
    governance := match upper.governance with
      | none => lower.governance
      | some g => some ((lower.governance.getD GovernanceLayer.empty).merge g) }

/-- The settings that a layer amounts to.  A depth of zero counts as not set. -/
def settings (l : Layer) : Settings :=
  { maxDepth := (l.maxDepth.filter (0 < ·)).getD defaultMaxDepth
    scope := (l.governance.getD GovernanceLayer.empty).scope }

/-- **Merging is associative.** -/
theorem merge_assoc (a b c : Layer) : (a.merge b).merge c = a.merge (b.merge c) := by
  obtain ⟨b₁, b₂⟩ := b
  obtain ⟨c₁, c₂⟩ := c
  cases c₁ <;> cases b₂ <;> cases c₂ <;> simp [merge, GovernanceLayer.merge_assoc]

end Layer

/-- The settings when nothing is set. -/
def Settings.default : Settings :=
  Layer.empty.settings

end AccessFilter
