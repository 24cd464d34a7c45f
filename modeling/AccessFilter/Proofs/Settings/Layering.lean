import AccessFilter.Settings.Basic
import Mathlib.Data.List.Induction

/-!
# What layers amount to

Layers are laid over one another.  It may be done one at a time, from the lowest to the highest, or
some of them may be put together first; layers that set nothing may come in between.  The outcome is
the same, and each setting is the one of the last layer that sets it, whatever the layers say about
the other settings.

**Zero and blank.**  A depth of zero and a blank resource type are set like any other one, and so
they hide what lower layers set.  That they stand for the default is decided at the end.

* `Stack` — layers laid over one another in some order of putting them together.
* `lastSet?`, `Settings.ofLayers` — the last of the values that layers set, and the settings that are
  made up of these.
* `Overrides` — what it is to be a setting: a higher layer decides, if it sets it.
* **`settings_foldl_merge`** — merged layers amount to the settings of their last layers, however
  they were put together.
-/

namespace AccessFilter

namespace Layer

/-! ## The second side: last layers -/

/-- The resource type that a layer sets. -/
def resourceType? (l : Layer) : Option String :=
  l.governance.bind GovernanceLayer.resourceType

/-- Whether field paths name a state, if a layer sets that. -/
def showsTemporal? (l : Layer) : Option Bool :=
  l.governance.bind GovernanceLayer.showsTemporal

/-- The value of a setting in the last layer that sets it. -/
def lastSet? {α : Type} (setting : Layer → Option α) (ls : List Layer) : Option α :=
  (ls.filterMap setting).getLast?

/-- Layers laid over one another. -/
inductive Stack where
  /-- No layer. -/
  | empty
  | layer (layer : Layer)
  | overlay (lower upper : Stack)

namespace Stack

/-- The layers of a stack, from the lowest to the highest. -/
def layers : Stack → List Layer
  | empty => []
  | layer l => [l]
  | overlay a b => a.layers ++ b.layers

/-- The layer that a stack is put together to. -/
def merged : Stack → Layer
  | empty => Layer.empty
  | layer l => l
  | overlay a b => a.merged.merge b.merged

end Stack

end Layer

/-- **The settings of several layers,** each of them as the last layer sets it that does.  A depth of
zero, a blank resource type and what no layer sets are the default. -/
def Settings.ofLayers (ls : List Layer) : Settings :=
  { maxDepth := ((Layer.lastSet? Layer.maxDepth ls).filter (0 < ·)).getD defaultMaxDepth
    scope :=
      { resourceType :=
          (Layer.lastSet? Layer.resourceType? ls).filter fun s => !Text.isBlankText s
        showsTemporal := (Layer.lastSet? Layer.showsTemporal? ls).getD true } }

namespace Layer

/-! ## Putting layers together -/

@[simp]
lemma empty_merge (l : Layer) : empty.merge l = l := by
  obtain ⟨d, g⟩ := l
  cases d <;> cases g <;> simp [merge, empty]

@[simp]
lemma merge_empty (l : Layer) : l.merge empty = l := rfl

instance : Std.Associative merge := ⟨merge_assoc⟩

/-- Merging goes on over what was merged before. -/
lemma foldl_merge (l : Layer) (ls : List Layer) :
    ls.foldl merge l = l.merge (ls.foldl merge empty) := by
  have h : ls.foldl merge (l.merge empty) = l.merge (ls.foldl merge empty) := List.foldl_assoc
  rwa [merge_empty] at h

/-- **A stack is put together to what its layers give one after the other.** -/
lemma Stack.merged_eq_foldl (s : Stack) : s.merged = s.layers.foldl merge Layer.empty := by
  induction s with
  | empty => rfl
  | layer l => exact (Layer.empty_merge l).symm
  | overlay a b iha ihb => rw [merged, layers, List.foldl_append, foldl_merge, ← iha, ← ihb]

/-! ## One setting -/

/-- **A setting:** no layer sets it where there is none, and of two layers the higher one decides, if
it sets it. -/
structure Overrides {α : Type} (setting : Layer → Option α) : Prop where
  empty : setting Layer.empty = none
  merge : ∀ a b : Layer, setting (a.merge b) = (setting b <|> setting a)

lemma overrides_maxDepth : Overrides maxDepth :=
  ⟨rfl, fun _ _ => rfl⟩

/-- A layer that sets one of the settings for the governance service leaves the other one to the
layers below. -/
lemma overrides_governance {α : Type} {part : GovernanceLayer → Option α}
    (h : ∀ a b : GovernanceLayer, part (a.merge b) = (part b <|> part a)) :
    Overrides fun l => l.governance.bind part := by
  refine ⟨rfl, ?_⟩
  rintro ⟨-, lower⟩ ⟨-, upper⟩
  cases upper with
  | none => rfl
  | some g => cases lower <;> simp [Layer.merge, h]

lemma overrides_resourceType? : Overrides resourceType? :=
  overrides_governance fun _ _ => rfl

lemma overrides_showsTemporal? : Overrides showsTemporal? :=
  overrides_governance fun _ _ => rfl

/-- **A setting of merged layers is the one of the last layer that sets it.** -/
lemma Overrides.foldl_merge {α : Type} {setting : Layer → Option α} (h : Overrides setting)
    (ls : List Layer) : setting (ls.foldl Layer.merge Layer.empty) = lastSet? setting ls := by
  induction ls using List.reverseRecOn with
  | nil => exact h.empty
  | append_singleton ls l ih =>
      rw [List.foldl_append, List.foldl_cons, List.foldl_nil, h.merge, ih, lastSet?, lastSet?,
        List.filterMap_append, List.getLast?_append]
      cases hl : setting l <;> simp [hl]

/-! ## All settings -/

/-- The settings that a layer amounts to, by what it sets. -/
lemma settings_eq (l : Layer) : l.settings =
    { maxDepth := (l.maxDepth.filter (0 < ·)).getD defaultMaxDepth
      scope :=
        { resourceType := l.resourceType?.filter fun s => !Text.isBlankText s
          showsTemporal := l.showsTemporal?.getD true } } := by
  obtain ⟨d, g⟩ := l
  cases g <;> rfl

/-- **Each setting is the one of the last layer that sets it.**  It does not matter whether layers
are merged one after the other, over a layer that sets nothing, or in any other bracketing. -/
theorem settings_foldl_merge (ls : List Layer) (s : Stack) :
    (ls.foldl merge empty).settings = Settings.ofLayers ls ∧
      s.merged.settings = Settings.ofLayers s.layers := by
  have hlist : ∀ ls : List Layer, (ls.foldl merge empty).settings = Settings.ofLayers ls := by
    intro ls
    rw [settings_eq, overrides_maxDepth.foldl_merge, overrides_resourceType?.foldl_merge,
      overrides_showsTemporal?.foldl_merge, Settings.ofLayers]
  refine ⟨hlist ls, ?_⟩
  rw [s.merged_eq_foldl, hlist]

/-- The upper layer hides the depth of the lower one by setting it to zero, and leaves the resource
type alone although it has settings for the governance service. -/
example :
    (merge ⟨some 3, some ⟨some "role", none⟩⟩ ⟨some 0, some ⟨none, some false⟩⟩).settings =
      ⟨defaultMaxDepth, ⟨some "role", false⟩⟩ := by
  decide

end Layer

end AccessFilter
