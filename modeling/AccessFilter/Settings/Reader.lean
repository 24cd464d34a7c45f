import AccessFilter.Settings.Basic
import AccessFilter.Toml.Reader

/-!
# Reading settings

A layer of settings is a TOML document.  Keys that mean nothing here are ignored; a setting of the
wrong type makes the whole document unusable.

* `GovernanceLayer.ofToml?` — the settings for the governance service.
* **`Layer.parse?`** — the layer of a document.
-/

namespace AccessFilter

/-- A setting that may be missing. -/
def Toml.setting? {α : Type} (read : Toml → Option α) : Option Toml → Option (Option α)
  | none => some none
  | some v => (read v).map some

def Toml.string? : Toml → Option String
  | .string s => some s
  | _ => none

def Toml.bool? : Toml → Option Bool
  | .bool b => some b
  | _ => none

/-- A whole number that is not negative. -/
def Toml.nat? : Toml → Option Nat
  | .int n => if 0 ≤ n then some n.toNat else none
  | _ => none

/-- A layer from the values of its settings. -/
def GovernanceLayer.ofParts? (resourceType showsTemporal : Option Toml) :
    Option GovernanceLayer := do
  let resourceType ← Toml.setting? Toml.string? resourceType
  let showsTemporal ← Toml.setting? Toml.bool? showsTemporal
  return ⟨resourceType, showsTemporal⟩

/-- The settings for the governance service: a table, or an array of the settings in their order.  A
date sets nothing. -/
def GovernanceLayer.ofToml? : Toml → Option GovernanceLayer
  | .table _ t =>
    ofParts? (Toml.Table.get? "resource_type" t) (Toml.Table.get? "show_temporal_value_field" t)
  | .array items => ofParts? items[0]? items[1]?
  | .date => some empty
  | _ => none

/-- **The layer of a document,** none if the document cannot be read or a setting has the wrong
type. -/
def Layer.parse? (document : String) : Option Layer := do
  let t ← Toml.parse? document
  let maxDepth ← Toml.setting? Toml.nat? (Toml.Table.get? "max_depth" t)
  let governance ← Toml.setting? GovernanceLayer.ofToml? (Toml.Table.get? "governance" t)
  return ⟨maxDepth, governance⟩

end AccessFilter
