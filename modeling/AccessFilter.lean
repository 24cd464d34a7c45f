import AccessFilter.Editor.Loading
import AccessFilter.Governance.Scope
import AccessFilter.Governance.Search
import AccessFilter.Governance.Wire
import AccessFilter.Json.Printer
import AccessFilter.Json.Reader
import AccessFilter.Ldap.Printer
import AccessFilter.Query.Printer
import AccessFilter.Query.Reader
import AccessFilter.Settings.Reader
import AccessFilter.Tree.Session
import AccessFilter.Proofs.Ldap.Grammar
import AccessFilter.Proofs.Ldap.Acceptance
import AccessFilter.Proofs.Ldap.Canonical
import AccessFilter.Proofs.Ldap.Cycle
import AccessFilter.Proofs.Ldap.Pattern
import AccessFilter.Proofs.Number.Token
import AccessFilter.Proofs.Query.Grammar
import AccessFilter.Proofs.Query.Acceptance
import AccessFilter.Proofs.Query.Normal
import AccessFilter.Proofs.Governance.Canonical
import AccessFilter.Proofs.Meaning.Formula
import AccessFilter.Proofs.Meaning.Expression
import AccessFilter.Proofs.Meaning.Backends
import AccessFilter.Proofs.Tree.Edit
import AccessFilter.Proofs.Tree.Negation
import AccessFilter.Proofs.Tree.Rules
import AccessFilter.Proofs.Tree.Json
import AccessFilter.Proofs.Session.Arity
import AccessFilter.Proofs.Session.Identity
import AccessFilter.Proofs.Meaning.Negation
import AccessFilter.Proofs.Governance.Scope
import AccessFilter.Proofs.Governance.Paths
import AccessFilter.Proofs.Governance.Simplified
import AccessFilter.Proofs.Governance.Wire
import AccessFilter.Proofs.Query.Soundness
import AccessFilter.Proofs.Query.Cycle
import AccessFilter.Proofs.Query.Names
import AccessFilter.Proofs.Meaning.Translation
import AccessFilter.Proofs.Meaning.Saved
import AccessFilter.Proofs.Editor.Obstacle
import AccessFilter.Proofs.Editor.Saving
import AccessFilter.Proofs.Tree.Frame
import AccessFilter.Proofs.Tree.Commute
import AccessFilter.Proofs.Governance.Kept
import AccessFilter.Proofs.Ldap.Fields
import AccessFilter.Proofs.Session.Reuse
import AccessFilter.Proofs.Tree.Pushed
import AccessFilter.Proofs.Editor.Negation
import AccessFilter.Proofs.Query.Lockstep
import AccessFilter.Proofs.Query.Completion
import AccessFilter.Proofs.Query.Leaf
import AccessFilter.Proofs.Ldap.Cursor
import AccessFilter.Proofs.Ldap.Offsets
import AccessFilter.Proofs.Ldap.Escaping
import AccessFilter.Proofs.Governance.Search
import AccessFilter.Proofs.Settings.Layering
import AccessFilter.Proofs.Tree.Renumbering
