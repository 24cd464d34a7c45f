import AccessFilter.Proofs.Governance.Scope

/-!
# Expressions on paths that were made elsewhere

The expressions that are read in a scope need not have been written in it: a path may lack the
resource type, and it may name no state.  Reading such an expression is all or nothing, and what was
read is written with the paths it came with, each with the resource type in front.

**Reading.**  What counts is the part of a path behind the resource type, where the resource type is
left out only once (`localPart`).  If paths name states, this part has to begin with one
(`readPath_eq_ok_iff`), and the first rule whose path does not makes the whole expression a failure.

**Writing.**  A path that was read is written again from the state and the field that it named, so
nothing of it can change but the resource type that it lacked (`fieldPath_of_readPath_eq`).  States
are of no account to the rest of an expression, so the tree is written as it is without a scope, but
for the names of the targets (`Node.toExpr?_mapRules`).

* `Expr.mapNames` — a change of the names in an expression.
* `Scope.NamesState`, `Scope.completed` — the paths that are read, and how they are written.
* **`Scope.toGroup_and_toExpr?_completed`** — reading fails for the first path that names no state,
  and otherwise writing gives the same expression on completed paths.
-/

namespace AccessFilter

/-! ## Names in expressions -/

namespace Expr

mutual

/-- The expression with a change made to the name of every target. -/
def mapNames (f : String → String) : Expr → Expr
  | and es => and (mapNamesAll f es)
  | or es => or (mapNamesAll f es)
  | not e => not (e.mapNames f)
  | all => all
  | compare c t => compare c { t with name := f t.name }

/-- Several expressions with a change made to the name of every target. -/
def mapNamesAll (f : String → String) : List Expr → List Expr
  | [] => []
  | e :: es => e.mapNames f :: mapNamesAll f es

end

end Expr

open Expr

lemma join?_mapNamesAll (f : String → String) (c : Connective) (es : List Expr) :
    c.join? (mapNamesAll f es) = (c.join? es).map (mapNames f) := by
  cases c with
  | and | or => cases es <;> simp [Connective.join?, mapNames, mapNamesAll]
  | not =>
      rcases es with _ | ⟨_, _ | ⟨_, _⟩⟩ <;> simp [Connective.join?, mapNames, mapNamesAll]

section

variable {h : Rule → Rule} {f : String → String}

mutual

/-- **A change of the rules that only changes names in their expressions** does the same to the
expression of the whole. -/
lemma Node.toExpr?_mapRules : ∀ n : Node, (∀ r ∈ n.rules, (h r).toExpr = r.toExpr.mapNames f) →
    (n.mapRules h).toExpr? = n.toExpr?.map (mapNames f)
  | .rule r, hr => congrArg some (hr r (List.mem_singleton_self r))
  | .group c i ns, hr => by
      rw [Node.mapRules, Node.toExpr?, Node.toExpr?, Node.toExprs_mapRulesAll ns hr,
        join?_mapNamesAll]

lemma Node.toExprs_mapRulesAll : ∀ ns : List Node,
    (∀ r ∈ Node.rulesAll ns, (h r).toExpr = r.toExpr.mapNames f) →
    Node.toExprs (Node.mapRulesAll h ns) = mapNamesAll f (Node.toExprs ns)
  | [], _ => rfl
  | n :: ns, hr => by
      rw [Node.rulesAll, List.forall_mem_append] at hr
      rw [Node.mapRulesAll, Node.toExprs, Node.toExprs, Node.toExpr?_mapRules n hr.1,
        Node.toExprs_mapRulesAll ns hr.2]
      cases n.toExpr? <;> rfl

end

end

/-- Of its place, only the field of a rule shows in its expression, as the name of the target. -/
lemma Rule.toExpr_placed (r : Rule) (t : Temporal) (f : String → String) :
    Rule.toExpr { r with field := f r.field, temporal := t } = r.toExpr.mapNames f := by
  unfold Rule.toExpr
  split_ifs <;> rfl

/-! ## Paths -/

namespace Scope

/-- The part of a path behind the resource type and its point, if the path begins with them. -/
def localPart (type path : String) : List Char :=
  if type.toList ++ ['.'] <+: path.toList then path.toList.drop (type.toList.length + 1)
  else path.toList

/-- Whether a path names a state: behind the resource type it begins with one and a point. -/
def NamesState (type path : String) : Prop :=
  "before.".toList <+: localPart type path ∨ "after.".toList <+: localPart type path

instance (type path : String) : Decidable (NamesState type path) :=
  inferInstanceAs (Decidable (_ ∨ _))

/-- The path with the resource type in front, which is added only if it is missing. -/
def completed (type path : String) : String :=
  if type.toList ++ ['.'] <+: path.toList then path else type ++ "." ++ path

lemma eq_append_of_isPrefixOf? {word s rest : List Char} (h : word.isPrefixOf? s = some rest) :
    s = word ++ rest := by
  induction word generalizing s with
  | nil => exact Option.some.inj h
  | cons w word ih =>
      cases s with
      | nil => cases h
      | cons c s =>
          have h : (if w == c then word.isPrefixOf? s else none) = some rest := h
          by_cases hc : w = c
          · subst hc
            rw [List.cons_append, ← ih (by simpa using h)]
          · simp [hc] at h

lemma dropResource_eq_localPart (type path : String) :
    dropResource type.toList path.toList = localPart type path := by
  unfold localPart
  split_ifs with h
  · obtain ⟨rest, hrest⟩ := h
    rw [List.append_assoc, List.singleton_append] at hrest
    rw [← hrest, dropResource_append, ← List.singleton_append, ← List.append_assoc]
    exact (List.drop_left' (by simp)).symm
  · unfold dropResource
    split
    · next rest hrest =>
      refine absurd ⟨rest, ?_⟩ h
      rw [eq_append_of_isPrefixOf? hrest, List.append_assoc, List.singleton_append]
    · rfl

/-- The resource type in front of the local part completes a path. -/
lemma toList_completed (type path : String) :
    (completed type path).toList = type.toList ++ '.' :: localPart type path := by
  unfold completed localPart
  split_ifs with h
  · obtain ⟨rest, hrest⟩ := h
    rw [← hrest, List.drop_left' (by simp), List.append_assoc, List.singleton_append]
  · simp

/-- What was split was joined by the point. -/
lemma eq_of_splitAtPoint?_eq {s segment rest : List Char}
    (h : splitAtPoint? s = some (segment, rest)) : s = segment ++ '.' :: rest := by
  induction s generalizing segment with
  | nil => cases h
  | cons c s ih =>
      rw [splitAtPoint?] at h
      split_ifs at h with hc
      · obtain ⟨rfl, rfl⟩ := Prod.mk.inj (Option.some.inj h)
        rw [hc, List.nil_append]
      · obtain ⟨⟨front, r⟩, hs, hp⟩ := Option.map_eq_some_iff.mp h
        obtain ⟨rfl, rfl⟩ := Prod.mk.inj hp
        rw [ih hs, List.cons_append]

lemma namesState_iff {type path : String} :
    NamesState type path ↔ ∃ (t : Temporal) (field : List Char),
      localPart type path = t.segment.toList ++ '.' :: field := by
  constructor
  · rintro (⟨field, h⟩ | ⟨field, h⟩)
    · exact ⟨.before, field, h.symm⟩
    · exact ⟨.after, field, h.symm⟩
  · rintro ⟨t, field, h⟩
    cases t with
    | before => exact .inl ⟨field, h.symm⟩
    | after => exact .inr ⟨field, h.symm⟩

section

variable {type path : String} {shows : Bool}

/-- **A path is read** as the state at the front of its local part and the field behind it.  If
paths name no states, the local part is the field. -/
lemma readPath_eq_ok_iff {t : Temporal} {field : String} :
    readPath ⟨some type, shows⟩ type path = .ok (t, field) ↔
      if shows = true then localPart type path = t.segment.toList ++ '.' :: field.toList
      else t = .after ∧ localPart type path = field.toList := by
  rw [readPath, dropResource_eq_localPart]
  cases shows with
  | false =>
      simp only [Bool.false_eq_true, if_false, Except.ok.injEq, Prod.mk.injEq]
      rw [eq_comm (a := Temporal.after), ← String.toList_inj, String.toList_ofList]
  | true =>
      simp only [if_true]
      constructor
      · intro h
        split at h
        · cases h
        · next segment rest hsplit =>
          split at h
          · next u hu =>
            obtain ⟨rfl, rfl⟩ := Prod.mk.inj (Except.ok.inj h)
            rw [eq_of_splitAtPoint?_eq hsplit, ← Temporal.ofSegment?_eq_some_iff.mp hu,
              String.toList_ofList, String.toList_ofList]
          · cases h
      · intro h
        rw [h, splitAtPoint?_append (point_notMem_segment t)]
        simp [Temporal.ofSegment?_eq_some_iff.mpr rfl]

lemma eq_noTemporal_of_readPath_eq {s : Scope} {f : Failure}
    (h : s.readPath type path = .error f) : s.showsTemporal = true ∧ f = .noTemporal path := by
  unfold readPath at h
  dsimp only at h
  split_ifs at h with hshows
  split at h
  · exact ⟨hshows, (Except.error.inj h).symm⟩
  · split at h
    · cases h
    · exact ⟨hshows, (Except.error.inj h).symm⟩

/-- **The paths that are not read** are those that name no state although they should. -/
lemma fault?_readPath :
    fault? (readPath ⟨some type, shows⟩ type path) =
      if shows = true ∧ ¬ NamesState type path then some (.noTemporal path) else none := by
  cases h : readPath ⟨some type, shows⟩ type path with
  | error f =>
      obtain ⟨hshows, rfl⟩ := eq_noTemporal_of_readPath_eq h
      obtain rfl : shows = true := hshows
      refine (if_pos ⟨rfl, fun hnames => ?_⟩).symm
      obtain ⟨t, field, hpart⟩ := namesState_iff.mp hnames
      have hread : readPath ⟨some type, true⟩ type path = .ok (t, String.ofList field) := by
        rw [readPath_eq_ok_iff, if_pos rfl, hpart, String.toList_ofList]
      rw [hread] at h
      cases h
  | ok place =>
      obtain ⟨t, field⟩ := place
      rw [readPath_eq_ok_iff] at h
      refine (if_neg ?_).symm
      rintro ⟨rfl, hnames⟩
      exact hnames (namesState_iff.mpr ⟨t, field.toList, by simpa using h⟩)

/-- **A path that was read is written as it was,** with the resource type in front. -/
lemma fieldPath_of_readPath_eq {t : Temporal} {field : String}
    (h : readPath ⟨some type, shows⟩ type path = .ok (t, field)) :
    fieldPath type t field shows = completed type path := by
  rw [readPath_eq_ok_iff] at h
  rw [← String.toList_inj, toList_completed]
  cases shows with
  | true => simp [fieldPath, show localPart type path = _ by simpa using h]
  | false => simp [fieldPath, show localPart type path = _ by simpa using h.2]

end

/-! ## Expressions -/

lemma fault?_map {ε α β : Type} (x : Except ε α) (f : α → β) : fault? (x.map f) = fault? x := by
  cases x <;> rfl

/-- Of several rules the first one decides whose path names no state. -/
lemma findSome?_fault?_readPath (type : String) (shows : Bool)
    (place : Temporal × String → Rule → Rule) (rs : List Rule) :
    (rs.findSome? fun r => fault?
      ((readPath ⟨some type, shows⟩ type r.field).map fun p => place p r)) =
      if shows = true then
        ((rs.map Rule.field).find? fun p => ¬ NamesState type p).map .noTemporal
      else none := by
  induction rs with
  | nil => simp
  | cons r rs ih =>
      rw [List.findSome?_cons, fault?_map, fault?_readPath, ih, List.map_cons, List.find?_cons]
      cases shows with
      | false => simp
      | true => by_cases hr : NamesState type r.field <;> simp [hr]

/-- Whatever paths an expression has, if it is read it is written on the same paths, completed. -/
lemma toExpr?_of_toGroup_eq {type : String} {shows : Bool} {e : Expr} {t : Group}
    (h : toGroup ⟨some type, shows⟩ e = .ok t) :
    toExpr? ⟨some type, shows⟩ t =
      (Group.ofExpr e).toExpr?.map (mapNames (completed type)) := by
  have hread := Group.exists_of_tryRules_eq h
  obtain rfl := Group.eq_mapRules_of_tryRules_eq h
  rw [toExpr?]
  dsimp only
  rw [Group.mapRules_mapRules]
  refine Node.toExpr?_mapRules (Group.ofExpr e).toNode fun r hr => ?_
  obtain ⟨q, hq⟩ := hread r hr
  obtain ⟨⟨t, field⟩, hplace, rfl⟩ := map_eq_ok_iff.mp hq
  have hpath := fieldPath_of_readPath_eq hplace
  rw [Function.comp_apply, hq]
  dsimp only [Except.toOption, Option.getD_some]
  rw [hpath]
  exact r.toExpr_placed t (completed type)

/-- **An expression is read whole or not at all, and loses nothing of its paths.**  It fails if
paths name states and the path of some rule does not, for the first such path in the order of the
rules.  Otherwise the tree that was read is written as the one read without the scope is, but with
the resource type in front of every name that lacked it. -/
theorem toGroup_and_toExpr?_completed (type : String) (shows : Bool) (e : Expr) :
    (∀ f, toGroup ⟨some type, shows⟩ e = .error f ↔
      shows = true ∧ ∃ p, ((Group.ofExpr e).rules.map Rule.field).find?
        (fun p => ¬ NamesState type p) = some p ∧ f = .noTemporal p) ∧
    ∀ t, toGroup ⟨some type, shows⟩ e = .ok t →
      toExpr? ⟨some type, shows⟩ t =
        (Group.ofExpr e).toExpr?.map (mapNames (completed type)) := by
  refine ⟨fun f => ?_, fun t => toExpr?_of_toGroup_eq⟩
  have hfirst := findSome?_fault?_readPath type shows
    (fun p r => { r with temporal := p.1, field := p.2 }) (Group.ofExpr e).rules
  have hfault := Group.tryRules_eq_error_iff (e := f) (g := Group.ofExpr e) (f := fun r =>
    (readPath ⟨some type, shows⟩ type r.field).map fun p =>
      { r with temporal := p.1, field := p.2 })
  rw [hfirst] at hfault
  refine Iff.trans hfault ?_
  cases shows with
  | false => simp
  | true => simp [Option.map_eq_some_iff, eq_comm (a := f)]

/-- Membership on a path without the resource type, with a value among the others that no rule can
hold, and a path whose field begins like a path. -/
def foreignExpr : Expr :=
  .or [.compare .isIn ⟨"after.dept", .array [.string "x", .array []]⟩,
    .not (.compare .equals ⟨"user.before.user.sn", .null⟩), .all]

theorem toGroup_and_toExpr?_completed_foreignExpr :
    (∃ t, toGroup ⟨some "user", true⟩ foreignExpr = .ok t ∧
      toExpr? ⟨some "user", true⟩ t =
        some (.or [.or [Expr.equals "user.after.dept" (.string "x"),
          Expr.equals "user.after.dept" .null],
          .not (Expr.equals "user.before.user.sn" .null)])) ∧
    toGroup ⟨some "after", true⟩ foreignExpr = .error (.noTemporal "after.dept") := by
  obtain ⟨hfails, hwritten⟩ := toGroup_and_toExpr?_completed "user" true foreignExpr
  obtain ⟨hfailsAfter, -⟩ := toGroup_and_toExpr?_completed "after" true foreignExpr
  have hnames : ((Group.ofExpr foreignExpr).rules.map Rule.field).find?
      (fun p => ¬ NamesState "user" p) = none := by decide
  have hexpr : (Group.ofExpr foreignExpr).toExpr? =
      some (.or [.or [Expr.equals "after.dept" (.string "x"), Expr.equals "after.dept" .null],
        .not (Expr.equals "user.before.user.sn" .null)]) := by decide
  refine ⟨?_, (hfailsAfter _).mpr ⟨rfl, "after.dept", by decide, rfl⟩⟩
  cases hread : toGroup ⟨some "user", true⟩ foreignExpr with
  | error f =>
      obtain ⟨-, p, hp, -⟩ := (hfails f).mp hread
      rw [hnames] at hp
      cases hp
  | ok t =>
      refine ⟨t, rfl, ?_⟩
      rw [hwritten t hread, hexpr]
      rfl

end Scope

end AccessFilter
