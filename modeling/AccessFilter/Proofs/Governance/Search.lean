import AccessFilter.Governance.Search
import AccessFilter.Proofs.Query.Normal

/-!
# Ready-made searches say what was typed

What a user typed becomes the value of a comparison, and the comparison a part of a query.  However
the text is made up, of quotes, backslashes, parentheses or words of the notation, the query is read
as that comparison with that text.  So a text cannot change what the rest of the query asks for.

**What is read** is not quite what was built: an or of one priority comes back as the priority.  The
searches below are said without the builders: which equalities there are, which priorities, and how
they are put together.

* `Search.entered?` — the text that counts as typed.
* `RequestCriteria.equalities`, `Search.Priorities.tests`, `RequestCriteria.operands` — what a search
  for requests asks for.
* `Query.Fits` — expressions that can be written, and how deeply they nest then.
* **`Search.parse_print_filters`** — what is read of the ready-made searches.
-/

namespace AccessFilter

/-! ## What a search asks for -/

namespace Search

/-- A text without the blanks around it, none if nothing is left of it. -/
def entered? (text : Option String) : Option String :=
  (text.map Text.trimmed).filter fun s => !s.isEmpty

/-- The tests for the ticked priorities, any of which is enough. -/
def Priorities.tests (p : Priorities) : List Expr :=
  [(p.high, Expr.equals priorityField (.string "high")),
    (p.medium, Expr.equals priorityField (.string "medium")),
    (p.low, Expr.equals priorityField (.string "low")),
    (p.none, .not (Expr.isPresent priorityField))].filterMap fun (ticked, e) =>
      if ticked then some e else Option.none

/-- The tests for decisions in progress whose phase has a text in one of its two names. -/
def inPhase (text : String) : Expr :=
  .and
    [.or [Expr.contains phaseNameField (.string text),
      Expr.contains phaseDisplayNameField (.string text)],
    Expr.equals decisionStatusField (.string inProgress)]

end Search

namespace RequestCriteria

/-- The texts of a search, each with the field it is about. -/
def texts (s : RequestCriteria) : List (String × Option String) :=
  [(Search.requestIdField, s.requestId), (Search.requesterField, s.requester),
    (Search.requestedForField, s.requestedFor), (Search.requestTypeField, s.requestType)]

/-- One equality for each text that was typed. -/
def equalities (s : RequestCriteria) : List Expr :=
  s.texts.filterMap fun (name, text) =>
    (Search.entered? text).map fun typed => Expr.equals name (.string typed)

/-- All that a search asks for: the equalities, then one of the priorities. -/
def operands (s : RequestCriteria) : List Expr :=
  s.equalities ++ (Query.regroup .or s.priorities.tests).toList

/-- Whether nothing was typed but blanks, and nothing ticked. -/
def IsBlank (s : RequestCriteria) : Prop :=
  (∀ field ∈ s.texts, ∀ text ∈ field.2, Text.isBlankText text = true) ∧
    s.priorities = ⟨false, false, false, false⟩

end RequestCriteria

/-! ## Expressions that can be written -/

namespace Query

/-- An expression can be written, with no more parentheses inside one another than a number. -/
structure Fits (height : Nat) (e : Expr) : Prop where
  writable : ∀ l ∈ leaves e, Writable l
  writtenHeight_le : writtenHeight e ≤ height

/-- **What is read of a written expression,** or of none at all. -/
lemma parse_print_of_fits {e : Option Expr} (h : ∀ f ∈ e, Fits nestingLimit f) :
    parse (print e) = .ok ((e.bind normal?).getD .all) := by
  have hsome : ∀ f : Expr, Fits nestingLimit f → parse (print (some f)) = .ok (normal f) := by
    intro f hf
    have hnesting : nesting (print (some f)).toList ≤ nestingLimit := by
      rw [nesting_print hf.writable]
      exact hf.writtenHeight_le
    rw [parse_print hf.writable, if_pos hnesting]
  cases e with
  | none => exact hsome .all ⟨nofun, Nat.zero_le _⟩
  | some f => exact hsome f (h f rfl)

lemma Fits.mono {m k : Nat} {e : Expr} (h : Fits m e) (hmk : m ≤ k) : Fits k e :=
  ⟨h.writable, h.writtenHeight_le.trans hmk⟩

/-- **Any text can be compared with.** -/
lemma fits_compare {c : Comparison} (hc : ∀ t, comparedValues c t = [t.value]) {name : String}
    (hname : IsName name) (text : String) : Fits 0 (.compare c ⟨name, .string text⟩) := by
  refine ⟨List.forall_mem_singleton.mpr ⟨hname, ?_⟩, Nat.le_refl 0⟩
  rw [hc, List.forall_mem_singleton]
  exact nofun

lemma fits_not_isPresent {name : String} (hname : IsName name) :
    Fits 1 (.not (Expr.isPresent name)) :=
  ⟨List.forall_mem_singleton.mpr ⟨hname, nofun⟩, Nat.le_refl 1⟩

/-- The operands of a group stand in parentheses. -/
lemma fits_group {make : List Expr → Expr} (hleaves : ∀ es, leaves (make es) = leavesAll es)
    (hheight : ∀ es, writtenHeight (make es) = writtenHeights es) {height : Nat} {es : List Expr}
    (h : ∀ e ∈ es, Fits height e) : Fits (height + 1) (make es) := by
  refine ⟨?_, ?_⟩
  · rw [hleaves]
    exact writable_leavesAll fun e he => (h e he).writable
  · rw [hheight]
    exact writtenHeights_le fun e he => (h e he).writtenHeight_le

lemma fits_and {height : Nat} {es : List Expr} (h : ∀ e ∈ es, Fits height e) :
    Fits (height + 1) (.and es) :=
  fits_group (fun _ => by rw [leaves]) (fun _ => by rw [writtenHeight]) h

lemma fits_or {height : Nat} {es : List Expr} (h : ∀ e ∈ es, Fits height e) :
    Fits (height + 1) (.or es) :=
  fits_group (fun _ => by rw [leaves]) (fun _ => by rw [writtenHeight]) h

lemma fits_regroup_and {height : Nat} {es : List Expr} (h : ∀ e ∈ es, Fits height e) :
    ∀ f ∈ regroup .and es, Fits (height + 1) f := by
  intro f hf
  match es with
  | [e] =>
      obtain rfl := Option.some.inj hf
      exact (h _ List.mem_cons_self).mono (Nat.le_succ _)
  | e :: e' :: es =>
      obtain rfl := Option.some.inj hf
      exact fits_and h

lemma normals_append (es fs : List Expr) : normals (es ++ fs) = normals es ++ normals fs := by
  induction es with
  | nil => rfl
  | cons e es ih => rw [List.cons_append, normals, normals, ih, List.append_assoc]

/-- What is left of a group is the group of what is left of its operands, also if the group was left
out around a single one. -/
lemma bind_regroup_and (es : List Expr) :
    (regroup .and es).bind normal? = regroup .and (normals es) := by
  match es with
  | [] => rfl
  | [e] =>
      show normal? e = regroup .and ((normal? e).toList ++ [])
      cases normal? e <;> rfl
  | e :: e' :: es =>
      show normal? (.and (e :: e' :: es)) = _
      rw [normal?]

end Query

/-! ## Requests -/

namespace Search

lemma entered?_eq_none_iff (text : Option String) :
    entered? text = none ↔ ∀ s ∈ text, Text.isBlankText s = true := by
  cases text <;> simp [entered?, Text.trimmed_eq_empty_iff]

lemma typed?_eq_entered? (text : Option String) : typed? text = entered? text := by
  cases text with
  | none => rfl
  | some s =>
      have htrim := Text.trimmed_eq_empty_iff s
      cases hblank : Text.isBlankText s <;>
        simp_all [typed?, entered?, Option.filter]

/-- Of the ticked priorities one is enough. -/
lemma priorityFilter?_eq (p : Priorities) :
    priorityFilter? p = if p.tests = [] then none else some (.or p.tests) := by
  obtain ⟨high, medium, low, without⟩ := p
  cases high <;> cases medium <;> cases low <;> cases without <;> rfl

lemma tests_eq_nil_iff (p : Priorities) : p.tests = [] ↔ p = ⟨false, false, false, false⟩ := by
  obtain ⟨high, medium, low, without⟩ := p
  cases high <;> cases medium <;> cases low <;> cases without <;> simp [Priorities.tests]

lemma fits_of_mem_tests {p : Priorities} {e : Expr} (h : e ∈ p.tests) :
    Query.Fits 1 e ∧ Query.normal? e = some e := by
  have hname : Query.IsName priorityField := by decide
  have hlevel : ∀ level, Query.Fits 1 (Expr.equals priorityField (.string level)) :=
    fun level => (Query.fits_compare (fun _ => rfl) hname level).mono (Nat.zero_le 1)
  obtain ⟨⟨ticked, f⟩, hf, he⟩ := List.mem_filterMap.mp h
  simp only [List.mem_cons, List.not_mem_nil, or_false, Prod.mk.injEq] at hf
  obtain rfl : f = e := Option.some.inj (Option.ite_none_right_eq_some.mp he).2
  rcases hf with ⟨-, rfl⟩ | ⟨-, rfl⟩ | ⟨-, rfl⟩ | ⟨-, rfl⟩
  · exact ⟨hlevel "high", rfl⟩
  · exact ⟨hlevel "medium", rfl⟩
  · exact ⟨hlevel "low", rfl⟩
  · exact ⟨Query.fits_not_isPresent hname, rfl⟩

lemma fits_of_mem_priorityFilter? {p : Priorities} : ∀ e ∈ priorityFilter? p, Query.Fits 2 e := by
  intro e he
  rw [priorityFilter?_eq, Option.mem_def] at he
  split_ifs at he
  obtain rfl := Option.some.inj he
  exact Query.fits_or fun e he => (fits_of_mem_tests he).1

/-- Nothing is left of the or around a single priority. -/
lemma normals_priorityFilter? (p : Priorities) :
    Query.normals (priorityFilter? p).toList = (Query.regroup .or p.tests).toList := by
  rw [priorityFilter?_eq]
  split_ifs with hnone
  · rw [hnone]
    rfl
  · rw [Option.toList_some, Query.normals, Query.normal?,
      Query.normals_eq_self fun e he => (fits_of_mem_tests he).2, Query.normals,
      List.append_nil]

end Search

namespace RequestCriteria

lemma conditions_eq (s : RequestCriteria) :
    s.conditions = s.equalities ++ (Search.priorityFilter? s.priorities).toList := by
  have hsplit : s.conditions = (s.texts.map fun (name, text) => field? name text).filterMap id ++
      [Search.priorityFilter? s.priorities].filterMap id := by
    rw [← List.filterMap_append]
    rfl
  have hfield : ∀ field : String × Option String,
      field? field.1 field.2 = (Search.entered? field.2).map fun typed =>
        Expr.equals field.1 (.string typed) := by
    intro field
    rw [field?, Search.typed?_eq_entered?]
  rw [hsplit, List.filterMap_map]
  simp only [equalities, Function.comp_def, id, hfield]
  cases Search.priorityFilter? s.priorities <;> rfl

lemma filter?_eq (s : RequestCriteria) : s.filter? = Query.regroup .and s.conditions := by
  rw [filter?]
  split <;> simp_all [Query.regroup]

lemma fits_of_mem_equalities {s : RequestCriteria} {e : Expr} (h : e ∈ s.equalities) :
    Query.Fits 0 e ∧ Query.normal? e = some e := by
  have hnames : ∀ field ∈ s.texts, Query.IsName field.1 := by
    simp only [texts, List.forall_mem_cons]
    decide
  obtain ⟨⟨name, text⟩, hfield, he⟩ := List.mem_filterMap.mp h
  obtain ⟨typed, -, rfl⟩ := Option.map_eq_some_iff.mp he
  exact ⟨Query.fits_compare (fun _ => rfl) (hnames _ hfield) typed, rfl⟩

/-- **What is left of a search for requests** is what it asks for. -/
lemma normals_conditions (s : RequestCriteria) : Query.normals s.conditions = s.operands := by
  rw [conditions_eq, Query.normals_append, Search.normals_priorityFilter?,
    Query.normals_eq_self fun e he => (fits_of_mem_equalities he).2, operands]

lemma fits_filter? (s : RequestCriteria) : ∀ e ∈ s.filter?, Query.Fits 3 e := by
  rw [filter?_eq]
  refine Query.fits_regroup_and ?_
  rw [conditions_eq, List.forall_mem_append]
  refine ⟨fun e he => (fits_of_mem_equalities he).1.mono (Nat.zero_le 2), ?_⟩
  intro e he
  exact Search.fits_of_mem_priorityFilter? e (Option.mem_toList.mp he)

/-- A search asks for nothing exactly if it is blank. -/
lemma operands_eq_nil_iff (s : RequestCriteria) : s.operands = [] ↔ s.IsBlank := by
  have hregroup : Query.regroup .or s.priorities.tests = none ↔ s.priorities.tests = [] :=
    ⟨Query.eq_nil_of_regroup_eq_none, fun h => by rw [h]; rfl⟩
  rw [operands, List.append_eq_nil_iff, Option.toList_eq_nil_iff, hregroup,
    Search.tests_eq_nil_iff, equalities, List.filterMap_eq_nil_iff, IsBlank]
  simp only [Option.map_eq_none_iff, Search.entered?_eq_none_iff]

end RequestCriteria

/-! ## Decisions -/

namespace Search

lemma activePhaseFilter?_eq (text : Option String) :
    activePhaseFilter? text = (entered? text).map inPhase := by
  rw [activePhaseFilter?, typed?_eq_entered?]
  rfl

lemma fits_inPhase (text : String) : Query.Fits 2 (inPhase text) := by
  refine Query.fits_and ?_
  rw [List.forall_mem_cons, List.forall_mem_singleton]
  refine ⟨Query.fits_or ?_,
    (Query.fits_compare (fun _ => rfl) (by decide) inProgress).mono (Nat.zero_le 1)⟩
  rw [List.forall_mem_cons, List.forall_mem_singleton]
  exact ⟨Query.fits_compare (fun _ => rfl) (by decide) text,
    Query.fits_compare (fun _ => rfl) (by decide) text⟩

/-- **What a user typed is only ever compared with.**  A search for requests is read as an equality
for each text that is not blank, in the order of the fields and with the text as it was typed but for
the blanks around it, and one of the ticked priorities; as everything, if there is neither.  A search
for decisions is read with the typed text in both comparisons with a name of the phase. -/
theorem parse_print_filters (s : RequestCriteria) (text : Option String) :
    Query.parse (Query.print s.filter?) = .ok ((Query.regroup .and s.operands).getD .all) ∧
      (s.operands = [] ↔ s.IsBlank) ∧
      Query.parse (Query.print (activePhaseFilter? text)) =
        .ok (((entered? text).map inPhase).getD .all) ∧
      (entered? text = none ↔ ∀ typed ∈ text, Text.isBlankText typed = true) := by
  refine ⟨?_, s.operands_eq_nil_iff, ?_, entered?_eq_none_iff text⟩
  · rw [Query.parse_print_of_fits fun e he => (s.fits_filter? e he).mono (by decide), s.filter?_eq,
      Query.bind_regroup_and, s.normals_conditions]
  · have hfits : ∀ e ∈ activePhaseFilter? text, Query.Fits nestingLimit e := by
      intro e he
      rw [activePhaseFilter?_eq, Option.mem_def] at he
      obtain ⟨typed, -, rfl⟩ := Option.map_eq_some_iff.mp he
      exact (fits_inPhase typed).mono (by decide)
    rw [Query.parse_print_of_fits hfits, activePhaseFilter?_eq]
    cases entered? text <;> rfl

/-- A quote and words of the notation in one text, blanks in another one, and two priorities. -/
def quotedCriteria : RequestCriteria :=
  ⟨some " x' or true ", none, some "\t", none, ⟨true, false, false, true⟩⟩

theorem parse_print_filters_quotedCriteria :
    Query.print quotedCriteria.filter? =
        "(request.id eq 'x\\' or true') and " ++
          "((request.common.priority eq 'high') or (!(request.common.priority pr)))" ∧
      Query.parse (Query.print quotedCriteria.filter?) =
        .ok (.and [Expr.equals "request.id" (.string "x' or true"),
          .or [Expr.equals "request.common.priority" (.string "high"),
            .not (Expr.isPresent "request.common.priority")]]) := by
  have hoperands : quotedCriteria.operands =
      [Expr.equals "request.id" (.string "x' or true"),
        .or [Expr.equals "request.common.priority" (.string "high"),
          .not (Expr.isPresent "request.common.priority")]] := by decide
  obtain ⟨hparse, -⟩ := parse_print_filters quotedCriteria none
  rw [hoperands] at hparse
  exact ⟨by decide, hparse⟩

end Search

end AccessFilter
