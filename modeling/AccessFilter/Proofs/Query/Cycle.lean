import AccessFilter.Proofs.Query.Normal
import AccessFilter.Proofs.Query.Soundness

/-!
# Reading, writing, reading again

A query that was read comes back as the same expression when it is written and read again, unless
what is written cannot be read.  A query may be read that relies on precedence, and precedence is
not used in what is written: every operand of and and or stands in parentheses there.  So a text can
nest three times as deeply as the one it was read from, and that can be too deep.

* `Operand.settled` — what is read is its own normal form.
* `Operand.writtenHeight_le` — how deeply it nests when it is written.
* **`parse_print_parse`** — an expression that was read is read again, if its text can be read at
  all.
* **`not_forall_parse_print_parse`** — some accepted query is written as one that is rejected.
-/

namespace AccessFilter.Query

/-! ## What is read is its own normal form -/

/-- A comparison whose values, as far as they are floats, are read back from their texts. -/
def FloatsReadBack (l : Comparison × Target) : Prop :=
  ∀ x, Json.number (.float x) ∈ comparedValues l.1 l.2 →
    Number.ofQueryToken? (Number.float x).text = some (.float x)

lemma Name.isName (n : Name) : IsName (String.ofList n.chars) := by
  rw [IsName, String.toList_ofList]
  refine ⟨?_, ?_, n.free⟩
  · rw [Name.chars, List.head?_cons, Option.any_some]
    exact n.letter
  · exact List.all_eq_true.mpr n.isNameChar

/-- A whole number that is read off a query has 64 bits. -/
lemma int_bounds_of_ofQueryToken? {s : List Char} {n : Int}
    (h : Number.ofQueryToken? s = some (.int n)) :
    -0x8000000000000000 ≤ n ∧ n < 0x8000000000000000 := by
  have hfloat : ∀ x : Option Binary64, x.map Number.float ≠ some (.int n) := by
    rintro (_ | x) hx <;> cases hx
  unfold Number.ofQueryToken? at h
  split at h
  · cases h
  · split at h
    · split_ifs at h with hbounds
      · obtain rfl := Number.int.inj (Option.some.inj h)
        exact hbounds
      · exact absurd h (hfloat _)
    · exact absurd h (hfloat _)

/-- A value that is read is no array and no object. -/
lemma ValueForm.normalValue_json (v : ValueForm) : normalValue v.json = v.json := by
  cases v <;> rfl

lemma ValueForm.readsBack_json (v : ValueForm)
    (hfloats : ∀ x, v.json = .number (.float x) →
      Number.ofQueryToken? (Number.float x).text = some (.float x)) : ReadsBack v.json := by
  intro n hn
  cases v with
  | quoted | bool | null => cases hn
  | number cs m hm =>
      obtain rfl := Json.number.inj hn
      cases m with
      | int i => exact Number.ofQueryToken?_intText (int_bounds_of_ofQueryToken? hm)
      | float x => exact hfloats x rfl

/-- A comparison that has a word is with one value. -/
lemma ComparisonWord.one_value (w : ComparisonWord) (t : Target) :
    normalCompare? w.comparison t = some (.compare w.comparison ⟨t.name, normalValue t.value⟩) ∧
      comparedValues w.comparison t = [t.value] := by
  have hwords : ∀ x ∈ comparisonWords, x.2 ≠ .exists ∧ x.2 ≠ .isIn ∧ x.2 ≠ .hasChanged := by decide
  obtain ⟨hexists, hisIn, hchanged⟩ := hwords _ w.listed
  dsimp only at hexists hisIn hchanged
  cases hc : w.comparison with
  | «exists» => exact absurd hc hexists
  | isIn => exact absurd hc hisIn
  | hasChanged => exact absurd hc hchanged
  | equals | contains | startsWith | endsWith | greaterThan | greaterOrEqual | lessThan
  | lessOrEqual => exact ⟨rfl, rfl⟩

lemma leaves_joinExprs {make : List Expr → Expr} (hmake : ∀ es, leaves (make es) = leavesAll es)
    (es : List Expr) : leaves (joinExprs make es) = leavesAll es := by
  match es with
  | [] => exact hmake []
  | [e] => exact (List.append_nil _).symm
  | e :: e' :: es => exact hmake _

/-- Settled expressions are joined to a settled one. -/
lemma settled_joinExprs {make : List Expr → Expr}
    (hmake : ∀ es, normal? (make es) = regroup make (normals es))
    (hleaves : ∀ es, leaves (make es) = leavesAll es) {es : List Expr} (hne : es ≠ [])
    (h : ∀ e ∈ es, Settled e) : Settled (joinExprs make es) := by
  obtain ⟨e, es, rfl⟩ := List.exists_cons_of_ne_nil hne
  exact settled_of_regroup hmake hleaves h (regroup_cons make e es)

lemma Conjunction.exprs_ne_nil (c : Conjunction) : c.exprs ≠ [] := by
  cases c <;> rw [Conjunction.exprs] <;> exact List.cons_ne_nil _ _

lemma Disjunction.exprs_ne_nil (d : Disjunction) : d.exprs ≠ [] := by
  cases d <;> rw [Disjunction.exprs] <;> exact List.cons_ne_nil _ _

lemma Conjunction.leaves_expr (c : Conjunction) : leaves c.expr = leavesAll c.exprs :=
  leaves_joinExprs (fun _ => by rw [leaves]) c.exprs

lemma Disjunction.leaves_expr (d : Disjunction) : leaves d.expr = leavesAll d.exprs :=
  leaves_joinExprs (fun _ => by rw [leaves]) d.exprs

mutual

/-- **What is read is its own normal form,** and can be written. -/
theorem Operand.settled : ∀ o : Operand, (∀ l ∈ leaves o.expr, FloatsReadBack l) → Settled o.expr
  | .negation gap before d after, h => by
      obtain ⟨hself, hleaves⟩ := Disjunction.settled d h
      have hexpr : (Operand.negation gap before d after).expr = .not d.expr := by
        rw [Operand.expr]
        rfl
      rw [hexpr]
      exact ⟨by rw [normal?, hself]; rfl, hleaves⟩
  | .parentheses before d after, h => Disjunction.settled d h
  | .all w, _ => ⟨rfl, nofun⟩
  | .present n g w, _ => ⟨rfl, List.forall_mem_singleton.mpr ⟨n.isName, nofun⟩⟩
  | .compare n g w p v, h => by
      obtain ⟨hnormal, hvalues⟩ := w.one_value ⟨String.ofList n.chars, v.json⟩
      have hfloats := h _ (List.mem_singleton_self _)
      rw [FloatsReadBack, hvalues] at hfloats
      refine ⟨?_, List.forall_mem_singleton.mpr ⟨n.isName, ?_⟩⟩
      · rw [Operand.expr, normal?, hnormal, v.normalValue_json]
      · rw [hvalues, List.forall_mem_singleton]
        exact v.readsBack_json fun x hx => hfloats x (hx ▸ List.mem_singleton_self _)

lemma Conjunction.settled_exprs : ∀ c : Conjunction, (∀ l ∈ leavesAll c.exprs, FloatsReadBack l) →
    ∀ e ∈ c.exprs, Settled e
  | .single o, h => by
      rw [Conjunction.exprs, List.forall_mem_singleton]
      exact o.settled fun l hl => h l (List.mem_append_left _ hl)
  | .joined o j c, h => by
      rw [Conjunction.exprs, leavesAll, List.forall_mem_append] at h
      rw [Conjunction.exprs, List.forall_mem_cons]
      exact ⟨o.settled h.1, c.settled_exprs h.2⟩

lemma Conjunction.settled (c : Conjunction) (h : ∀ l ∈ leaves c.expr, FloatsReadBack l) :
    Settled c.expr :=
  settled_joinExprs (fun _ => by rw [normal?]) (fun _ => by rw [leaves]) c.exprs_ne_nil
    (c.settled_exprs (by rwa [← c.leaves_expr]))

lemma Disjunction.settled_exprs : ∀ d : Disjunction, (∀ l ∈ leavesAll d.exprs, FloatsReadBack l) →
    ∀ e ∈ d.exprs, Settled e
  | .single c, h => by
      rw [Disjunction.exprs, List.forall_mem_singleton]
      exact c.settled fun l hl => h l (List.mem_append_left _ hl)
  | .joined c j d, h => by
      rw [Disjunction.exprs, leavesAll, List.forall_mem_append] at h
      rw [Disjunction.exprs, List.forall_mem_cons]
      exact ⟨c.settled h.1, d.settled_exprs h.2⟩

lemma Disjunction.settled (d : Disjunction) (h : ∀ l ∈ leaves d.expr, FloatsReadBack l) :
    Settled d.expr :=
  settled_joinExprs (fun _ => by rw [normal?]) (fun _ => by rw [leaves]) d.exprs_ne_nil
    (d.settled_exprs (by rwa [← d.leaves_expr]))

end

/-! ## How deeply it nests when it is written -/

/-- Joining expressions adds one pair of parentheses around each of them. -/
lemma writtenHeight_joinExprs_le {make : List Expr → Expr}
    (hmake : ∀ es, writtenHeight (make es) = writtenHeights es) {height : Nat} {es : List Expr}
    (hne : es ≠ []) (h : ∀ e ∈ es, writtenHeight e ≤ height) :
    writtenHeight (joinExprs make es) ≤ height + 1 := by
  obtain ⟨e, es, rfl⟩ := List.exists_cons_of_ne_nil hne
  exact writtenHeight_le_of_regroup hmake h (regroup_cons make e es)

mutual

/-- **What is read is written with at most three pairs of parentheses for each one** that it was
read with: an or stands in those that were read, its ands and their operands in others. -/
theorem Operand.writtenHeight_le : ∀ o : Operand, writtenHeight o.expr ≤ 3 * o.height
  | .negation gap before d after => by
      have hd := d.writtenHeight_le
      have hle := enclosed_le (normal? d.expr) (writtenHeight d.expr)
      have hexpr : (Operand.negation gap before d after).expr = .not d.expr := by
        rw [Operand.expr]
        rfl
      rw [hexpr, writtenHeight, Operand.height]
      omega
  | .parentheses before d after => by
      have hd := d.writtenHeight_le
      have hexpr : (Operand.parentheses before d after).expr = d.expr := by
        rw [Operand.expr]
        rfl
      rw [hexpr, Operand.height]
      omega
  | .all _ | .present .. | .compare .. => by
      rw [Operand.expr]
      exact Nat.zero_le _

lemma Conjunction.writtenHeight_le_of_mem : ∀ c : Conjunction,
    ∀ e ∈ c.exprs, writtenHeight e ≤ 3 * c.height
  | .single o => by
      rw [Conjunction.exprs, Conjunction.height, List.forall_mem_singleton]
      exact o.writtenHeight_le
  | .joined o j c => by
      have ho := o.writtenHeight_le
      rw [Conjunction.exprs, Conjunction.height, List.forall_mem_cons]
      refine ⟨by omega, fun e he => ?_⟩
      have hc := c.writtenHeight_le_of_mem e he
      omega

lemma Conjunction.writtenHeight_le (c : Conjunction) :
    writtenHeight c.expr ≤ 3 * c.height + 1 :=
  writtenHeight_joinExprs_le (fun _ => by rw [writtenHeight]) c.exprs_ne_nil
    c.writtenHeight_le_of_mem

lemma Disjunction.writtenHeight_le_of_mem : ∀ d : Disjunction,
    ∀ e ∈ d.exprs, writtenHeight e ≤ 3 * d.height + 1
  | .single c => by
      rw [Disjunction.exprs, Disjunction.height, List.forall_mem_singleton]
      exact c.writtenHeight_le
  | .joined c j d => by
      have hc : writtenHeight (joinExprs .and c.exprs) ≤ 3 * c.height + 1 := c.writtenHeight_le
      rw [Disjunction.exprs, Disjunction.height, List.forall_mem_cons]
      refine ⟨by omega, fun e he => ?_⟩
      have hd := d.writtenHeight_le_of_mem e he
      omega

lemma Disjunction.writtenHeight_le (d : Disjunction) :
    writtenHeight d.expr ≤ 3 * d.height + 2 :=
  writtenHeight_joinExprs_le (fun _ => by rw [writtenHeight]) d.exprs_ne_nil
    d.writtenHeight_le_of_mem

end

/-! ## The cycle -/

/-- **What was read is read again.**  The expression of a query is written with at most three pairs
of parentheses for each one of the query, and two more.  If this text keeps the nesting limit it is
read as the same expression; otherwise it is rejected. -/
theorem parse_print_parse (s : String) (e : Expr) (h : parse s = .ok e)
    (hfloats : ∀ l ∈ leaves e, FloatsReadBack l) :
    nesting (print (some e)).toList ≤ 3 * nesting (Text.trim s.toList) + 2 ∧
      parse (print (some e)) =
        if nesting (print (some e)).toList ≤ nestingLimit then .ok e else .error .tooDeep := by
  obtain ⟨d, hd, -, rfl⟩ := exists_disjunction_of_parse_eq h
  obtain ⟨hself, hwritable⟩ := d.settled hfloats
  refine ⟨?_, ?_⟩
  · rw [nesting_print hwritable, ← hd, d.nesting_text]
    exact d.writtenHeight_le
  · have hnormal : normal d.expr = d.expr := by rw [normal, hself, Option.getD_some]
    rw [parse_print hwritable, hnormal]

/-- One and a half. -/
def sesqui : Binary64 :=
  ⟨false, 0x3FF8000000000000, by decide⟩

/-- The expression of a query in which an and, a not and a float stand without parentheses. -/
def precedenceExpr : Expr :=
  .or [.and [Expr.isPresent "a",
      .not (.compare .greaterThan ⟨"b", .number (.float sesqui)⟩)],
    Expr.contains "c" (.string "x'")]

theorem parse_print_parse_precedenceExpr :
    parse " a PR and ! ( b gt 1.50 ) or c co 'x\\'' " = .ok precedenceExpr ∧
      print (some precedenceExpr) = "((a pr) and (!(b gt 1.5))) or (c co 'x\\'')" ∧
      parse "((a pr) and (!(b gt 1.5))) or (c co 'x\\'')" = .ok precedenceExpr := by
  have hread : parse " a PR and ! ( b gt 1.50 ) or c co 'x\\'' " = .ok precedenceExpr := by
    decide +kernel
  have hprint : print (some precedenceExpr) = "((a pr) and (!(b gt 1.5))) or (c co 'x\\'')" := by
    decide +kernel
  have hfloats : ∀ l ∈ leaves precedenceExpr, FloatsReadBack l := by
    intro l hl x hx
    obtain rfl : x = sesqui := by
      simp only [precedenceExpr, leaves, leavesAll, Expr.isPresent, Expr.contains, List.append_nil,
        List.cons_append, List.nil_append, List.mem_cons, List.not_mem_nil, or_false] at hl
      rcases hl with rfl | rfl | rfl
      · cases hx
      · simpa [comparedValues] using hx
      · simp [comparedValues] at hx
    decide +kernel
  obtain ⟨-, h⟩ := parse_print_parse _ precedenceExpr hread hfloats
  rw [hprint, if_pos (by decide)] at h
  exact ⟨hread, hprint, h⟩

/-- A query under so many nots. -/
def under : Nat → Disjunction → Disjunction
  | 0, d => d
  | depth + 1, d => .single (.single (.negation noBlanks noBlanks (under depth d) noBlanks))

lemma height_under (depth : Nat) (d : Disjunction) : (under depth d).height = d.height + depth := by
  induction depth with
  | zero => rfl
  | succ depth ih =>
      rw [under, Disjunction.height, Conjunction.height, Operand.height, ih]
      rfl

lemma expr_under_succ (depth : Nat) (d : Disjunction) :
    (under (depth + 1) d).expr = .not (under depth d).expr := by
  rw [under, Disjunction.expr, Disjunction.exprs, Conjunction.exprs, Operand.expr]
  rfl

lemma leaves_expr_under (depth : Nat) (d : Disjunction) :
    leaves (under depth d).expr = leaves d.expr := by
  induction depth with
  | zero => rfl
  | succ depth ih => rw [expr_under_succ, leaves, ih]

lemma writtenHeight_expr_under {d : Disjunction} (h : ∀ l ∈ leaves d.expr, FloatsReadBack l)
    (depth : Nat) : writtenHeight (under depth d).expr = writtenHeight d.expr + depth := by
  induction depth with
  | zero => rfl
  | succ depth ih =>
      obtain ⟨hself, -⟩ := (under depth d).settled (by rwa [leaves_expr_under])
      rw [expr_under_succ, writtenHeight, enclosed_of_eq_some hself, ih]
      rfl

/-- **At the limit the cycle breaks.**  Under as many nots as may be, a query that is written with
parentheses it was not read with is read, and is written with one pair of parentheses too many. -/
theorem parse_print_under {d : Disjunction} (hheight : d.height = 0)
    (hwritten : 0 < writtenHeight d.expr) (h : ∀ l ∈ leaves d.expr, FloatsReadBack l) :
    parse (String.ofList (under nestingLimit d).text) = .ok (under nestingLimit d).expr ∧
      parse (print (some (under nestingLimit d).expr)) = .error .tooDeep := by
  have hread : parse (String.ofList (under nestingLimit d).text) =
      .ok (under nestingLimit d).expr := by
    rw [parse_text, Disjunction.nesting_text, height_under, hheight, if_pos (by decide)]
  have hfloats : ∀ l ∈ leaves (under nestingLimit d).expr, FloatsReadBack l := by
    rwa [leaves_expr_under]
  obtain ⟨-, hwritable⟩ := (under nestingLimit d).settled hfloats
  refine ⟨hread, ?_⟩
  rw [parse_print hwritable, nesting_print hwritable, writtenHeight_expr_under h, if_neg (by omega)]

/-- Two tests for presence, joined by or. -/
def eitherPresent : Disjunction :=
  disjunctionOf (.present ⟨'a', [], by decide, nofun, by decide⟩ space ⟨['p', 'r'], rfl⟩)
    [.present ⟨'b', [], by decide, nofun, by decide⟩ space ⟨['p', 'r'], rfl⟩]

/-- **So not every accepted query is written as an accepted one.** -/
theorem not_forall_parse_print_parse :
    ¬ ∀ (s : String) (e : Expr), parse s = .ok e → (∀ l ∈ leaves e, FloatsReadBack l) →
      parse (print (some e)) = .ok e := by
  intro hall
  have hfloats : ∀ l ∈ leaves eitherPresent.expr, FloatsReadBack l := by
    have hexpr : eitherPresent.expr = .or [Expr.isPresent "a", Expr.isPresent "b"] := rfl
    intro l hl x hx
    rw [hexpr] at hl
    simp only [leaves, leavesAll, Expr.isPresent, List.append_nil, List.cons_append,
      List.nil_append, List.mem_cons, List.not_mem_nil, or_false] at hl
    rcases hl with rfl | rfl <;> cases hx
  obtain ⟨hread, hdeep⟩ := parse_print_under (d := eitherPresent) rfl (by decide) hfloats
  have hstable := hall _ _ hread (by rwa [leaves_expr_under])
  rw [hdeep] at hstable
  cases hstable

end AccessFilter.Query
