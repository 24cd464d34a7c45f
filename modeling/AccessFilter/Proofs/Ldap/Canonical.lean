import AccessFilter.Ldap.Printer
import AccessFilter.Proofs.Ldap.Acceptance
import AccessFilter.Proofs.Tree.Shape

/-!
# What comes back of a tree that is written as an LDAP filter

The notation has fewer operators than trees have, so a tree that is written and read again comes
back in another form.  This form is defined here without the printer and the readers.

* `canonicalRule`, `canonicalNode`, `canonical` — the form in which a tree comes back.
* `IsAttribute` — the field names that the notation can express.
* `writtenHeight` — how many parentheses are open at once in the text of a node.
* **`exists_nodeText`** — the text of a node is derived by the grammar, and what it stands for is
  the canonical form of the node.
* **`parse_print_eq_canonical`** — hence a written tree is read as its canonical form.
-/

namespace AccessFilter.Ldap

/-! ## The canonical form -/

/-- A text in which every asterisk is made a literal one. -/
def markStars (s : List Char) : List Char :=
  s.flatMap fun c => if c = '*' then starMark else [c]

/-- The value of a rule as it is shown; no value is shown as nothing. -/
def shown (r : Rule) : List Char :=
  ((r.value.map Scalar.display).getD "").toList

/-- **The form in which a rule comes back.**  Its value is a text, its state the one after a change.
The comparisons with a part of a value become equalities with wildcards, presence the equality with
anything, and the strict comparisons negations of the inclusive ones. -/
def canonicalRule (r : Rule) : Node :=
  let make := fun (operator : Operator) (value : List Char) =>
    Node.rule (Rule.make r.field operator (some (.text (String.ofList value))))
  let literal := markStars (shown r)
  match r.operator with
  | .equals => make .equals (shown r)
  | .notEquals => make .notEquals (shown r)
  | .contains => make .equals ('*' :: literal ++ ['*'])
  | .notContains => make .notEquals ('*' :: literal ++ ['*'])
  | .startsWith => make .equals (literal ++ ['*'])
  | .endsWith => make .equals ('*' :: literal)
  | .greaterOrEqual => make .greaterOrEqual literal
  | .lessOrEqual => make .lessOrEqual literal
  | .greaterThan => .group .not 0 [make .lessOrEqual literal]
  | .lessThan => .group .not 0 [make .greaterOrEqual literal]
  | .exists => make .equals ['*']
  | .notExists => make .notEquals ['*']
  -- these two are never written
  | .hasChanged | .hasNotChanged => .rule r

mutual

/-- **The form in which a node comes back.**  A group without children becomes an and, and the
negation of what is an equality by then becomes the negated equality. -/
def canonicalNode : Node → Node
  | .rule r => canonicalRule r
  | .group _ _ [] => .group .and 0 []
  | .group .not _ [n] =>
    match canonicalNode n with
    | .rule ⟨.equals, field, value, index, temporal⟩ =>
      .rule ⟨.notEquals, field, value, index, temporal⟩
    | m => .group .not 0 [m]
  | .group c _ (n :: ns) => .group c 0 (canonicalNode n :: canonicalNodes ns)

/-- The forms in which several nodes come back. -/
def canonicalNodes : List Node → List Node
  | [] => []
  | n :: ns => canonicalNode n :: canonicalNodes ns

end

/-- **The form in which a tree comes back,** not yet numbered.  Around a root that is no and and no
or by then there is an or. -/
def canonical (g : Group) : Group :=
  Group.ofNode (canonicalNode g.toNode)

/-- How many parentheses are open at once in the text of a rule: one pair stands around the
comparison, another one around its negation. -/
def ruleHeight (r : Rule) : Nat :=
  match r.operator with
  | .notEquals | .notContains | .greaterThan | .lessThan | .notExists => 2
  | _ => 1

mutual

/-- How many parentheses are open at once in the text of a node. -/
def writtenHeight : Node → Nat
  | .rule r => ruleHeight r
  | .group _ _ ns => writtenHeights ns + 1

/-- How many parentheses are open at once in the texts of several nodes. -/
def writtenHeights : List Node → Nat
  | [] => 0
  | n :: ns => max (writtenHeight n) (writtenHeights ns)

end

/-! ## Written values -/

/-- An asterisk that is meant literally, as it is written. -/
def starCode : Piece :=
  .code '2' 'a' 0x2a (by decide)

/-- A wildcard. -/
def wildcard : Piece :=
  .plain '*' (by decide)

/-- The piece that a character of a value is written as. -/
def pieceOf (keepWildcards : Bool) (c : Char) : Piece :=
  if hopen : c = '(' then .code '2' '8' 0x28 (by decide)
  else if hclose : c = ')' then .code '2' '9' 0x29 (by decide)
  else if c = '\x00' then .code '0' '0' 0 (by decide)
  else if c = '*' ∧ keepWildcards = false then starCode
  else if hslash : c = '\\' then .code '5' 'c' 0x5c (by decide)
  else .plain c ⟨hopen, hclose, hslash⟩

/-- The pieces that a value is written as.  The three characters of a literal asterisk are one
piece. -/
def piecesOf (keepWildcards : Bool) : List Char → List Piece
  | [] => []
  | '\\' :: '2' :: 'a' :: s => starCode :: piecesOf keepWildcards s
  | c :: s => pieceOf keepWildcards c :: piecesOf keepWildcards s

lemma text_pieceOf {keepWildcards : Bool} {c : Char} {s : List Char}
    (h : c = '\\' → ['2', 'a'].isPrefixOf s = false) :
    (pieceOf keepWildcards c).text = escapeChar keepWildcards c s := by
  unfold pieceOf escapeChar
  split_ifs <;> simp_all [Piece.text, starCode, starMark]

/-- **Escaping writes these pieces.** -/
lemma textAll_piecesOf (keepWildcards : Bool) (s : List Char) :
    Piece.textAll (piecesOf keepWildcards s) = escape keepWildcards s := by
  fun_induction piecesOf keepWildcards s with
  | case1 => rfl
  | case2 s ih =>
      rw [Piece.textAll_cons, ih]
      simp [escape, escapeChar, starCode, Piece.text]
  | case3 c s h ih =>
      have hpre : c = '\\' → ['2', 'a'].isPrefixOf s = false := by
        intro hc
        rw [Bool.eq_false_iff, ne_eq, List.isPrefixOf_iff_prefix]
        rintro ⟨t, rfl⟩
        exact h t hc rfl
      rw [Piece.textAll_cons, escape, ih, text_pieceOf hpre]

lemma held_pieceOf (keepWildcards : Bool) (c : Char) :
    (pieceOf keepWildcards c).held =
      Text.encode (if c = '*' ∧ keepWildcards = false then starMark else [c]) := by
  by_cases hspecial : c ∈ ['(', ')', '\x00', '*', '\\']
  · simp only [List.mem_cons, List.not_mem_nil, or_false] at hspecial
    rcases hspecial with rfl | rfl | rfl | rfl | rfl <;> cases keepWildcards <;> rfl
  · simp only [List.mem_cons, List.not_mem_nil, or_false, not_or] at hspecial
    obtain ⟨hopen, hclose, hnull, hstar, hslash⟩ := hspecial
    rw [pieceOf, dif_neg hopen, dif_neg hclose, if_neg hnull, if_neg (by simp [hstar]),
      dif_neg hslash, if_neg (by simp [hstar]), Text.encode_singleton]
    rfl

/-- **What these pieces are held as** is the value itself when wildcards are kept, and otherwise the
value with its asterisks made literal. -/
lemma heldAll_piecesOf (keepWildcards : Bool) (s : List Char) :
    Piece.heldAll (piecesOf keepWildcards s) =
      Text.encode (if keepWildcards then s else markStars s) := by
  have hmark : ∀ (c : Char) (s : List Char),
      (if keepWildcards then c :: s else markStars (c :: s)) =
        (if c = '*' ∧ keepWildcards = false then starMark else [c]) ++
          if keepWildcards then s else markStars s := by
    intro c s
    cases keepWildcards <;> simp [markStars]
  fun_induction piecesOf keepWildcards s with
  | case1 => cases keepWildcards <;> rfl
  | case2 s ih =>
      rw [Piece.heldAll_cons, ih, hmark, hmark, hmark]
      rfl
  | case3 c s h ih => rw [Piece.heldAll_cons, ih, hmark, held_pieceOf, Text.encode_append]

/-- No character is written as an escaped one, so what a value is written as cannot be misread. -/
lemma separated_of_forall_ne : ∀ {ps : List Piece}, (∀ p ∈ ps, ∀ c, p ≠ .escaped c) →
    Piece.Separated ps := by
  intro ps h
  induction ps with
  | nil => trivial
  | cons p ps ih =>
      have hps : Piece.Separated ps := ih fun q hq => h q (List.mem_cons_of_mem p hq)
      cases p with
      | plain c hc => exact hps
      | code high low b hb => exact hps
      | escaped c => exact absurd rfl (h _ List.mem_cons_self c)

lemma ne_escaped_of_mem_piecesOf {keepWildcards : Bool} {s : List Char} {p : Piece}
    (hp : p ∈ piecesOf keepWildcards s) (c : Char) : p ≠ .escaped c := by
  fun_induction piecesOf keepWildcards s with
  | case1 => cases hp
  | case2 s ih =>
      rcases List.mem_cons.mp hp with rfl | hp
      · simp [starCode]
      · exact ih hp
  | case3 d s h ih =>
      rcases List.mem_cons.mp hp with rfl | hp
      · unfold pieceOf
        split_ifs <;> simp [starCode]
      · exact ih hp

/-- A text is derived as a value and is held in memory as another one. -/
def Writes (value held : List Char) : Prop :=
  ∃ v : ValueForm, v.text = value ∧ v.held = String.ofList held

/-- **Pieces none of which is an escaped character derive their text.** -/
lemma writes_of_pieces {ps : List Piece} {held : List Char}
    (hps : ∀ p ∈ ps, ∀ c, p ≠ .escaped c) (hheld : Piece.heldAll ps = Text.encode held) :
    Writes (Piece.textAll ps) held := by
  have hdec : Text.decode? (Piece.heldAll ps) = some held := by rw [hheld, Text.decode?_encode]
  refine ⟨⟨ps, separated_of_forall_ne hps, ?_⟩, rfl, ?_⟩
  · rw [← Piece.isSome_decode?_heldAll, hdec]
    rfl
  · rw [ValueForm.held, hdec, Option.getD_some]

/-- A value in which wildcards are kept is held as it is. -/
lemma writes_escape_true (s : List Char) : Writes (escape true s) s := by
  rw [← textAll_piecesOf]
  refine writes_of_pieces (fun p hp => ne_escaped_of_mem_piecesOf hp) ?_
  rw [heldAll_piecesOf, if_pos rfl]

lemma textAll_append (ps qs : List Piece) :
    Piece.textAll (ps ++ qs) = Piece.textAll ps ++ Piece.textAll qs :=
  List.flatMap_append

lemma heldAll_append (ps qs : List Piece) :
    Piece.heldAll (ps ++ qs) = Piece.heldAll ps ++ Piece.heldAll qs :=
  List.flatMap_append

lemma textAll_wildcards (m : Nat) :
    Piece.textAll (List.replicate m wildcard) = List.replicate m '*' := by
  induction m with
  | zero => rfl
  | succ m ih =>
      rw [List.replicate_succ, Piece.textAll_cons, ih, List.replicate_succ]
      rfl

lemma heldAll_wildcards (m : Nat) :
    Piece.heldAll (List.replicate m wildcard) = Text.encode (List.replicate m '*') := by
  induction m with
  | zero => rfl
  | succ m ih =>
      rw [List.replicate_succ, Piece.heldAll_cons, ih, List.replicate_succ, Text.encode]
      rfl

/-- A value without wildcards of its own, between wildcards that are written around it. -/
lemma writes_escape_false (m k : Nat) (s : List Char) :
    Writes (List.replicate m '*' ++ escape false s ++ List.replicate k '*')
      (List.replicate m '*' ++ markStars s ++ List.replicate k '*') := by
  rw [← textAll_wildcards m, ← textAll_wildcards k, ← textAll_piecesOf, ← textAll_append,
    ← textAll_append]
  refine writes_of_pieces ?_ ?_
  · intro p hp c
    simp only [List.mem_append, List.mem_replicate] at hp
    rcases hp with (⟨-, rfl⟩ | hp) | ⟨-, rfl⟩
    · simp [wildcard]
    · exact ne_escaped_of_mem_piecesOf hp c
    · simp [wildcard]
  · rw [heldAll_append, heldAll_append, heldAll_wildcards, heldAll_wildcards, heldAll_piecesOf,
      if_neg (by simp), textAll_wildcards, textAll_wildcards, Text.encode_append,
      Text.encode_append]

/-! ## Written rules -/

/-- The field names that the notation can express. -/
def IsAttribute (field : String) : Prop :=
  field.toList ≠ [] ∧ field.toList.all isAttributeChar = true

instance (field : String) : Decidable (IsAttribute field) :=
  inferInstanceAs (Decidable (_ ∧ _))

/-- A text is derived by the grammar with a certain height and stands for a node. -/
def Derives (text : List Char) (height : Nat) (n : Node) : Prop :=
  ∃ f : Form, f.text = text ∧ f.height = height ∧ f.node = n

section

variable {field : String} (hfield : IsAttribute field) {value held : List Char}
include hfield

lemma derives_plain (sg : Sign) (h : Writes value held) :
    Derives (plain (field.toList ++ sg.text ++ value)) 1
      (.rule (Rule.make field sg.operator (some (.text (String.ofList held))))) := by
  obtain ⟨v, rfl, hheld⟩ := h
  have hall := List.all_eq_true.mp hfield.2
  refine ⟨.item ⟨field.toList, hfield.1, hall⟩ sg v, by simp [Form.text, plain],
    by rw [Form.height], ?_⟩
  rw [Form.node_item, itemRule, hheld, String.ofList_toList]
  rfl

/-- The negation of an equality is a rule again. -/
lemma derives_negated_equal (h : Writes value held) :
    Derives (negated (field.toList ++ Sign.equal.text ++ value)) 2
      (.rule (Rule.make field .notEquals (some (.text (String.ofList held))))) := by
  obtain ⟨f, hf, hh, hn⟩ := derives_plain hfield .equal h
  refine ⟨.not f, by simp [Form.text, negated, hf], by rw [Form.height, hh], ?_⟩
  rw [← negation_node, hn]
  rfl

/-- The negation of another comparison stays a negation. -/
lemma derives_negated_range (sg : Sign) (hsg : sg ≠ .equal) (h : Writes value held) :
    Derives (negated (field.toList ++ sg.text ++ value)) 2
      (.group .not 0
        [.rule (Rule.make field sg.operator (some (.text (String.ofList held))))]) := by
  obtain ⟨f, hf, hh, hn⟩ := derives_plain hfield sg h
  refine ⟨.not f, by simp [Form.text, negated, hf], by rw [Form.height, hh], ?_⟩
  rw [← negation_node, hn]
  cases sg with
  | equal => exact absurd rfl hsg
  | unequal | atLeast | atMost => rfl

end

/-- **The text of a rule is derived by the grammar,** and stands for the canonical form of the
rule. -/
lemma exists_ruleText {r : Rule} (hfield : IsAttribute r.field)
    (hop : r.operator.isChange = false) :
    ∃ w, ruleText r = .ok w ∧ Derives w (ruleHeight r) (canonicalRule r) := by
  have hpattern := writes_escape_true (shown r)
  have hliteral := writes_escape_false 0 0 (shown r)
  have hboth := writes_escape_false 1 1 (shown r)
  have hback := writes_escape_false 0 1 (shown r)
  have hfront := writes_escape_false 1 0 (shown r)
  have hany := writes_escape_false 1 0 []
  simp only [List.replicate_zero, List.replicate_one, List.nil_append, List.append_nil,
    List.singleton_append] at hliteral hboth hback hfront hany
  obtain ⟨op, field, v, i, temporal⟩ := r
  cases op with
  | equals => exact ⟨_, rfl, derives_plain hfield .equal hpattern⟩
  | notEquals => exact ⟨_, rfl, derives_negated_equal hfield hpattern⟩
  | contains => exact ⟨_, rfl, derives_plain hfield .equal hboth⟩
  | notContains => exact ⟨_, rfl, derives_negated_equal hfield hboth⟩
  | startsWith => exact ⟨_, rfl, derives_plain hfield .equal hback⟩
  | endsWith => exact ⟨_, rfl, derives_plain hfield .equal hfront⟩
  | greaterOrEqual => exact ⟨_, rfl, derives_plain hfield .atLeast hliteral⟩
  | lessOrEqual => exact ⟨_, rfl, derives_plain hfield .atMost hliteral⟩
  | greaterThan => exact ⟨_, rfl, derives_negated_range hfield .atMost (by simp) hliteral⟩
  | lessThan => exact ⟨_, rfl, derives_negated_range hfield .atLeast (by simp) hliteral⟩
  | «exists» => exact ⟨_, rfl, derives_plain hfield .equal hany⟩
  | notExists => exact ⟨_, rfl, derives_negated_equal hfield hany⟩
  | hasChanged => cases hop
  | hasNotChanged => cases hop

/-! ## Written nodes -/

/-- A not that has exactly one child comes back as the negation of what its child comes back as. -/
lemma canonicalNode_not (i : Nat) (n : Node) :
    canonicalNode (.group .not i [n]) = negation (canonicalNode n) := by
  rw [canonicalNode]
  split
  · next h => rw [h]; rfl
  · next m h =>
    cases hm : canonicalNode n with
    | group c j ns => rfl
    | rule r =>
        have hr : r.operator ≠ .equals := by
          intro he
          obtain ⟨op, field, v, j, temporal⟩ := r
          subst he
          exact h _ _ _ _ hm
        rw [negation, if_neg hr]

/-- The text of a group that has children. -/
lemma nodeText_group (c : Connective) (i : Nat) (n : Node) (ns : List Node) :
    nodeText (.group c i (n :: ns)) =
      (nodeTexts (n :: ns)).map fun w => '(' :: sign c :: w ++ [')'] := by
  rw [nodeText, nodeTexts]
  cases nodeText n with
  | error e => rfl
  | ok w =>
      cases nodeTexts ns with
      | error e => rfl
      | ok ws => simp [Except.map]

mutual

/-- **The text of a node is derived by the grammar,** and stands for the canonical form of the
node. -/
theorem exists_nodeText : ∀ n : Node, n.NotsSingle → (∀ r ∈ n.rules, IsAttribute r.field) →
    (∀ r ∈ n.rules, r.operator.isChange = false) →
    ∃ w, nodeText n = .ok w ∧ Derives w (writtenHeight n) (canonicalNode n)
  | .rule r, _, hfield, hop => by
      rw [nodeText, canonicalNode, writtenHeight]
      exact exists_ruleText (hfield r (by simp [Node.rules])) (hop r (by simp [Node.rules]))
  | .group c i [], _, _, _ => by
      refine ⟨matchAll, by rw [nodeText], .and [], by simp [Form.text, matchAll], ?_, ?_⟩
      · rw [Form.height, Form.heightAll_nil, writtenHeight, writtenHeights]
      · rw [canonicalNode, Form.node, Form.nodeAll_nil]
  | .group c i (n :: ns), hnots, hfield, hop => by
      rw [Node.rules] at hfield hop
      obtain ⟨hsingle, hnots⟩ := hnots
      obtain ⟨ws, hw, fs, hf, hh, hn⟩ := exists_nodeTexts (n :: ns) hnots hfield hop
      rw [nodeText_group, hw, writtenHeight, ← hh]
      refine ⟨'(' :: sign c :: ws ++ [')'], rfl, ?_⟩
      cases c with
      | and =>
          refine ⟨.and fs, by rw [Form.text, hf]; rfl, by rw [Form.height], ?_⟩
          rw [Form.node, hn, canonicalNode, canonicalNodes]
          simp
      | or =>
          refine ⟨.or fs, by rw [Form.text, hf]; rfl, by rw [Form.height], ?_⟩
          rw [Form.node, hn, canonicalNode, canonicalNodes]
          simp
      | not =>
          obtain rfl : ns = [] := by simpa using hsingle rfl
          obtain ⟨f, rfl⟩ : ∃ f, fs = [f] := by
            match fs, hn with
            | [f], _ => exact ⟨f, rfl⟩
            | [], hn | _ :: _ :: _, hn => simp [canonicalNodes] at hn
          rw [Form.nodeAll_cons, Form.nodeAll_nil, canonicalNodes, canonicalNodes] at hn
          refine ⟨.not f, ?_, by rw [Form.height]; simp, ?_⟩
          · rw [Form.text, ← hf, Form.textAll_cons, Form.textAll_nil, List.append_nil]
            rfl
          · rw [← negation_node, canonicalNode_not, (List.cons.inj hn).1]

/-- The texts of several nodes are derived one after the other. -/
lemma exists_nodeTexts : ∀ ns : List Node, Node.NotsSingleAll ns →
    (∀ r ∈ Node.rulesAll ns, IsAttribute r.field) →
    (∀ r ∈ Node.rulesAll ns, r.operator.isChange = false) →
    ∃ ws, nodeTexts ns = .ok ws ∧
      ∃ fs : List Form, Form.textAll fs = ws ∧ Form.heightAll fs = writtenHeights ns ∧
        Form.nodeAll fs = canonicalNodes ns
  | [], _, _, _ =>
      ⟨[], by rw [nodeTexts], [], by simp, by simp [writtenHeights], by simp [canonicalNodes]⟩
  | n :: ns, hnots, hfield, hop => by
      rw [Node.rulesAll, List.forall_mem_append] at hfield hop
      obtain ⟨w, hw, f, rfl, hh, hn⟩ := exists_nodeText n hnots.1 hfield.1 hop.1
      obtain ⟨ws, hws, fs, rfl, hhs, hns⟩ := exists_nodeTexts ns hnots.2 hfield.2 hop.2
      refine ⟨f.text ++ Form.textAll fs, ?_, f :: fs, by simp, ?_, ?_⟩
      · rw [nodeTexts, hw, hws]
        rfl
      · rw [Form.heightAll_cons, writtenHeights, hh, hhs]
      · rw [Form.nodeAll_cons, canonicalNodes, hn, hns]

end

/-! ## Trees that cannot be written -/

/-- The first of several rules that asks for a change. -/
def firstChange (rs : List Rule) : Option Rule :=
  rs.find? fun r => r.operator.isChange

lemma firstChange_eq_none_iff {rs : List Rule} :
    firstChange rs = none ↔ ∀ r ∈ rs, r.operator.isChange = false := by
  simp [firstChange]

lemma ruleText_cases (r : Rule) :
    (r.operator.isChange = true ∧ ruleText r = .error (.inexpressible r.operator)) ∨
      (r.operator.isChange = false ∧ ∃ w, ruleText r = .ok w) := by
  obtain ⟨op, field, v, i, temporal⟩ := r
  cases op with
  | hasChanged | hasNotChanged => exact .inl ⟨rfl, rfl⟩
  | _ => exact .inr ⟨rfl, _, rfl⟩

mutual

/-- **A node is written unless one of its rules asks for a change.**  The first such rule decides
the failure. -/
lemma nodeText_cases : ∀ n : Node,
    (∃ r, firstChange n.rules = some r ∧ nodeText n = .error (.inexpressible r.operator)) ∨
      (firstChange n.rules = none ∧ ∃ w, nodeText n = .ok w)
  | .rule r => by
      rw [Node.rules, nodeText, firstChange, List.find?_singleton]
      rcases ruleText_cases r with ⟨hr, h⟩ | ⟨hr, h⟩
      · exact .inl ⟨r, if_pos hr, h⟩
      · exact .inr ⟨if_neg (by simp [hr]), h⟩
  | .group c i [] => .inr ⟨rfl, matchAll, by rw [nodeText]⟩
  | .group c i (n :: ns) => by
      rw [Node.rules, nodeText_group]
      rcases nodeTexts_cases (n :: ns) with ⟨r, hr, h⟩ | ⟨hr, w, h⟩
      · exact .inl ⟨r, hr, by rw [h]; rfl⟩
      · exact .inr ⟨hr, _, by rw [h]; rfl⟩

lemma nodeTexts_cases : ∀ ns : List Node,
    (∃ r, firstChange (Node.rulesAll ns) = some r ∧
        nodeTexts ns = .error (.inexpressible r.operator)) ∨
      (firstChange (Node.rulesAll ns) = none ∧ ∃ ws, nodeTexts ns = .ok ws)
  | [] => .inr ⟨rfl, [], by rw [nodeTexts]⟩
  | n :: ns => by
      rw [Node.rulesAll, nodeTexts, firstChange, List.find?_append]
      rcases nodeText_cases n with ⟨r, hr, h⟩ | ⟨hr, w, h⟩
      · rw [firstChange] at hr
        exact .inl ⟨r, by rw [hr]; rfl, by rw [h]; rfl⟩
      · rw [firstChange] at hr
        rw [hr, h]
        rcases nodeTexts_cases ns with ⟨r, hr', h'⟩ | ⟨hr', ws, h'⟩
        · exact .inl ⟨r, hr', by rw [h']; rfl⟩
        · exact .inr ⟨hr', _, by rw [h']; rfl⟩

end

/-! ## Written trees -/

/-- The rules and the nots of a tree are those of the node that stands for it. -/
lemma rules_outermost (g : Group) : (outermost g).rules = g.rules := by
  unfold outermost
  split <;> simp [Group.rules, Group.toNode, Node.rules, Node.rulesAll]

lemma notsSingle_outermost {g : Group} (h : g.toNode.NotsSingle) : (outermost g).NotsSingle := by
  unfold outermost
  split
  · trivial
  · exact h.2.1
  · exact h

lemma ofNode_negation (n : Node) : Group.ofNode (negation n) = Group.make .or [negation n] := by
  rcases negation_cases n with ⟨r, -, -, hneg⟩ | hneg
  · rw [hneg]
    rfl
  · rw [hneg]
    rfl

lemma ofNode_canonicalRule (r : Rule) :
    Group.ofNode (canonicalRule r) = Group.make .or [canonicalRule r] := by
  obtain ⟨op, field, v, i, temporal⟩ := r
  cases op <;> rfl

lemma canonical_or_singleton (i : Nat) (n : Node) :
    canonical ⟨.or, i, [n]⟩ = Group.make .or [canonicalNode n] := by
  rw [canonical, Group.toNode, canonicalNode, canonicalNodes]
  · rfl
  · simp

/-- **Leaving out the or at the root changes nothing,** because reading puts it back. -/
lemma ofNode_outermost {g : Group} (h : g.toNode.NotsSingle) :
    Group.ofNode (canonicalNode (outermost g)) = canonical g := by
  unfold outermost
  split
  · next i r =>
    rw [canonical_or_singleton, canonicalNode, ofNode_canonicalRule]
  · next i j ns =>
    obtain ⟨n, rfl⟩ := List.length_eq_one_iff.mp (h.2.1.1 rfl)
    rw [canonical_or_singleton, canonicalNode_not, ofNode_negation]
  · rfl

/-- **The text of a tree is derived by the grammar,** and what it stands for, with the root that
reading gives it, is the canonical form of the tree. -/
theorem exists_form_of_print {g : Group} (hnots : g.NotsSingle)
    (hfields : ∀ r ∈ g.rules, IsAttribute r.field)
    (hops : ∀ r ∈ g.rules, r.operator.isChange = false) :
    ∃ f : Form, print g = .ok (String.ofList f.text) ∧ f.height = writtenHeight (outermost g) ∧
      Group.ofNode f.node = canonical g := by
  rw [Group.notsSingle_iff] at hnots
  rw [← rules_outermost] at hfields hops
  obtain ⟨w, hw, f, rfl, hh, hn⟩ :=
    exists_nodeText (outermost g) (notsSingle_outermost hnots) hfields hops
  refine ⟨f, by rw [print, hw]; rfl, hh, ?_⟩
  rw [hn, ofNode_outermost hnots]

/-- **A tree that is written is read as its canonical form,** numbered from zero, as long as its
text keeps the nesting limit.  It is written unless a rule asks for a change, and then the first
such rule is blamed. -/
theorem parse_print_eq_canonical (g : Group) (hnots : g.NotsSingle)
    (hfields : ∀ r ∈ g.rules, IsAttribute r.field) :
    match firstChange g.rules with
    | some r => print g = .error (.inexpressible r.operator)
    | none => ∃ u, print g = .ok u ∧
        parse u =
          if nesting u.toList ≤ nestingLimit then .ok (canonical g).numbered
          else .error .tooDeep := by
  cases h : firstChange g.rules with
  | some r =>
      rw [← rules_outermost] at h
      rcases nodeText_cases (outermost g) with ⟨q, hq, hw⟩ | ⟨hq, -⟩
      · obtain rfl : q = r := Option.some.inj (hq.symm.trans h)
        exact by rw [print, hw]; rfl
      · rw [hq] at h
        cases h
  | none =>
      obtain ⟨f, hf, -, hn⟩ := exists_form_of_print hnots hfields (firstChange_eq_none_iff.mp h)
      refine ⟨String.ofList f.text, hf, ?_⟩
      rw [parse_text, hn, String.toList_ofList]

/-- A tree with a literal asterisk and a parenthesis in a value, a negated equality without a value,
an or without children, and indices that are no numbering. -/
def mixedTree : Group :=
  ⟨.and, 7, [.rule ⟨.contains, "cn", some (.text "a*(b"), 3, .before⟩,
    .group .not 0 [.rule ⟨.equals, "uid", none, 3, .after⟩], .group .or 1 []]⟩

theorem parse_print_mixedTree :
    ∃ u, print mixedTree = .ok u ∧
      parse u = .ok ⟨.and, 0, [.rule ⟨.equals, "cn", some (.text "*a\\2a(b*"), 1, .after⟩,
        .rule ⟨.notEquals, "uid", some (.text ""), 2, .after⟩, .group .and 3 []]⟩ := by
  obtain ⟨u, hu, h⟩ := parse_print_eq_canonical mixedTree (by decide) (by decide)
  obtain rfl : u = "(&(cn=*a\\2a\\28b*)(!(uid=))(&))" := by
    rw [← Except.ok.injEq, ← hu]
    rfl
  exact ⟨_, hu, h.trans rfl⟩

end AccessFilter.Ldap
