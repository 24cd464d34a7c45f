import AccessFilter.Proofs.Ldap.Cursor

/-!
# Where the errors of a filter text are

An error is reported at an offset in bytes into the trimmed text.  The offset is a position in it,
so the text can be shown with the place of the error marked.

**A parenthesis is unbalanced** in one of two ways.  It is missing, and that is seen at the end of
the text; or it is one too many, and then a text that is accepted stands in front of it.  The second
way holds in both directions: behind an accepted text a closing parenthesis is always the place of
the error, whatever stands behind it.

* `exists_placed_of_parse_eq` — errors come from faults that are placed in the trimmed text.
* `place_of_unexpected`, `place_of_unbalanced` — what the places are.
* `Surplus.exists_accepted`, `parse_append_close` — a parenthesis too many.
* **`offsets_of_parse_eq`** — the two together with the agreement of the readers.
-/

namespace AccessFilter.Ldap

/-- A failure is a fault that is placed in the trimmed text, unless nothing is left of the text. -/
lemma exists_placed_of_parse_eq {text : String} {failure : Failure}
    (h : parse text = .error failure) :
    failure = .blank ∨ ∃ f : Fault, f.Placed (Text.trim text.toList) ∧
      failure = f.toFailure (Text.trim text.toList) := by
  have hagrees := agrees_wholeFilter (Text.trim text.toList)
  simp only [parse] at h
  split_ifs at h
  · exact .inl (Except.error.inj h).symm
  · split at h
    · cases h
    · next f hf =>
      rw [hf] at hagrees
      exact .inr ⟨f, hagrees.placed, (Except.error.inj h).symm⟩

/-- A rest of the trimmed text begins at a position in it. -/
lemma position_of_suffix {text : String} {rest : List Char}
    (h : rest <:+ Text.trim text.toList) :
    Text.byteSize (Text.trim text.toList) - Text.byteSize rest ≤ (Text.trimmed text).utf8ByteSize ∧
      (String.Pos.Raw.mk (Text.byteSize (Text.trim text.toList) - Text.byteSize rest)).IsValid
        (Text.trimmed text) := by
  obtain ⟨before, hbefore⟩ := h
  rw [Text.trimmed, ← Text.byteSize_eq_utf8ByteSize]
  refine ⟨Nat.sub_le _ _, ?_⟩
  rw [← hbefore, Text.byteSize_append, Nat.add_sub_cancel]
  exact Text.isValid_byteSize (by rw [String.toList_ofList])

lemma Surplus.suffix {text rest : List Char} (h : Surplus text rest) : rest <:+ text := by
  obtain ⟨f, -, -, htext, -⟩ := h
  exact ⟨f.text, htext.symm⟩

/-- What stands in front of a parenthesis too many is a text that is accepted. -/
lemma Surplus.exists_accepted {text : String} {rest : List Char}
    (h : Surplus (Text.trim text.toList) rest) :
    ∃ before behind : String, Text.trimmed text = before ++ ")" ++ behind ∧
      before.utf8ByteSize =
        Text.byteSize (Text.trim text.toList) - Text.byteSize rest ∧ ∃ t, parse before = .ok t := by
  obtain ⟨f, behind, hheight, htext, rfl⟩ := h
  refine ⟨String.ofList f.text, String.ofList behind, ?_, ?_, (Group.ofNode f.node).numbered, ?_⟩
  · rw [Text.trimmed, htext, ← String.toList_inj]
    simp only [String.toList_append, String.toList_ofList]
    exact List.append_cons f.text ')' behind
  · rw [← Text.byteSize_eq_utf8ByteSize, htext, Text.byteSize_append, Nat.add_sub_cancel]
  · rw [parse_text, Form.nesting_text, if_pos hheight]

/-- Something unexpected stands at a position in the trimmed text. -/
lemma place_of_unexpected {text : String} {offset : Nat} {expected : Expected}
    (h : parse text = .error (.unexpected offset expected)) :
    offset ≤ (Text.trimmed text).utf8ByteSize ∧
      (String.Pos.Raw.mk offset).IsValid (Text.trimmed text) := by
  rcases exists_placed_of_parse_eq h with hblank | ⟨f, hplaced, hf⟩
  · cases hblank
  · cases f with
    | unexpected e rest =>
        obtain ⟨rfl, -⟩ := Failure.unexpected.inj hf
        exact position_of_suffix hplaced
    | unbalanced | unknownOperator | tooDeep => cases hf

/-- A parenthesis is unbalanced at the end of the trimmed text, or it is one too many. -/
lemma place_of_unbalanced {text : String} {offset : Nat}
    (h : parse text = .error (.unbalanced offset)) :
    offset ≤ (Text.trimmed text).utf8ByteSize ∧
      (String.Pos.Raw.mk offset).IsValid (Text.trimmed text) ∧
      (offset = (Text.trimmed text).utf8ByteSize ∨
        ∃ before behind : String, Text.trimmed text = before ++ ")" ++ behind ∧
          before.utf8ByteSize = offset ∧ ∃ t, parse before = .ok t) := by
  rcases exists_placed_of_parse_eq h with hblank | ⟨f, hplaced, hf⟩
  · cases hblank
  · cases f with
    | unbalanced rest =>
        obtain rfl := Failure.unbalanced.inj hf
        have hsuffix : rest <:+ Text.trim text.toList := by
          rcases hplaced with rfl | hsurplus
          · exact List.nil_suffix
          · exact hsurplus.suffix
        obtain ⟨hle, hvalid⟩ := position_of_suffix hsuffix
        refine ⟨hle, hvalid, ?_⟩
        rcases hplaced with rfl | hsurplus
        · exact .inl (Text.byteSize_eq_utf8ByteSize _)
        · exact .inr hsurplus.exists_accepted
    | unexpected | unknownOperator | tooDeep => cases hf

/-- A derived text with a closing parenthesis behind it is rejected at the parenthesis, whatever
else follows. -/
lemma parse_of_trim_eq_append {s : String} {f : Form} {behind : List Char}
    (h : Text.trim s.toList = f.text ++ ')' :: behind) (hheight : f.height ≤ nestingLimit) :
    parse s = .error (.unbalanced (Text.byteSize f.text)) := by
  have hread : wholeFilter (f.text ++ ')' :: behind) = .error (.unbalanced (')' :: behind)) := by
    rw [wholeFilter, filter_text, if_pos hheight]
    rfl
  have hne : (f.text ++ ')' :: behind).isEmpty = false := by simp
  rw [parse, h]
  simp only [hne, hread, Fault.toFailure, Text.byteSize_append, Nat.add_sub_cancel]
  rfl

/-- **Behind an accepted text a closing parenthesis is the place of the error.** -/
lemma parse_append_close {text : String} {t : Group} (h : parse text = .ok t)
    (htrim : Text.trimmed text = text) (behind : String) :
    parse (text ++ ")" ++ behind) = .error (.unbalanced text.utf8ByteSize) := by
  obtain ⟨f, hf, hnesting, -⟩ := exists_form_of_parse_eq h
  rw [Form.nesting_text] at hnesting
  have htext : f.text = text.toList := by
    rw [hf, ← htrim, Text.trimmed, String.toList_ofList, ← hf, trim_text]
  have hends : Text.EndsVisibly (f.text ++ [')']) := ⟨f.text, ')', rfl, by decide⟩
  obtain ⟨rest, hrest⟩ :=
    Text.exists_trim_append_eq (f.isBlank_of_mem_head? [')']) hends behind.toList
  have hwhole : Text.trim (text ++ ")" ++ behind).toList = f.text ++ ')' :: rest := by
    rw [String.toList_append, String.toList_append, ← htext]
    exact hrest.trans (List.append_cons f.text ')' rest).symm
  rw [parse_of_trim_eq_append hwhole hnesting, htext, Text.byteSize_eq_utf8ByteSize,
    String.ofList_toList]

/-- **Where errors are reported.**  The reader with a cursor gives what `parse` gives: it takes
parts of the trimmed text only at positions in it, and never closes a parenthesis where none is
open.

An offset that is reported is a position in the trimmed text, its end included.  A parenthesis is
unbalanced only at the end, where it is missing, and at a closing parenthesis behind a text that is
accepted; and there every text is rejected that goes on so behind an accepted one. -/
theorem offsets_of_parse_eq (text : String) :
    (parseBytes text = (parse text).mapError .failed ∧ parseBytes text ≠ .error .misplaced ∧
      parseBytes text ≠ .error .unopened) ∧
    (∀ offset expected, parse text = .error (.unexpected offset expected) →
      offset ≤ (Text.trimmed text).utf8ByteSize ∧
        (String.Pos.Raw.mk offset).IsValid (Text.trimmed text)) ∧
    (∀ offset, parse text = .error (.unbalanced offset) →
      offset ≤ (Text.trimmed text).utf8ByteSize ∧
        (String.Pos.Raw.mk offset).IsValid (Text.trimmed text) ∧
        (offset = (Text.trimmed text).utf8ByteSize ∨
          ∃ before behind : String, Text.trimmed text = before ++ ")" ++ behind ∧
            before.utf8ByteSize = offset ∧ ∃ t, parse before = .ok t)) ∧
    ∀ t, parse text = .ok t → Text.trimmed text = text → ∀ behind : String,
      parse (text ++ ")" ++ behind) = .error (.unbalanced text.utf8ByteSize) := by
  refine ⟨⟨parseBytes_eq text, fun h => ?_, fun h => ?_⟩, fun _ _ => place_of_unexpected,
    fun _ => place_of_unbalanced, fun t ht htrim => parse_append_close ht htrim⟩
  · obtain ⟨failure, hfailure⟩ := exists_failure_of_parseBytes_eq h
    cases hfailure
  · obtain ⟨failure, hfailure⟩ := exists_failure_of_parseBytes_eq h
    cases hfailure

/-- A filter whose value is a letter of two bytes and an escaped asterisk. -/
def accented : List Char :=
  ['(', 'a', '=', 'é', '\\', '2', 'a', ')']

/-- The beginning of that filter, with a parenthesis behind the letter. -/
def reopened : List Char :=
  [' ', '(', 'a', '=', 'é', '(']

/-- That filter behind a blank, with a parenthesis too many. -/
def surplus : List Char :=
  ['\u00A0', '(', 'a', '=', 'é', '\\', '2', 'a', ')', ')', 'é']

lemma parse_reopened :
    parse (String.ofList reopened) = .error (.unexpected 5 .escapedParenthesis) := by
  rw [parse, String.toList_ofList]
  rfl

lemma parse_surplus : parse (String.ofList surplus) = .error (.unbalanced 9) := by
  rw [parse, String.toList_ofList]
  rfl

lemma exists_parse_accented : ∃ t, parse (String.ofList accented) = .ok t := by
  rw [parse, String.toList_ofList]
  exact ⟨_, rfl⟩

/-- The offsets of the two errors are positions of the trimmed texts, and with anything behind a
further parenthesis the accepted text is rejected at the parenthesis. -/
theorem offsets_of_parse_eq_accented :
    (parse (String.ofList reopened) = .error (.unexpected 5 .escapedParenthesis) ∧
      5 ≤ (Text.trimmed (String.ofList reopened)).utf8ByteSize ∧
        (String.Pos.Raw.mk 5).IsValid (Text.trimmed (String.ofList reopened))) ∧
    (parse (String.ofList surplus) = .error (.unbalanced 9) ∧
      9 ≤ (Text.trimmed (String.ofList surplus)).utf8ByteSize ∧
        (String.Pos.Raw.mk 9).IsValid (Text.trimmed (String.ofList surplus)) ∧
        ∃ before behind : String,
          Text.trimmed (String.ofList surplus) = before ++ ")" ++ behind ∧
            before.utf8ByteSize = 9 ∧ ∃ t, parse before = .ok t) ∧
    ∀ behind : String,
      parse (String.ofList accented ++ ")" ++ behind) = .error (.unbalanced 9) := by
  obtain ⟨t, ht⟩ := exists_parse_accented
  have htrim : Text.trimmed (String.ofList accented) = String.ofList accented := by
    rw [Text.trimmed, String.toList_ofList]
    rfl
  have hsize : (String.ofList accented).utf8ByteSize = 9 := by
    rw [← Text.byteSize_eq_utf8ByteSize]
    rfl
  have hbefore : ¬ 9 = (Text.trimmed (String.ofList surplus)).utf8ByteSize := by
    rw [Text.trimmed, String.toList_ofList, ← Text.byteSize_eq_utf8ByteSize]
    decide
  obtain ⟨hle, hvalid, hplace⟩ := (offsets_of_parse_eq _).2.2.1 9 parse_surplus
  refine ⟨⟨parse_reopened, (offsets_of_parse_eq _).2.1 5 _ parse_reopened⟩,
    ⟨parse_surplus, hle, hvalid, hplace.resolve_left hbefore⟩, fun behind => ?_⟩
  rw [← hsize]
  exact (offsets_of_parse_eq _).2.2.2 t ht htrim behind

end AccessFilter.Ldap
