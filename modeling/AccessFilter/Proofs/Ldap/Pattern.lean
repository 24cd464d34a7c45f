import AccessFilter.Proofs.Ldap.Cycle
import Mathlib.Data.List.Infix

/-!
# What a value matches

In an equality a value is a pattern: bytes that have to be there, one after the other, and wildcards
between them.  The pattern of a value is read off its text alone; neither the readers nor the
printer are mentioned in its definition.

**In memory.**  A value is held with its wildcards as asterisks, and with every literal asterisk
spelled out as `\2a`.  So what is held determines the pattern up to one thing: whether these three
characters are a literal asterisk, or whether the value has them as they are (`map_ofByte_heldAll`).

**Written again.**  The printer takes them for a literal asterisk wherever they stand
(`pattern_escape_true`).  What is read and written again therefore matches what it matched before,
except that the literal text `\2a` has become an asterisk.

* `Mark`, `pattern` — the pattern of a value.
* `merged` — a pattern with a literal asterisk in place of every literal `\2a`.
* **`pattern_print_parse`** — after a value was read and written its pattern is merged, which it was
  before exactly if `\2a` does not occur in it literally.
* **`not_forall_pattern_print_parse`** — so some value matches something else afterwards.
-/

namespace AccessFilter.Ldap

/-! ## Patterns -/

/-- A part of a pattern: a byte, or a wildcard. -/
inductive Mark where
  | literal (byte : UInt8)
  | wildcard
  deriving DecidableEq, Repr

/-- The pattern of a character that is meant literally. -/
def literals (c : Char) : List Mark :=
  (String.utf8EncodeChar c).map .literal

/-- **The pattern of a value.**  A backslash and two hexadecimal digits are one byte, a backslash
and any other character are that character, and an asterisk that no backslash stands before is a
wildcard. -/
def pattern : List Char → List Mark
  | [] => []
  | '\\' :: c :: d :: s =>
    match Text.hexByte? c d with
    | some b => .literal b :: pattern s
    | none => literals c ++ pattern (d :: s)
  | ['\\', c] => literals c
  | '*' :: s => .wildcard :: pattern s
  | c :: s => literals c ++ pattern s

/-- The pattern of the three characters `\2a` when they are meant literally. -/
def starMarks : List Mark :=
  [.literal 0x5c, .literal 0x32, .literal 0x61]

/-- **The pattern with a literal asterisk in place of every literal `\2a`.** -/
def merged : List Mark → List Mark
  | [] => []
  | .literal 0x5c :: .literal 0x32 :: .literal 0x61 :: ms => .literal 0x2a :: merged ms
  | m :: ms => m :: merged ms

/-! ### Merging -/

/-- A mark that does not begin a literal `\2a` stays. -/
lemma merged_cons {m : Mark} {ms : List Mark}
    (h : m = .literal 0x5c → ∀ ns, ms ≠ .literal 0x32 :: .literal 0x61 :: ns) :
    merged (m :: ms) = m :: merged ms := by
  rw [merged]
  intro ns hm hms
  exact h hm ns hms

/-- Marks none of which is a backslash stay, whatever follows them. -/
lemma merged_append {ms : List Mark} (h : ∀ m ∈ ms, m ≠ .literal 0x5c) (ns : List Mark) :
    merged (ms ++ ns) = ms ++ merged ns := by
  induction ms with
  | nil => rfl
  | cons m ms ih =>
      have hm : m ≠ .literal 0x5c := h m List.mem_cons_self
      rw [List.cons_append, merged_cons fun he => absurd he hm,
        ih fun k hk => h k (List.mem_cons_of_mem m hk), List.cons_append]

lemma length_merged_le (ms : List Mark) : (merged ms).length ≤ ms.length := by
  fun_induction merged ms with
  | case1 => exact Nat.le_refl 0
  | case2 ms ih =>
      simp only [List.length_cons]
      omega
  | case3 m ms h ih =>
      simp only [List.length_cons]
      omega

/-- **Merging changes nothing exactly if there is no literal `\2a`.** -/
lemma merged_eq_self_iff (ms : List Mark) : merged ms = ms ↔ ¬ starMarks <:+: ms := by
  fun_induction merged ms with
  | case1 => simp [starMarks]
  | case2 ms ih =>
      -- merging makes the pattern shorter
      have hlen := length_merged_le ms
      constructor
      · intro h
        have h' := congrArg List.length h
        simp only [List.length_cons] at h'
        omega
      · intro h
        exact absurd (List.prefix_append starMarks ms).isInfix h
  | case3 m ms h ih =>
      have hfront : ¬ starMarks <+: m :: ms := by
        rintro ⟨ns, hns⟩
        simp only [starMarks, List.cons_append, List.nil_append, List.cons.injEq] at hns
        exact h ns hns.1.symm hns.2.symm
      rw [List.cons.injEq, List.infix_cons_iff, ih]
      simp [hfront]

/-- A literal asterisk spelled out; every other mark stays. -/
def Mark.spelled : Mark → List Mark
  | .literal b => if b = 0x2a then starMarks else [.literal b]
  | .wildcard => [.wildcard]

lemma spelled_literal {b : UInt8} (h : b ≠ 0x2a) : (Mark.literal b).spelled = [.literal b] :=
  if_neg h

/-- Spelling out does not make a mark the digit or the letter of a mark. -/
lemma exists_of_flatMap_spelled_eq {b : UInt8} (hb : b = 0x32 ∨ b = 0x61) {ms ns : List Mark}
    (h : ms.flatMap Mark.spelled = .literal b :: ns) :
    ∃ ks, ms = .literal b :: ks ∧ ns = ks.flatMap Mark.spelled := by
  cases ms with
  | nil => cases h
  | cons m ms =>
      cases m with
      | wildcard => cases h
      | literal c =>
          by_cases hc : c = 0x2a
          · subst hc
            rcases hb with rfl | rfl <;> cases h
          · rw [List.flatMap_cons, spelled_literal hc, List.singleton_append] at h
            obtain ⟨hcb, rfl⟩ := List.cons.inj h
            exact ⟨ms, by rw [hcb], rfl⟩

/-- **Spelling out literal asterisks does not show after merging.** -/
lemma merged_flatMap_spelled (ms : List Mark) : merged (ms.flatMap Mark.spelled) = merged ms := by
  fun_induction merged ms with
  | case1 => rfl
  | case2 ms ih => rw [← ih]; rfl
  | case3 m ms h ih =>
      rw [List.flatMap_cons]
      cases m with
      | wildcard => rw [← ih]; rfl
      | literal b =>
          by_cases hb : b = 0x2a
          · subst hb
            rw [← ih]
            rfl
          · rw [spelled_literal hb, List.singleton_append, merged_cons, ih]
            intro hm ns hns
            obtain ⟨ks, hks, hns⟩ := exists_of_flatMap_spelled_eq (.inl rfl) hns
            obtain ⟨ls, rfl, -⟩ := exists_of_flatMap_spelled_eq (.inr rfl) hns.symm
            exact h ls hm hks

/-! ## The pattern of a value that was derived -/

/-- The marks of a piece of a value. -/
def Piece.marks : Piece → List Mark
  | .plain c _ => if c = '*' then [.wildcard] else literals c
  | .code _ _ byte _ => [.literal byte]
  | .escaped c => literals c

lemma pattern_plain {c : Char} (h : c ≠ '\\') (s : List Char) :
    pattern (c :: s) = (if c = '*' then [.wildcard] else literals c) ++ pattern s := by
  by_cases hc : c = '*'
  · subst hc
    rw [pattern]
    rfl
  · rw [pattern, if_neg hc]
    · exact fun d e t he _ => h he
    · exact fun d he _ => h he
    · exact hc

/-- **The pattern of a derived value is made up of the marks of its pieces.** -/
lemma pattern_textAll : ∀ {ps : List Piece}, Piece.Separated ps →
    pattern (Piece.textAll ps) = ps.flatMap Piece.marks := by
  intro ps
  induction ps with
  | nil => intro _; rfl
  | cons p ps ih =>
      intro h
      rw [List.flatMap_cons]
      cases p with
      | plain c hc =>
          rw [Piece.textAll_cons, Piece.text, List.singleton_append, pattern_plain hc.2.2, ih h]
          rfl
      | code high low b hb =>
          rw [Piece.textAll_code, pattern, hb]
          show .literal b :: pattern (Piece.textAll ps) = _
          rw [ih h]
          rfl
      | escaped c =>
          rw [Piece.textAll_escaped, ← ih h.2]
          cases hs : Piece.textAll ps with
          | nil =>
              show literals c = literals c ++ []
              rw [List.append_nil]
          | cons d s =>
              have hcd : Text.hexByte? c d = none := by simpa [hs] using h.1
              rw [pattern, hcd]
              rfl

/-! ## The pattern of a held value -/

/-- A held byte as a mark: an asterisk is a wildcard. -/
def Mark.ofByte (b : UInt8) : Mark :=
  if b = 0x2a then .wildcard else .literal b

lemma ne_of_mem_utf8EncodeChar {c : Char} (h : c ≠ '*') {b : UInt8}
    (hb : b ∈ String.utf8EncodeChar c) : b ≠ 0x2a := by
  rintro rfl
  obtain ⟨hc, -⟩ := Text.eq_of_mem_utf8EncodeChar (by decide) hb
  exact h (Char.toNat_inj.mp hc)

lemma map_ofByte_utf8EncodeChar {c : Char} (h : c ≠ '*') :
    (String.utf8EncodeChar c).map Mark.ofByte = literals c :=
  List.map_congr_left fun _ hb => if_neg (ne_of_mem_utf8EncodeChar h hb)

lemma flatMap_spelled_literals {c : Char} (h : c ≠ '*') :
    (literals c).flatMap Mark.spelled = literals c := by
  have hspelled : ∀ b ∈ String.utf8EncodeChar c, (Mark.literal b).spelled = [.literal b] :=
    fun b hb => spelled_literal (ne_of_mem_utf8EncodeChar h hb)
  rw [literals, List.flatMap_map, List.flatMap_def, List.map_congr_left hspelled,
    ← List.flatMap_def, ← List.map_eq_flatMap]

lemma map_ofByte_held (p : Piece) : p.held.map Mark.ofByte = p.marks.flatMap Mark.spelled := by
  cases p with
  | plain c _ =>
      by_cases hc : c = '*'
      · subst hc
        rfl
      · show (String.utf8EncodeChar c).map Mark.ofByte = _
        rw [Piece.marks, if_neg hc, map_ofByte_utf8EncodeChar hc, flatMap_spelled_literals hc]
  | code high low b _ =>
      rw [held_code, byteBytes]
      split_ifs with hb
      · subst hb
        rfl
      · simp [Piece.marks, Mark.ofByte, Mark.spelled, hb]
  | escaped c =>
      rw [held_escaped, charBytes]
      split_ifs with hc
      · subst hc
        rfl
      · rw [Piece.marks, map_ofByte_utf8EncodeChar hc, flatMap_spelled_literals hc]

/-- **What a value is held as shows its pattern,** with the literal asterisks spelled out. -/
lemma map_ofByte_heldAll (ps : List Piece) :
    (Piece.heldAll ps).map Mark.ofByte = (ps.flatMap Piece.marks).flatMap Mark.spelled := by
  induction ps with
  | nil => rfl
  | cons p ps ih =>
      rw [Piece.heldAll_cons, List.map_append, map_ofByte_held, ih, List.flatMap_cons,
        List.flatMap_append]

/-! ## The pattern of a written value -/

/-- An ASCII byte at the front of a held value is the first character of that value. -/
lemma exists_of_map_ofByte_encode_eq {b : UInt8} (hb : b.toNat < 0x80) {s : List Char}
    {ms : List Mark} (h : (Text.encode s).map Mark.ofByte = .literal b :: ms) :
    ∃ c t, s = c :: t ∧ c.toNat = b.toNat ∧ ms = (Text.encode t).map Mark.ofByte := by
  cases s with
  | nil => cases h
  | cons c t =>
      rw [Text.encode, List.map_append] at h
      cases hc : String.utf8EncodeChar c with
      | nil => exact absurd hc (List.ne_nil_of_length_pos (by
          rw [String.length_utf8EncodeChar]; exact Char.utf8Size_pos c))
      | cons a as =>
          rw [hc, List.map_cons, List.cons_append, List.cons.injEq, Mark.ofByte] at h
          obtain ⟨ha, hms⟩ := h
          split_ifs at ha
          obtain rfl := Mark.literal.inj ha
          have hmem : a ∈ String.utf8EncodeChar c := by rw [hc]; exact List.mem_cons_self
          obtain ⟨hnat, hbytes⟩ := Text.eq_of_mem_utf8EncodeChar hb hmem
          obtain rfl : as = [] := by rw [hc] at hbytes; exact (List.cons.inj hbytes).2
          exact ⟨c, t, rfl, hnat, hms.symm⟩

lemma ne_backslash_of_mem_literals {c : Char} (h : c ≠ '\\') {m : Mark} (hm : m ∈ literals c) :
    m ≠ .literal 0x5c := by
  obtain ⟨b, hb, rfl⟩ := List.mem_map.mp hm
  intro hbyte
  obtain rfl := Mark.literal.inj hbyte
  obtain ⟨hc, -⟩ := Text.eq_of_mem_utf8EncodeChar (by decide) hb
  exact h (Char.toNat_inj.mp hc)

lemma marks_pieceOf (c : Char) :
    (pieceOf true c).marks = if c = '*' then [.wildcard] else literals c := by
  by_cases hspecial : c ∈ ['(', ')', '\x00', '\\']
  · simp only [List.mem_cons, List.not_mem_nil, or_false] at hspecial
    rcases hspecial with rfl | rfl | rfl | rfl <;> rfl
  · simp only [List.mem_cons, List.not_mem_nil, or_false, not_or] at hspecial
    obtain ⟨hopen, hclose, hnul, hslash⟩ := hspecial
    simp [pieceOf, hopen, hclose, hnul, hslash, Piece.marks]

lemma map_ofByte_encode_cons (c : Char) (s : List Char) :
    (Text.encode (c :: s)).map Mark.ofByte =
      (pieceOf true c).marks ++ (Text.encode s).map Mark.ofByte := by
  rw [Text.encode, List.map_append, marks_pieceOf]
  by_cases hc : c = '*'
  · subst hc
    rfl
  · rw [map_ofByte_utf8EncodeChar hc, if_neg hc]

/-- The marks of what a value is written as.  The printer takes every `\2a` for a literal
asterisk. -/
lemma marks_piecesOf (s : List Char) :
    (piecesOf true s).flatMap Piece.marks = merged ((Text.encode s).map Mark.ofByte) := by
  fun_induction piecesOf true s with
  | case1 => rfl
  | case2 s ih =>
      rw [List.flatMap_cons, ih]
      rfl
  | case3 c s h ih =>
      rw [List.flatMap_cons, ih, map_ofByte_encode_cons]
      by_cases hc : c = '\\'
      · subst hc
        have hslash : (pieceOf true '\\').marks = [.literal 0x5c] := rfl
        rw [hslash, List.singleton_append, List.singleton_append, merged_cons]
        intro _ ns hns
        obtain ⟨d, t, rfl, hd, hns⟩ := exists_of_map_ofByte_encode_eq (by decide) hns
        obtain ⟨e, u, rfl, he, -⟩ := exists_of_map_ofByte_encode_eq (by decide) hns.symm
        obtain rfl : d = '2' := Char.toNat_inj.mp hd
        obtain rfl : e = 'a' := Char.toNat_inj.mp he
        exact h u rfl rfl
      · rw [merged_append]
        rw [marks_pieceOf]
        split_ifs
        · simp
        · exact fun m hm => ne_backslash_of_mem_literals hc hm

/-- **A held value is written with every `\2a` in it read as a literal asterisk.** -/
lemma pattern_escape_true (s : List Char) :
    pattern (escape true s) = merged ((Text.encode s).map Mark.ofByte) := by
  have hsep : Piece.Separated (piecesOf true s) :=
    separated_of_forall_ne fun p hp => ne_escaped_of_mem_piecesOf hp
  rw [← textAll_piecesOf, pattern_textAll hsep, marks_piecesOf]

/-- **A value that was read is written with its pattern merged.** -/
lemma pattern_escape_held (v : ValueForm) :
    pattern (escape true v.held.toList) = merged (pattern v.text) := by
  have hheld : Text.encode v.held.toList = Piece.heldAll v.pieces :=
    (Text.decode?_eq_some_iff.mp v.decode?_heldAll).symm
  rw [pattern_escape_true, hheld, map_ofByte_heldAll, merged_flatMap_spelled, ValueForm.text,
    pattern_textAll v.separated]

/-! ## Reading and writing one comparison -/

/-- The text of an equality has a derivation of its value. -/
lemma exists_value_of_text_eq {a : Attribute} {w : List Char} {f : Form}
    (h : f.text = plain (a.chars ++ '=' :: w)) :
    ∃ v : ValueForm, v.text = w ∧ f = .item a .equal v := by
  obtain ⟨c, s, hc, hand, hor, hnot⟩ := a.exists_chars_eq
  cases f with
  | and fs => simp [Form.text, plain, hc, hand.symm] at h
  | or fs => simp [Form.text, plain, hc, hor.symm] at h
  | not f => simp [Form.text, plain, hc, hnot.symm] at h
  | item b sg v =>
      simp only [Form.text, plain, List.cons_append, List.append_assoc, List.cons.injEq,
        true_and] at h
      obtain ⟨hb, hrest⟩ := append_inj_of_class b.allowed a.allowed
        (sg.takeWhile_text_append _) (Sign.equal.takeWhile_text_append (w ++ [')'])) h
      have hsign : sg.text ++ (v.text ++ [')']) = Sign.equal.text ++ (w ++ [')']) := hrest
      obtain ⟨rfl, hw⟩ := Sign.text_append_inj hsign
      exact ⟨v, List.append_cancel_right hw, by rw [Attribute.ext_chars hb]⟩

lemma trim_plain (a : Attribute) (w : List Char) :
    Text.trim (plain (a.chars ++ '=' :: w)) = plain (a.chars ++ '=' :: w) := by
  refine Text.trim_eq_self ?_ ⟨'(' :: (a.chars ++ '=' :: w), ')', rfl, by decide⟩
  intro c hc
  obtain rfl : '(' = c := Option.some.inj hc
  decide

/-- An equality that is read has a derived value, and what is held for this value is written. -/
lemma exists_value_of_parse_eq {a : Attribute} {w : List Char} {t : Group}
    (h : parse (String.ofList (plain (a.chars ++ '=' :: w))) = .ok t) :
    ∃ v : ValueForm, v.text = w ∧
      print t = .ok (String.ofList (plain (a.chars ++ '=' :: escape true v.held.toList))) := by
  obtain ⟨f, hf, -, rfl⟩ := exists_form_of_parse_eq h
  rw [String.toList_ofList, trim_plain] at hf
  obtain ⟨v, hv, rfl⟩ := exists_value_of_text_eq hf
  refine ⟨v, hv, ?_⟩
  rw [print_numbered]
  simp [Form.node, Group.ofNode, Group.make, print, outermost, nodeText, ruleText, itemRule,
    Sign.operator, Scalar.display, Except.map]

/-- **A value that was read and written matches what it matched before,** except that a literal
`\2a` has become a literal asterisk; so it matches the same exactly if it has no literal `\2a`. -/
theorem pattern_print_parse (a : Attribute) (w : List Char) (t : Group)
    (h : parse (String.ofList (plain (a.chars ++ '=' :: w))) = .ok t) :
    ∃ u, print t = .ok (String.ofList (plain (a.chars ++ '=' :: u))) ∧
      pattern u = merged (pattern w) ∧ (pattern u = pattern w ↔ ¬ starMarks <:+: pattern w) := by
  obtain ⟨v, rfl, hprint⟩ := exists_value_of_parse_eq h
  have hpattern := pattern_escape_held v
  refine ⟨escape true v.held.toList, hprint, hpattern, ?_⟩
  rw [hpattern, merged_eq_self_iff]

/-- The attribute `cn`. -/
def commonName : Attribute :=
  ⟨['c', 'n'], by simp, List.all_eq_true.mp rfl⟩

/-- A value with a wildcard, a literal asterisk, an escaped parenthesis, a character by its two
bytes, and a backslash in front of `2a`. -/
def mixedValue : List Char :=
  "*\\2A\\)\\c3\\a9\\5c2a".toList

theorem pattern_print_parse_mixedValue :
    ∃ t u, parse (String.ofList (plain (commonName.chars ++ '=' :: mixedValue))) = .ok t ∧
      print t = .ok (String.ofList (plain (commonName.chars ++ '=' :: u))) ∧
      pattern mixedValue = [.wildcard, .literal 0x2a, .literal 0x29, .literal 0xc3, .literal 0xa9,
        .literal 0x5c, .literal 0x32, .literal 0x61] ∧
      pattern u = [.wildcard, .literal 0x2a, .literal 0x29, .literal 0xc3, .literal 0xa9,
        .literal 0x2a] := by
  have hread : parse (String.ofList (plain (commonName.chars ++ '=' :: mixedValue))) =
      .ok ⟨.or, 0, [.rule ⟨.equals, "cn", some (.text "*\\2a)é\\2a"), 1, .after⟩]⟩ := by
    decide +kernel
  obtain ⟨u, hu, hmerged, -⟩ := pattern_print_parse commonName mixedValue _ hread
  exact ⟨_, u, hread, hu, by decide, hmerged.trans (by decide)⟩

/-- **So not every value matches afterwards what it matched before.**  A backslash by its code in
front of `2a` is written as a literal asterisk. -/
theorem not_forall_pattern_print_parse :
    ¬ ∀ (a : Attribute) (w : List Char) (t : Group),
      parse (String.ofList (plain (a.chars ++ '=' :: w))) = .ok t →
      ∃ u, print t = .ok (String.ofList (plain (a.chars ++ '=' :: u))) ∧ pattern u = pattern w := by
  intro hall
  let w : List Char := ['\\', '5', 'c', '2', 'a']
  let t : Group := ⟨.or, 0, [.rule ⟨.equals, "cn", some (.text "\\2a"), 1, .after⟩]⟩
  have hread : parse (String.ofList (plain (commonName.chars ++ '=' :: w))) = .ok t := by
    decide +kernel
  have hprint : print t = .ok (String.ofList (plain (commonName.chars ++ '=' :: starMark))) := rfl
  obtain ⟨u, hu, hpattern⟩ := hall commonName w t hread
  have hstar : u = starMark := by
    have h := String.ofList_injective (Except.ok.inj (hprint.symm.trans hu))
    simpa [plain] using h.symm
  rw [hstar] at hpattern
  exact absurd hpattern (by decide)

end AccessFilter.Ldap
