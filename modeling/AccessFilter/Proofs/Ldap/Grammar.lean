import AccessFilter.Ldap.Reader
import AccessFilter.Proofs.Text.Ascii
import Mathlib.Data.List.TakeWhile
import Mathlib.Tactic.Common

/-!
# The grammar of LDAP filters

A derivation of the grammar is a tree of its own, `Form`, which knows the text it derives and the
node that this text stands for.  The readers are not mentioned here.

**Values.**  A value is a list of pieces: plain characters, bytes by their code, and escaped
characters.  The two escapes overlap, `\` and a hexadecimal digit may begin either of them, so a
`ValueForm` requires that an escaped character and what follows it do not spell a code, and that the
bytes of all pieces together spell a text.

**Filters.**  `Form.text`, `Form.node` and `Form.height` are the text, the node and the number of
parentheses that are open at once.  The height shows in the text: it is the `nesting` of the text
(`nesting_text`).  `Form.tree` is the tree of a filter that is no part of another one.

**Unambiguity.**  No text has two derivations, and no derived text goes on to another one:
`Form.text_append_inj`.
-/

namespace AccessFilter.Ldap

/-! ## Values -/

/-- A piece of a value. -/
inductive Piece where
  | plain (c : Char) (allowed : c ≠ '(' ∧ c ≠ ')' ∧ c ≠ '\\')
  | code (high low : Char) (byte : UInt8) (spelled : Text.hexByte? high low = some byte)
  | escaped (c : Char)

namespace Piece

/-- The piece as it is written. -/
def text : Piece → List Char
  | plain c _ => [c]
  | code high low _ _ => ['\\', high, low]
  | escaped c => ['\\', c]

/-- The bytes that the piece stands for. -/
def bytes : Piece → List UInt8
  | plain c _ => String.utf8EncodeChar c
  | code _ _ byte _ => [byte]
  | escaped c => String.utf8EncodeChar c

/-- Whether the piece is an asterisk that is no wildcard. -/
def isLiteralStar : Piece → Bool
  | plain _ _ => false
  | code _ _ byte _ => byte == 0x2a
  | escaped c => c == '*'

/-- The bytes under which the piece is held in memory: a literal asterisk is held as `\2a`. -/
def held (p : Piece) : List UInt8 :=
  if p.isLiteralStar then Text.encode starMark else p.bytes

/-- A list of pieces as it is written. -/
def textAll (ps : List Piece) : List Char :=
  ps.flatMap text

/-- The bytes that a list of pieces stands for. -/
def bytesAll (ps : List Piece) : List UInt8 :=
  ps.flatMap bytes

/-- The bytes under which a list of pieces is held. -/
def heldAll (ps : List Piece) : List UInt8 :=
  ps.flatMap held

/-- Whether no escaped character is the beginning of a code.  A value is followed by a closing
parenthesis. -/
def Separated : List Piece → Prop
  | [] => True
  | escaped c :: ps => Text.hexByte? c ((textAll ps).headD ')') = none ∧ Separated ps
  | _ :: ps => Separated ps

@[simp] lemma textAll_nil : textAll [] = [] := rfl

@[simp] lemma textAll_cons (p : Piece) (ps : List Piece) :
    textAll (p :: ps) = p.text ++ textAll ps := List.flatMap_cons

@[simp] lemma bytesAll_cons (p : Piece) (ps : List Piece) :
    bytesAll (p :: ps) = p.bytes ++ bytesAll ps := List.flatMap_cons

@[simp] lemma heldAll_cons (p : Piece) (ps : List Piece) :
    heldAll (p :: ps) = p.held ++ heldAll ps := List.flatMap_cons

lemma textAll_code {high low : Char} {b : UInt8} (h : Text.hexByte? high low = some b)
    (ps : List Piece) : textAll (code high low b h :: ps) = '\\' :: high :: low :: textAll ps := rfl

lemma textAll_escaped (c : Char) (ps : List Piece) :
    textAll (escaped c :: ps) = '\\' :: c :: textAll ps := rfl

/-- What follows an escaped character in a filter begins with the character that `Separated` looks
at. -/
lemma exists_textAll_append (ps : List Piece) (r : List Char) :
    ∃ s, textAll ps ++ ')' :: r = (textAll ps).headD ')' :: s := by
  cases h : textAll ps with
  | nil => exact ⟨r, rfl⟩
  | cons c s => exact ⟨s ++ ')' :: r, rfl⟩

/-- The asterisk is the one character whose form is the byte `0x2a`. -/
lemma bytes_eq_of_isLiteralStar {p : Piece} (h : p.isLiteralStar = true) : p.bytes = [0x2a] := by
  cases p with
  | plain c _ => simp [isLiteralStar] at h
  | code high low byte _ =>
      rw [isLiteralStar, beq_iff_eq] at h
      rw [bytes, h]
  | escaped c =>
      rw [isLiteralStar, beq_iff_eq] at h
      rw [bytes, h]
      rfl

/-- **Holding a literal asterisk as a mark does not change whether the bytes spell a text,** since
the asterisk and the characters of its mark are ASCII.  Generalised over the bytes in front. -/
lemma isSome_decode?_heldAll_append (ps : List Piece) (front : List UInt8) :
    (Text.decode? (front ++ heldAll ps)).isSome ↔ (Text.decode? (front ++ bytesAll ps)).isSome := by
  induction ps generalizing front with
  | nil => rfl
  | cons p ps ih =>
      rw [heldAll_cons, bytesAll_cons, held]
      split_ifs with h
      · have hw : ∀ c ∈ starMark, c.toNat < 0x80 := by simp [starMark]
        have hnil := ih []
        rw [List.nil_append, List.nil_append] at hnil
        rw [bytes_eq_of_isLiteralStar h, ← List.append_assoc,
          Text.isSome_decode?_append_encode hw (by decide), List.singleton_append,
          Text.isSome_decode?_append_cons (by decide), hnil]
      · rw [← List.append_assoc, ← List.append_assoc, ih]

lemma isSome_decode?_heldAll (ps : List Piece) :
    (Text.decode? (heldAll ps)).isSome ↔ (Text.decode? (bytesAll ps)).isSome :=
  isSome_decode?_heldAll_append ps []

end Piece

/-- A derivation of a value. -/
structure ValueForm where
  pieces : List Piece
  separated : Piece.Separated pieces
  valid : (Text.decode? (Piece.bytesAll pieces)).isSome

namespace ValueForm

/-- The value as it is written. -/
def text (v : ValueForm) : List Char :=
  Piece.textAll v.pieces

/-- The value as it is held in memory. -/
def held (v : ValueForm) : String :=
  String.ofList ((Text.decode? (Piece.heldAll v.pieces)).getD [])

lemma decode?_heldAll (v : ValueForm) :
    Text.decode? (Piece.heldAll v.pieces) = some v.held.toList := by
  obtain ⟨s, hs⟩ := Option.isSome_iff_exists.mp
    ((Piece.isSome_decode?_heldAll v.pieces).mpr v.valid)
  rw [held, hs, Option.getD_some, String.toList_ofList]

lemma ext_pieces {v w : ValueForm} (h : v.pieces = w.pieces) : v = w := by
  cases v
  cases w
  cases h
  rfl

end ValueForm

/-! ## Filters -/

/-- An attribute name. -/
structure Attribute where
  chars : List Char
  nonempty : chars ≠ []
  allowed : ∀ c ∈ chars, isAttributeChar c = true

/-- The comparison of an item. -/
inductive Sign where
  | equal
  | unequal
  | atLeast
  | atMost
  deriving DecidableEq

namespace Sign

def text : Sign → List Char
  | equal => ['=']
  | unequal => ['!', '=']
  | atLeast => ['>', '=']
  | atMost => ['<', '=']

def operator : Sign → Operator
  | equal => .equals
  | unequal => .notEquals
  | atLeast => .greaterOrEqual
  | atMost => .lessOrEqual

end Sign

/-- **A derivation of a filter.** -/
inductive Form where
  | and (operands : List Form)
  | or (operands : List Form)
  | not (operand : Form)
  | item (name : Attribute) (sign : Sign) (value : ValueForm)

/-- The rule that an item stands for: its value is a text, its state the one after a change. -/
def itemRule (a : Attribute) (operator : Operator) (v : ValueForm) : Rule :=
  { operator
    field := String.ofList a.chars
    value := some (.text v.held)
    index := 0
    temporal := .after }

namespace Form

mutual

/-- The text that is derived. -/
def text : Form → List Char
  | and fs => '(' :: '&' :: textAll fs ++ [')']
  | or fs => '(' :: '|' :: textAll fs ++ [')']
  | not f => '(' :: '!' :: f.text ++ [')']
  | item a s v => '(' :: a.chars ++ s.text ++ v.text ++ [')']

/-- The texts of several filters, one after the other. -/
def textAll : List Form → List Char
  | [] => []
  | f :: fs => f.text ++ textAll fs

end

mutual

/-- The node that the text stands for.  The negation of an equality is a rule, any other negation a
group. -/
def node : Form → Node
  | and fs => .group .and 0 (nodeAll fs)
  | or fs => .group .or 0 (nodeAll fs)
  | not (item a .equal v) => .rule (itemRule a .notEquals v)
  | not f => .group .not 0 [f.node]
  | item a s v => .rule (itemRule a s.operator v)

/-- The nodes of several filters. -/
def nodeAll : List Form → List Node
  | [] => []
  | f :: fs => f.node :: nodeAll fs

end

/-- **The tree that a filter stands for,** not yet numbered.  It is rooted at the and or the or that
the filter is, and at an or around the node of any other filter. -/
def tree : Form → Group
  | and fs => { connective := .and, index := 0, children := nodeAll fs }
  | or fs => { connective := .or, index := 0, children := nodeAll fs }
  | f => { connective := .or, index := 0, children := [f.node] }

mutual

/-- How many parentheses are open at once. -/
def height : Form → Nat
  | and fs => heightAll fs + 1
  | or fs => heightAll fs + 1
  | not f => f.height + 1
  | item _ _ _ => 1

/-- The greatest height among several filters. -/
def heightAll : List Form → Nat
  | [] => 0
  | f :: fs => max f.height (heightAll fs)

end

/-! ## Small laws -/

@[simp] lemma textAll_nil : textAll [] = [] := by rw [textAll]
@[simp] lemma nodeAll_nil : nodeAll [] = [] := by rw [nodeAll]
@[simp] lemma heightAll_nil : heightAll [] = 0 := by rw [heightAll]

@[simp] lemma textAll_cons (f : Form) (fs : List Form) :
    textAll (f :: fs) = f.text ++ textAll fs := by rw [textAll]

@[simp] lemma nodeAll_cons (f : Form) (fs : List Form) :
    nodeAll (f :: fs) = f.node :: nodeAll fs := by rw [nodeAll]

@[simp] lemma heightAll_cons (f : Form) (fs : List Form) :
    heightAll (f :: fs) = max f.height (heightAll fs) := by rw [heightAll]

/-- An item that is not negated stands for its rule. -/
lemma node_item (a : Attribute) (sg : Sign) (v : ValueForm) :
    (item a sg v).node = .rule (itemRule a sg.operator v) := by
  cases sg <;> rfl

lemma height_pos (f : Form) : 0 < f.height := by
  cases f <;> simp [height]

/-- Every derived text begins with a parenthesis. -/
lemma exists_text_eq (f : Form) : ∃ s, f.text = '(' :: s := by
  cases f <;> exact ⟨_, by rw [text]; rfl⟩

/-- There are no more filters than characters. -/
lemma length_le_length_textAll : ∀ fs : List Form, fs.length ≤ (textAll fs).length := by
  intro fs
  induction fs with
  | nil => exact Nat.zero_le _
  | cons f fs ih =>
      obtain ⟨s, hs⟩ := f.exists_text_eq
      rw [textAll_cons, hs]
      simp only [List.length_cons, List.length_append]
      omega

end Form

/-! ## Nesting -/

/-- How many parentheses are open at once at most, in a text that stands where `opened` are open.
The character after a backslash opens and closes nothing. -/
def peak : (opened : Nat) → List Char → Nat
  | opened, [] => opened
  | opened, '\\' :: _ :: s => peak opened s
  | opened, c :: s =>
    if c = '(' then peak (opened + 1) s
    else if c = ')' then max opened (peak (opened - 1) s)
    else peak opened s

/-- **How deeply a text nests parentheses.** -/
def nesting (s : List Char) : Nat :=
  peak 0 s

lemma peak_open (opened : Nat) (s : List Char) :
    peak opened ('(' :: s) = peak (opened + 1) s := by
  rw [peak, if_pos rfl]
  simp

lemma peak_close (opened : Nat) (s : List Char) :
    peak opened (')' :: s) = max opened (peak (opened - 1) s) := by
  rw [peak, if_neg (by decide), if_pos rfl]
  simp

lemma peak_escape (opened : Nat) (c : Char) (s : List Char) :
    peak opened ('\\' :: c :: s) = peak opened s := by
  rw [peak]

/-- A character that is no parenthesis and no backslash does not count. -/
lemma peak_other {c : Char} (h : c ≠ '(' ∧ c ≠ ')' ∧ c ≠ '\\') (opened : Nat) (s : List Char) :
    peak opened (c :: s) = peak opened s := by
  rw [peak, if_neg h.1, if_neg h.2.1]
  exact fun _ _ hc _ => h.2.2 hc

/-- No text stays below the number of parentheses that are open where it stands. -/
lemma le_peak (opened : Nat) (s : List Char) : opened ≤ peak opened s := by
  fun_induction peak opened s with
  | case1 => exact Nat.le_refl _
  | case2 opened c s ih => exact ih
  | case3 opened s h ih => omega
  | case4 opened s h h' => omega
  | case5 opened c s h h' h'' ih => exact ih

lemma peak_append_of_forall {w : List Char} (h : ∀ c ∈ w, c ≠ '(' ∧ c ≠ ')' ∧ c ≠ '\\')
    (opened : Nat) (s : List Char) : peak opened (w ++ s) = peak opened s := by
  induction w with
  | nil => rfl
  | cons c w ih =>
      rw [List.cons_append, peak_other (h c List.mem_cons_self),
        ih fun d hd => h d (List.mem_cons_of_mem c hd)]

/-- Hexadecimal digits are no parentheses and no backslashes. -/
lemma ne_of_hexByte? {high low : Char} {b : UInt8} (h : Text.hexByte? high low = some b) :
    low ≠ '(' ∧ low ≠ ')' ∧ low ≠ '\\' := by
  have hlow : ∀ c : Char, Text.hexDigit? c = none → low ≠ c := by
    rintro c hc rfl
    rw [Text.hexByte?, hc] at h
    split at h <;> simp_all
  exact ⟨hlow _ (by decide), hlow _ (by decide), hlow _ (by decide)⟩

lemma ne_of_isAttributeChar {c : Char} (h : isAttributeChar c = true) :
    c ≠ '(' ∧ c ≠ ')' ∧ c ≠ '\\' := by
  refine ⟨?_, ?_, ?_⟩ <;> rintro rfl <;> revert h <;> decide

lemma peak_pieces (opened : Nat) (s : List Char) :
    ∀ ps : List Piece, peak opened (Piece.textAll ps ++ s) = peak opened s := by
  intro ps
  induction ps with
  | nil => rfl
  | cons p ps ih =>
      cases p with
      | plain c h =>
          rw [Piece.textAll_cons, Piece.text, List.singleton_append, List.cons_append,
            peak_other h, ih]
      | code high low b h =>
          simp only [Piece.textAll_code, List.cons_append]
          rw [peak_escape, peak_other (ne_of_hexByte? h), ih]
      | escaped c =>
          simp only [Piece.textAll_escaped, List.cons_append]
          rw [peak_escape, ih]

namespace Form

mutual

/-- A filter opens as many parentheses as it is high, and closes them all. -/
lemma peak_text (opened : Nat) (s : List Char) :
    ∀ f : Form, peak opened (f.text ++ s) = max (opened + f.height) (peak opened s)
  | and fs => by
      have hamp : '&' ≠ '(' ∧ '&' ≠ ')' ∧ '&' ≠ '\\' := by decide
      simp only [text, height, List.cons_append, List.append_assoc, List.nil_append]
      rw [peak_open, peak_other hamp, peak_textAll, peak_close, Nat.add_sub_cancel]
      omega
  | or fs => by
      have hbar : '|' ≠ '(' ∧ '|' ≠ ')' ∧ '|' ≠ '\\' := by decide
      simp only [text, height, List.cons_append, List.append_assoc, List.nil_append]
      rw [peak_open, peak_other hbar, peak_textAll, peak_close, Nat.add_sub_cancel]
      omega
  | not f => by
      have hbang : '!' ≠ '(' ∧ '!' ≠ ')' ∧ '!' ≠ '\\' := by decide
      simp only [text, height, List.cons_append, List.append_assoc, List.nil_append]
      rw [peak_open, peak_other hbang, peak_text, peak_close, Nat.add_sub_cancel]
      omega
  | item a sg v => by
      have hsign : ∀ c ∈ sg.text, c ≠ '(' ∧ c ≠ ')' ∧ c ≠ '\\' := by cases sg <;> simp [Sign.text]
      simp only [text, height, ValueForm.text, List.cons_append, List.append_assoc, List.nil_append]
      rw [peak_open, peak_append_of_forall fun c hc => ne_of_isAttributeChar (a.allowed c hc),
        peak_append_of_forall hsign, peak_pieces, peak_close, Nat.add_sub_cancel]

lemma peak_textAll (opened : Nat) (s : List Char) : ∀ fs : List Form,
    peak opened (textAll fs ++ s) = max (opened + heightAll fs) (peak opened s)
  | [] => by
      rw [textAll_nil, heightAll_nil, List.nil_append, Nat.add_zero,
        Nat.max_eq_right (le_peak opened s)]
  | f :: fs => by
      rw [textAll_cons, heightAll_cons, List.append_assoc, peak_text, peak_textAll]
      omega

end

/-- **The height of a derivation is the nesting of its text.** -/
theorem nesting_text (f : Form) : nesting f.text = f.height := by
  have h := peak_text 0 [] f
  rw [List.append_nil, peak] at h
  rw [nesting, h]
  omega

end Form

/-! ## Unambiguity -/

/-- A run of characters of a class ends at the first character that is not in it. -/
lemma append_inj_of_class {p : Char → Bool} {a b s t : List Char} (ha : ∀ c ∈ a, p c = true)
    (hb : ∀ c ∈ b, p c = true) (hs : s.takeWhile p = []) (ht : t.takeWhile p = [])
    (h : a ++ s = b ++ t) : a = b ∧ s = t := by
  have hab : a = b := by
    have h' := congrArg (List.takeWhile p) h
    rwa [List.takeWhile_append_of_pos ha, List.takeWhile_append_of_pos hb, hs, ht,
      List.append_nil, List.append_nil] at h'
  subst hab
  exact ⟨rfl, List.append_cancel_left h⟩

namespace Piece

/-- **A value in a filter has one derivation.**  Where an escaped character and a code begin alike,
what follows the escaped character would have to be the second digit of the code. -/
lemma textAll_append_inj {r r' : List Char} : ∀ {ps qs : List Piece}, Separated ps → Separated qs →
    textAll ps ++ ')' :: r = textAll qs ++ ')' :: r' → ps = qs ∧ r = r'
  | [], [], _, _, h => ⟨rfl, (List.cons.inj h).2⟩
  | [], .plain c hc :: qs, _, _, h => absurd (List.cons.inj h).1.symm hc.2.1
  | .plain c hc :: ps, [], _, _, h => absurd (List.cons.inj h).1 hc.2.1
  | .plain c hc :: ps, .plain d hd :: qs, hp, hq, h => by
      obtain ⟨rfl, ht⟩ := List.cons.inj h
      obtain ⟨rfl, rfl⟩ := textAll_append_inj (by exact hp) (by exact hq) ht
      exact ⟨rfl, rfl⟩
  | .code a b x hx :: ps, .code c d y hy :: qs, hp, hq, h => by
      simp only [textAll_code, List.cons_append, List.cons.injEq, true_and] at h
      obtain ⟨rfl, rfl, ht⟩ := h
      obtain rfl : x = y := Option.some.inj (hx.symm.trans hy)
      obtain ⟨rfl, rfl⟩ := textAll_append_inj (by exact hp) (by exact hq) ht
      exact ⟨rfl, rfl⟩
  | .escaped c :: ps, .escaped d :: qs, hp, hq, h => by
      simp only [textAll_escaped, List.cons_append, List.cons.injEq, true_and] at h
      obtain ⟨rfl, ht⟩ := h
      obtain ⟨rfl, rfl⟩ := textAll_append_inj hp.2 hq.2 ht
      exact ⟨rfl, rfl⟩
  | .code a b x hx :: ps, .escaped c :: qs, _, hq, h => by
      obtain ⟨s, hs⟩ := exists_textAll_append qs r'
      simp only [textAll_code, textAll_escaped, List.cons_append, List.cons.injEq, true_and,
        hs] at h
      obtain ⟨rfl, rfl, -⟩ := h
      exact absurd (hx.symm.trans hq.1) (by simp)
  | .escaped c :: ps, .code a b x hx :: qs, hp, _, h => by
      obtain ⟨s, hs⟩ := exists_textAll_append ps r
      simp only [textAll_code, textAll_escaped, List.cons_append, List.cons.injEq, true_and,
        hs] at h
      obtain ⟨rfl, rfl, -⟩ := h
      exact absurd (hx.symm.trans hp.1) (by simp)
  | [], .code .. :: _, _, _, h | [], .escaped _ :: _, _, _, h => absurd h (by simp [text])
  | .code .. :: _, [], _, _, h | .escaped _ :: _, [], _, _, h => absurd h (by simp [text])
  | .plain _ hc :: _, .code .. :: _, _, _, h | .plain _ hc :: _, .escaped _ :: _, _, _, h =>
      absurd (List.cons.inj h).1 hc.2.2
  | .code .. :: _, .plain _ hc :: _, _, _, h | .escaped _ :: _, .plain _ hc :: _, _, _, h =>
      absurd (List.cons.inj h).1.symm hc.2.2

end Piece

lemma Sign.takeWhile_text_append (sg : Sign) (s : List Char) :
    (sg.text ++ s).takeWhile isAttributeChar = [] := by
  cases sg <;> rfl

lemma Sign.text_append_inj {sg sg' : Sign} {s s' : List Char}
    (h : sg.text ++ s = sg'.text ++ s') : sg = sg' ∧ s = s' := by
  cases sg <;> cases sg' <;> simp_all [Sign.text]

/-- An attribute name begins none of the other forms of a filter. -/
lemma Attribute.exists_chars_eq (a : Attribute) :
    ∃ c s, a.chars = c :: s ∧ c ≠ '&' ∧ c ≠ '|' ∧ c ≠ '!' := by
  cases h : a.chars with
  | nil => exact absurd h a.nonempty
  | cons c s =>
      have hc : isAttributeChar c = true := a.allowed c (by simp [h])
      refine ⟨c, s, rfl, ?_, ?_, ?_⟩ <;> rintro rfl <;> revert hc <;> decide

lemma Attribute.ext_chars {a b : Attribute} (h : a.chars = b.chars) : a = b := by
  cases a
  cases b
  cases h
  rfl

namespace Form

lemma item_append_inj {a b : Attribute} {sg sg' : Sign} {v w : ValueForm} {r r' : List Char}
    (h : a.chars ++ (sg.text ++ (v.text ++ ')' :: r)) =
      b.chars ++ (sg'.text ++ (w.text ++ ')' :: r'))) :
    item a sg v = item b sg' w ∧ r = r' := by
  obtain ⟨ha, hs⟩ := append_inj_of_class a.allowed b.allowed (sg.takeWhile_text_append _)
    (sg'.takeWhile_text_append _) h
  obtain ⟨rfl, ht⟩ := Sign.text_append_inj hs
  obtain ⟨hv, rfl⟩ := Piece.textAll_append_inj v.separated w.separated ht
  rw [Attribute.ext_chars ha, ValueForm.ext_pieces hv]
  exact ⟨rfl, rfl⟩

mutual

/-- **No text has two derivations,** nor has a longer text one that begins differently. -/
theorem text_append_inj {r r' : List Char} : ∀ {f g : Form}, f.text ++ r = g.text ++ r' →
    f = g ∧ r = r'
  | and fs, and gs, h => by
      simp only [text, List.cons_append, List.nil_append, List.append_assoc, List.cons.injEq,
        true_and] at h
      obtain ⟨rfl, rfl⟩ := textAll_append_inj h
      exact ⟨rfl, rfl⟩
  | or fs, or gs, h => by
      simp only [text, List.cons_append, List.nil_append, List.append_assoc, List.cons.injEq,
        true_and] at h
      obtain ⟨rfl, rfl⟩ := textAll_append_inj h
      exact ⟨rfl, rfl⟩
  | not f, not g, h => by
      simp only [text, List.cons_append, List.nil_append, List.append_assoc, List.cons.injEq,
        true_and] at h
      obtain ⟨rfl, ht⟩ := text_append_inj h
      exact ⟨rfl, (List.cons.inj ht).2⟩
  | item a sg v, item b sg' w, h => by
      simp only [text, List.cons_append, List.nil_append, List.append_assoc, List.cons.injEq,
        true_and] at h
      exact item_append_inj h
  | item a _ _, and _, h | item a _ _, or _, h | item a _ _, not _, h => by
      obtain ⟨c, s, hc, h1, h2, h3⟩ := a.exists_chars_eq
      simp [text, hc, h1, h2, h3] at h
  | and _, item a _ _, h | or _, item a _ _, h | not _, item a _ _, h => by
      obtain ⟨c, s, hc, h1, h2, h3⟩ := a.exists_chars_eq
      simp [text, hc, h1.symm, h2.symm, h3.symm] at h
  | and _, or _, h | and _, not _, h | or _, and _, h | or _, not _, h | not _, and _, h
  | not _, or _, h => by simp [text] at h

lemma textAll_append_inj {r r' : List Char} : ∀ {fs gs : List Form},
    textAll fs ++ ')' :: r = textAll gs ++ ')' :: r' → fs = gs ∧ r = r'
  | [], [], h => by simpa using h
  | [], g :: gs, h => by
      obtain ⟨s, hs⟩ := g.exists_text_eq
      simp [hs] at h
  | f :: fs, [], h => by
      obtain ⟨s, hs⟩ := f.exists_text_eq
      simp [hs] at h
  | f :: fs, g :: gs, h => by
      rw [textAll_cons, textAll_cons, List.append_assoc, List.append_assoc] at h
      obtain ⟨rfl, ht⟩ := text_append_inj h
      obtain ⟨rfl, rfl⟩ := textAll_append_inj ht
      exact ⟨rfl, rfl⟩

end

end Form

end AccessFilter.Ldap
