import AccessFilter.Proofs.Ldap.Acceptance
import AccessFilter.Proofs.Text.Position

/-!
# Reading a filter with a cursor over its bytes

The readers of filters hand on the rest of the text.  Here the same grammar is read with a cursor: a
position in bytes, which some steps move by bytes and others by characters, and the number of
parentheses that are open.  What such a reader must not do is a case of its own (`Halt`): to take
a part of the text at an offset that is no position in it, and to close a parenthesis where none is
open.

**Agreement.**  Wherever the cursor stands at the rest of the text that a reader is given, the two
readers give the same, and the cursor stands at the rest that is left (`Agrees`, `Stands`).  One
lemma for each reader says so, and the compositions follow (`Agrees.bind`).  So the cursor never
does what it must not, on no text at all.

**Places of faults.**  Along with it goes that a fault holds a rest of the text, and that a
parenthesis is found missing only at its end (`Fault.Placed`).

* `Cursor`, `Halt`, `parseBytes` — the reader with a cursor.
* `Fault.Placed`, `Agrees.placed` — where faults are.
* **`parseBytes_eq`** — the reader with a cursor gives what `parse` gives.
-/

namespace AccessFilter.Ldap

/-! ## The cursor -/

/-- Where a reader stands in a text: a position in bytes, and how many parentheses are open. -/
structure Cursor where
  position : Nat
  depth : Nat

/-- Why a reader with a cursor stops without a result. -/
inductive Halt where
  /-- It reports a failure. -/
  | failed (failure : Failure)
  /-- A part of the text was to be taken at an offset that is no position in it. -/
  | misplaced
  /-- A parenthesis was to be closed where none is open. -/
  | unopened
  /-- A loop went on for longer than the text is. -/
  | exhausted

namespace Cursor

def advance (k : Cursor) (size : Nat) : Cursor :=
  { k with position := k.position + size }

/-- Something else was expected at the cursor. -/
def invalid (k : Cursor) (expected : Expected) : Halt :=
  .failed (.unexpected k.position expected)

/-- A parenthesis is missing or too many at the cursor. -/
def unbalanced (k : Cursor) : Halt :=
  .failed (.unbalanced k.position)

section

variable (text : List Char)

/-- The byte at the cursor, none at the end of the text. -/
def peek? (k : Cursor) : Option UInt8 :=
  (Text.encode text)[k.position]?

/-- Whether the byte at the cursor is an ASCII character. -/
def sees (k : Cursor) (c : Char) : Bool :=
  k.peek? text == some (Text.asciiByte c)

/-- The text from the cursor on. -/
def rest (k : Cursor) : Except Halt (List Char) :=
  match Text.splitAt? text k.position with
  | some (_, behind) => .ok behind
  | none => .error .misplaced

/-- The cursor is misplaced exactly where it stands at no position of the text. -/
lemma rest_eq_misplaced_iff {text : String} {k : Cursor} :
    k.rest text.toList = .error .misplaced ↔
      ¬ (String.Pos.Raw.mk k.position).IsValid text := by
  rw [← Text.isSome_splitAt?_iff, rest]
  cases Text.splitAt? text.toList k.position <;> simp

/-- The text from the cursor on, up to so many bytes. -/
def part (k : Cursor) (size : Nat) : Except Halt (List Char) := do
  let behind ← k.rest text
  match Text.splitAt? behind size with
  | some (front, _) => .ok front
  | none => .error .misplaced

/-- The bytes from the cursor on. -/
def bytes (k : Cursor) : Except Halt (List UInt8) :=
  if k.position ≤ Text.byteSize text then .ok ((Text.encode text).drop k.position)
  else .error .misplaced

/-! ## Parentheses -/

/-- Behind an opening parenthesis. -/
def enter (k : Cursor) : Except Halt Cursor :=
  if k.sees text '(' then
    if nestingLimit < k.depth + 1 then .error (.failed .tooDeep)
    else .ok ⟨k.position + 1, k.depth + 1⟩
  else if k.peek? text = none then .error k.unbalanced
  else .error (k.invalid .openParenthesis)

/-- Behind a closing parenthesis. -/
def leave (k : Cursor) : Except Halt Cursor :=
  if k.sees text ')' then
    match k.depth with
    | 0 => .error .unopened
    | depth + 1 => .ok ⟨k.position + 1, depth⟩
  else if k.peek? text = none then .error k.unbalanced
  else .error (k.invalid .closeParenthesis)

/-! ## Items -/

/-- How many bytes of attribute names come next. -/
def nameSize (k : Cursor) : Nat :=
  (((Text.encode text).drop k.position).takeWhile fun b => isAttributeChar (Char.ofUInt8 b)).length

/-- The comparison at the cursor. -/
def operator (k : Cursor) : Except Halt (Operator × Cursor) := do
  match ← k.rest text with
  | '=' :: _ => return (.equals, k.advance 1)
  | '!' :: '=' :: _ => return (.notEquals, k.advance 2)
  | '>' :: '=' :: _ => return (.greaterOrEqual, k.advance 2)
  | '<' :: '=' :: _ => return (.lessOrEqual, k.advance 2)
  | s =>
    .error (.failed (.unknownOperator
      (String.ofList ((s.takeWhile fun c => !c.isAlphanum && c != ')').take 2))))

/-- The byte that two hexadecimal digits spell at the front of bytes. -/
def hexEscape? : List UInt8 → Option UInt8
  | high :: low :: _ => Text.hexByte? (Char.ofUInt8 high) (Char.ofUInt8 low)
  | _ => none

/-- What is escaped, behind its backslash. -/
def escape (k : Cursor) : Except Halt (List UInt8 × Cursor) := do
  match hexEscape? (← k.bytes text) with
  | some b => return (byteBytes b, k.advance 2)
  | none =>
    match ← k.rest text with
    | c :: _ => return (charBytes c, k.advance c.utf8Size)
    | [] => .error (k.invalid .escapedCharacter)

/-- A character that stands for itself, taken as bytes. -/
def character (k : Cursor) : Except Halt (List UInt8 × Cursor) := do
  let size := ((← k.rest text).head?.map Char.utf8Size).getD 1
  let front := (← k.bytes text).take size
  if front.length = size then return (front, k.advance size) else .error .misplaced

/-- The bytes of what comes next in a value: something escaped or a character. -/
def piece (k : Cursor) : Except Halt (List UInt8 × Cursor) :=
  if k.sees text '\\' then (k.advance 1).escape text else k.character text

/-- The bytes of a value, up to the closing parenthesis. -/
def value : (steps : Nat) → Cursor → Except Halt (List UInt8 × Cursor)
  | 0, _ => .error .exhausted
  | steps + 1, k =>
    if k.sees text ')' then .ok ([], k)
    else if k.sees text '(' then .error (k.invalid .escapedParenthesis)
    else if k.peek? text = none then .error k.unbalanced
    else do
      let (front, k) ← k.piece text
      let (more, k) ← value steps k
      return (front ++ more, k)

/-- A value as a text. -/
def valueText (k : Cursor) : Except Halt (String × Cursor) := do
  let (bytes, behind) ← value text (Text.byteSize text + 1) k
  match Text.decode? bytes with
  | some s => return (String.ofList s, behind)
  | none => .error (k.invalid .validBytes)

/-- An attribute name, a comparison and a value. -/
def item (k : Cursor) : Except Halt (Rule × Cursor) := do
  let size := k.nameSize text
  if size = 0 then .error (k.invalid .attributeName)
  else
    let name ← k.part text size
    let (op, k) ← (k.advance size).operator text
    let (s, k) ← k.valueText text
    return (Rule.make (String.ofList name) op (some (.text s)), k)

/-! ## Filters -/

/-- Filters one after the other, as long as a parenthesis opens. -/
def filters (one : Cursor → Except Halt (Node × Cursor)) :
    (steps : Nat) → Cursor → Except Halt (List Node × Cursor)
  | 0, _ => .error .exhausted
  | steps + 1, k =>
    if k.sees text '(' then do
      let (n, k) ← one k
      let (ns, k) ← filters one steps k
      return (n :: ns, k)
    else .ok ([], k)

/-- What stands between the parentheses of a filter. -/
def body (inner : Cursor → Except Halt (Node × Cursor)) (k : Cursor) :
    Except Halt (Node × Cursor) :=
  if k.peek? text = none then .error k.unbalanced
  else if k.sees text '&' then do
    let (ns, k) ← filters text inner (Text.byteSize text + 1) (k.advance 1)
    return (.group .and 0 ns, k)
  else if k.sees text '|' then do
    let (ns, k) ← filters text inner (Text.byteSize text + 1) (k.advance 1)
    return (.group .or 0 ns, k)
  else if k.sees text '!' then
    if (k.advance 1).sees text '(' then do
      let (n, k) ← inner (k.advance 1)
      return (negation n, k)
    else .error ((k.advance 1).invalid .singleFilter)
  else do
    let (r, k) ← k.item text
    return (.rule r, k)

/-- A filter.  No more than `steps` filters may stand inside one another. -/
def filter : (steps : Nat) → Cursor → Except Halt (Node × Cursor)
  | 0, _ => .error .exhausted
  | steps + 1, k => do
    let k ← k.enter text
    let (n, k) ← k.body text (filter steps)
    let k ← k.leave text
    return (n, k)

/-- A text that is one filter and nothing else. -/
def wholeFilter : Except Halt Node := do
  let (n, k) ← filter text (nestingLimit + 1) ⟨0, 0⟩
  if Text.byteSize text ≤ k.position then return n
  else if k.sees text ')' then .error k.unbalanced
  else .error (k.invalid .endOfText)

end

end Cursor

/-- **The tree of a filter text, read with a cursor over its bytes.** -/
def parseBytes (text : String) : Except Halt Group :=
  let s := Text.trim text.toList
  if s.isEmpty then .error (.failed .blank)
  else do return (Group.ofNode (← Cursor.wholeFilter s)).numbered

/-! ## Agreement -/

/-- The rest of the text is a closing parenthesis too many: what stands in front of it is derived
and nests no deeper than the limit. -/
def Surplus (text rest : List Char) : Prop :=
  ∃ (f : Form) (behind : List Char), f.height ≤ nestingLimit ∧ text = f.text ++ rest ∧
    rest = ')' :: behind

/-- A fault holds a rest of the text, and a parenthesis is missing only at the end of it. -/
def Fault.Placed (text : List Char) : Fault → Prop
  | unexpected _ rest => rest <:+ text
  | unbalanced rest => rest = [] ∨ Surplus text rest
  | unknownOperator _ | tooDeep => True

/-- The cursor stands where `rest` begins, with so many parentheses open. -/
structure Stands (text : List Char) (depth : Nat) (rest : List Char) (k : Cursor) : Prop where
  place : Text.At text k.position rest
  depth : k.depth = depth

/-- Two readers agree: they give results that go together, or the fault of the one is the failure of
the other and is placed in the text. -/
def Agrees {α β : Type} (text : List Char) (together : α → β → Prop) :
    Except Fault α → Except Halt β → Prop
  | .ok a, .ok b => together a b
  | .error f, .error h => h = .failed (f.toFailure text) ∧ f.Placed text
  | .ok _, .error _ | .error _, .ok _ => False

/-- Results that are the same, and leave the cursor at the rest of the text. -/
def Leaves {α : Type} (text : List Char) (depth : Nat) (x : α × List Char) (y : α × Cursor) :
    Prop :=
  x.1 = y.1 ∧ Stands text depth x.2 y.2

section

variable {α β γ δ : Type} {text s : List Char} {depth : Nat} {k : Cursor}

/-- **Compositions agree if their parts do.** -/
lemma Agrees.bind {together : α → β → Prop} {together' : γ → δ → Prop} {x : Except Fault α}
    {y : Except Halt β} {f : α → Except Fault γ} {g : β → Except Halt δ}
    (h : Agrees text together x y)
    (hbehind : ∀ a b, x = .ok a → together a b → Agrees text together' (f a) (g b)) :
    Agrees text together' (x >>= f) (y >>= g) := by
  cases x with
  | ok a =>
      cases y with
      | ok b => exact hbehind a b rfl h
      | error e => exact h.elim
  | error e =>
      cases y with
      | ok b => exact h.elim
      | error e' => exact h

/-- Where readers agree a fault is placed. -/
lemma Agrees.placed {together : α → β → Prop} {f : Fault} {y : Except Halt β}
    (h : Agrees text together (.error f) y) : f.Placed text := by
  cases y with
  | ok b => exact h.elim
  | error e => exact h.2

lemma agrees_invalid {together : α → β → Prop} (h : Stands text depth s k) (expected : Expected) :
    Agrees text together (.error (.unexpected expected s)) (.error (k.invalid expected)) := by
  obtain ⟨before, hs, -⟩ := h.place
  refine ⟨?_, before, hs.symm⟩
  rw [Fault.toFailure, ← h.place.eq_sub, Cursor.invalid]

lemma agrees_unbalanced {together : α → β → Prop} (h : Stands text depth [] k) :
    Agrees text together (.error (.unbalanced [])) (.error k.unbalanced) := by
  refine ⟨?_, .inl rfl⟩
  rw [Fault.toFailure, ← h.place.eq_sub, Cursor.unbalanced]

namespace Stands

/-! ### What the cursor sees -/

lemma peek?_nil (h : Stands text depth [] k) : k.peek? text = none :=
  h.place.getElem?_encode

lemma peek?_cons {c : Char} (h : Stands text depth (c :: s) k) :
    k.peek? text = some (Text.firstByte c) :=
  h.place.getElem?_encode.trans (Text.head?_encode_cons c s)

lemma sees_nil (h : Stands text depth [] k) (a : Char) : ¬ k.sees text a = true := by
  rw [Cursor.sees, h.peek?_nil]
  exact Bool.false_ne_true

/-- **An ASCII character is seen exactly where it stands.** -/
lemma sees_iff {c : Char} (h : Stands text depth (c :: s) k) {a : Char} (ha : a.toNat < 0x80) :
    k.sees text a = true ↔ c = a := by
  rw [Cursor.sees, h.peek?_cons, beq_iff_eq, Option.some.injEq,
    Text.firstByte_eq_asciiByte_iff ha]

lemma peek?_ne_none {c : Char} (h : Stands text depth (c :: s) k) : ¬ k.peek? text = none := by
  rw [h.peek?_cons]
  exact Option.some_ne_none _

/-! ### What is taken at the cursor -/

lemma rest_eq (h : Stands text depth s k) : k.rest text = .ok s := by
  obtain ⟨before, hsplit⟩ := h.place.splitAt?_eq
  rw [Cursor.rest, hsplit]

lemma part_eq {w : List Char} (h : Stands text depth (w ++ s) k) :
    k.part text (Text.byteSize w) = .ok w := by
  rw [Cursor.part, h.rest_eq, ok_bind, Text.splitAt?_append]

lemma bytes_eq (h : Stands text depth s k) : k.bytes text = .ok (Text.encode s) := by
  rw [Cursor.bytes, if_pos h.place.le, h.place.drop_encode]

/-! ### Where the cursor goes -/

lemma advance {w : List Char} (h : Stands text depth (w ++ s) k) :
    Stands text depth s (k.advance (Text.byteSize w)) :=
  ⟨h.place.append, h.depth⟩

lemma advance_cons {c : Char} (h : Stands text depth (c :: s) k) :
    Stands text depth s (k.advance c.utf8Size) :=
  ⟨h.place.cons, h.depth⟩

lemma advance_ascii {c : Char} (h : Stands text depth (c :: s) k) (hc : c.toNat < 0x80) :
    Stands text depth s (k.advance 1) := by
  rw [← Text.utf8Size_of_lt hc]
  exact h.advance_cons

end Stands

/-! ## Operators and values -/

lemma agrees_operator (h : Stands text depth s k) :
    Agrees text (Leaves text depth) (operator s) (k.operator text) := by
  rw [Cursor.operator, h.rest_eq, ok_bind]
  fun_cases operator s with
  | case1 => exact ⟨rfl, h.advance_ascii (by decide)⟩
  | case2 => exact ⟨rfl, h.advance (w := ['!', '='])⟩
  | case3 => exact ⟨rfl, h.advance (w := ['>', '='])⟩
  | case4 => exact ⟨rfl, h.advance (w := ['<', '='])⟩
  | case5 s hequal hunequal hleast hmost =>
      split
      · exact absurd rfl (hequal _)
      · exact absurd rfl (hunequal _)
      · exact absurd rfl (hleast _)
      · exact absurd rfl (hmost _)
      · exact ⟨rfl, trivial⟩

/-- No character but those of ASCII is a letter or a digit. -/
lemma isAlphanum_of_le {c : Char} (h : 0x80 ≤ c.toNat) : c.isAlphanum = false := by
  rw [← Bool.not_eq_true]
  intro hc
  have hvisible := (Text.visible_of_isAlphanum hc).2
  omega

lemma isAttributeChar_of_le {c : Char} (h : 0x80 ≤ c.toNat) : isAttributeChar c = false := by
  have hne : ∀ a : Char, a.toNat < 0x80 → (c == a) = false := by
    intro a ha
    rw [beq_eq_false_iff_ne]
    rintro rfl
    omega
  rw [isAttributeChar, isAlphanum_of_le h, hne '_' (by decide), hne '.' (by decide)]
  rfl

lemma hexDigit?_of_le {c : Char} (h : 0x80 ≤ c.toNat) : Text.hexDigit? c = none := by
  have hdigit : ¬ c.isDigit = true := by
    intro hc
    have hletter := isAlphanum_of_le h
    rw [Char.isAlphanum, hc, Bool.or_true] at hletter
    cases hletter
  have hbelow : ∀ a b : Char, b.toNat < 0x80 → ¬ (a ≤ c ∧ c ≤ b) := by
    intro a b hb hc
    have hle : c.toNat ≤ b.toNat := UInt32.le_iff_toNat_le.mp hc.2
    omega
  rw [Text.hexDigit?, if_neg hdigit, if_neg (hbelow 'a' 'f' (by decide)),
    if_neg (hbelow 'A' 'F' (by decide))]

lemma hexByte?_of_left {high low : Char} (h : Text.hexDigit? high = none) :
    Text.hexByte? high low = none := by
  rw [Text.hexByte?, h]

lemma hexByte?_of_right {high low : Char} (h : Text.hexDigit? low = none) :
    Text.hexByte? high low = none := by
  rw [Text.hexByte?, h]
  split <;> simp_all

/-- The digits of a code are characters of ASCII. -/
lemma lt_of_hexByte? {high low : Char} {b : UInt8} (h : Text.hexByte? high low = some b) :
    high.toNat < 0x80 ∧ low.toNat < 0x80 := by
  constructor <;> by_contra hle
  · rw [hexByte?_of_left (hexDigit?_of_le (Nat.le_of_not_lt hle))] at h
    cases h
  · rw [hexByte?_of_right (hexDigit?_of_le (Nat.le_of_not_lt hle))] at h
    cases h

lemma hexDigit?_firstByte (c : Char) :
    Text.hexDigit? (Char.ofUInt8 (Text.firstByte c)) = Text.hexDigit? c :=
  Text.apply_firstByte (fun _ => hexDigit?_of_le) c

lemma hexByte?_firstByte (c d : Char) :
    Text.hexByte? (Char.ofUInt8 (Text.firstByte c)) (Char.ofUInt8 (Text.firstByte d)) =
      Text.hexByte? c d := by
  rw [Text.hexByte?, Text.hexByte?, hexDigit?_firstByte, hexDigit?_firstByte]

/-- Bytes that begin with one of a character that is no digit are no code. -/
lemma hexEscape?_of_not_ascii {c : Char} (h : ¬ c.toNat < 0x80) (s : List Char) :
    Cursor.hexEscape? (Text.encode (c :: s)) = none := by
  have hdigit := hexDigit?_of_le (Nat.le_of_not_lt h)
  rw [← hexDigit?_firstByte] at hdigit
  obtain ⟨bytes, hc⟩ := Text.exists_utf8EncodeChar_eq c
  rw [Text.encode, hc, List.cons_append]
  cases bytes ++ Text.encode s with
  | nil => rfl
  | cons b more => exact hexByte?_of_left hdigit

/-- **A code can be read off the bytes of a text,** wherever its characters end. -/
lemma hexEscape?_encode (c d : Char) (s : List Char) :
    Cursor.hexEscape? (Text.encode (c :: d :: s)) = Text.hexByte? c d := by
  by_cases hc : c.toNat < 0x80
  · obtain ⟨bytes, hd⟩ := Text.exists_utf8EncodeChar_eq d
    rw [Text.encode_cons_of_lt hc, Text.encode, hd, ← hexByte?_firstByte]
    rfl
  · rw [hexEscape?_of_not_ascii hc, hexByte?_of_left (hexDigit?_of_le (Nat.le_of_not_lt hc))]

lemma hexEscape?_encode_singleton (c : Char) : Cursor.hexEscape? (Text.encode [c]) = none := by
  by_cases hc : c.toNat < 0x80
  · rw [Text.encode_singleton, Text.utf8EncodeChar_of_lt hc]
    rfl
  · exact hexEscape?_of_not_ascii hc []

/-! ### Escapes -/

/-- A backslash with nothing behind it escapes nothing. -/
lemma piece_end (h : Stands text depth ['\\'] k) :
    ∃ k', k.piece text = .error (k'.invalid .escapedCharacter) ∧ Stands text depth [] k' := by
  have hbehind := h.advance_ascii (by decide)
  refine ⟨k.advance 1, ?_, hbehind⟩
  rw [Cursor.piece, if_pos ((h.sees_iff (by decide)).mpr rfl), Cursor.escape, hbehind.bytes_eq,
    ok_bind, hbehind.rest_eq]
  rfl

lemma piece_code {c d : Char} {b : UInt8} (h : Stands text depth ('\\' :: c :: d :: s) k)
    (hcode : Text.hexByte? c d = some b) :
    ∃ k', k.piece text = .ok (byteBytes b, k') ∧ Stands text depth s k' := by
  obtain ⟨hc, hd⟩ := lt_of_hexByte? hcode
  have hbehind := h.advance_ascii (by decide)
  have hsize : Text.byteSize [c, d] = 2 := by
    rw [Text.byteSize, Text.byteSize, Text.utf8Size_of_lt hc, Text.utf8Size_of_lt hd]
    rfl
  refine ⟨(k.advance 1).advance 2, ?_, hsize ▸ hbehind.advance (w := [c, d])⟩
  rw [Cursor.piece, if_pos ((h.sees_iff (by decide)).mpr rfl), Cursor.escape, hbehind.bytes_eq,
    ok_bind, hexEscape?_encode, hcode]
  rfl

lemma piece_escaped {c : Char} (h : Stands text depth ('\\' :: c :: s) k)
    (hcode : Cursor.hexEscape? (Text.encode (c :: s)) = none) :
    ∃ k', k.piece text = .ok (charBytes c, k') ∧ Stands text depth s k' := by
  have hbehind := h.advance_ascii (by decide)
  refine ⟨(k.advance 1).advance c.utf8Size, ?_, hbehind.advance_cons⟩
  rw [Cursor.piece, if_pos ((h.sees_iff (by decide)).mpr rfl), Cursor.escape, hbehind.bytes_eq,
    ok_bind, hcode, hbehind.rest_eq]
  rfl

/-- A character that stands for itself is taken whole. -/
lemma piece_plain {c : Char} (h : Stands text depth (c :: s) k) (hc : c ≠ '\\') :
    ∃ k', k.piece text = .ok (String.utf8EncodeChar c, k') ∧ Stands text depth s k' := by
  have hlength := String.length_utf8EncodeChar c
  have htake : (Text.encode (c :: s)).take c.utf8Size = String.utf8EncodeChar c := by
    rw [Text.encode, ← hlength, List.take_left]
  refine ⟨k.advance c.utf8Size, ?_, h.advance_cons⟩
  rw [Cursor.piece, if_neg (mt (h.sees_iff (by decide)).mp hc)]
  simp only [Cursor.character, h.rest_eq, h.bytes_eq, ok_bind, List.head?_cons, Option.map_some,
    Option.getD_some, htake, if_pos hlength]
  rfl

/-! ### Values -/

section

variable {steps : Nat}

lemma agrees_value_nil (h : Stands text depth [] k) (hsteps : 0 < steps) :
    Agrees text (Leaves text depth) (.error (.unbalanced [])) (Cursor.value text steps k) := by
  obtain ⟨steps, rfl⟩ := Nat.exists_eq_add_one.mpr hsteps
  simp only [Cursor.value, h.sees_nil, h.peek?_nil, if_true, Bool.false_eq_true, if_false]
  exact agrees_unbalanced h

lemma agrees_value_close (h : Stands text depth (')' :: s) k) (hsteps : 0 < steps) :
    Agrees text (Leaves text depth) (.ok ([], ')' :: s)) (Cursor.value text steps k) := by
  obtain ⟨steps, rfl⟩ := Nat.exists_eq_add_one.mpr hsteps
  rw [Cursor.value, if_pos ((h.sees_iff (by decide)).mpr rfl)]
  exact ⟨rfl, h⟩

lemma agrees_value_open (h : Stands text depth ('(' :: s) k) (hsteps : 0 < steps) :
    Agrees text (Leaves text depth) (.error (.unexpected .escapedParenthesis ('(' :: s)))
      (Cursor.value text steps k) := by
  obtain ⟨steps, rfl⟩ := Nat.exists_eq_add_one.mpr hsteps
  rw [Cursor.value, if_neg (by rw [h.sees_iff (by decide)]; decide),
    if_pos ((h.sees_iff (by decide)).mpr rfl)]
  exact agrees_invalid h .escapedParenthesis

lemma prepend_eq_bind (front : List UInt8) (x : Except Fault (List UInt8 × List Char)) :
    prepend front x = x >>= fun p => .ok (front ++ p.1, p.2) := by
  cases x <;> rfl

/-- Where a character stands that ends nothing, the loop takes a piece and goes on. -/
lemma value_succ {c : Char} (h : Stands text depth (c :: s) k) (hc : c ≠ '(' ∧ c ≠ ')') :
    Cursor.value text (steps + 1) k =
      (do let (front, k) ← k.piece text
          let (more, k) ← Cursor.value text steps k
          return (front ++ more, k)) := by
  simp only [Cursor.value, h.sees_iff (a := '(') (by decide), h.sees_iff (a := ')') (by decide),
    h.peek?_ne_none, hc.1, hc.2, if_false]

lemma agrees_value_end (h : Stands text depth ['\\'] k) (hsteps : 0 < steps) :
    Agrees text (Leaves text depth) (.error (.unexpected .escapedCharacter []))
      (Cursor.value text steps k) := by
  obtain ⟨steps, rfl⟩ := Nat.exists_eq_add_one.mpr hsteps
  obtain ⟨k', hpiece, hstands⟩ := piece_end h
  rw [value_succ h (by decide), hpiece]
  exact agrees_invalid hstands .escapedCharacter

/-- Values agree if they do behind a piece. -/
lemma agrees_value_piece {c : Char} {front : List UInt8}
    {x : Except Fault (List UInt8 × List Char)} {r : List Char}
    (h : Stands text depth (c :: s) k) (hc : c ≠ '(' ∧ c ≠ ')')
    (hpiece : ∃ k', k.piece text = .ok (front, k') ∧ Stands text depth r k')
    (hsteps : r.length + 1 < steps)
    (hbehind : ∀ {steps k'}, Stands text depth r k' → r.length < steps →
      Agrees text (Leaves text depth) x (Cursor.value text steps k')) :
    Agrees text (Leaves text depth) (prepend front x) (Cursor.value text steps k) := by
  obtain ⟨steps, rfl⟩ := Nat.exists_eq_add_one.mpr (Nat.zero_lt_of_lt hsteps)
  obtain ⟨k', hpiece, hstands⟩ := hpiece
  rw [value_succ h hc, hpiece, ok_bind, prepend_eq_bind]
  refine (hbehind hstands (Nat.lt_of_succ_lt_succ hsteps)).bind ?_
  rintro ⟨more, r⟩ ⟨more', k''⟩ - ⟨rfl, hr⟩
  exact ⟨rfl, hr⟩

/-- **Values are read alike.**  The loop needs no more steps than there are characters, and one to
see that it is at the end. -/
lemma agrees_value (h : Stands text depth s k) (hsteps : s.length < steps) :
    Agrees text (Leaves text depth) (value s) (Cursor.value text steps k) := by
  have hslash : '\\' ≠ '(' ∧ '\\' ≠ ')' := by decide
  fun_induction value s generalizing k steps with
  | case1 => exact agrees_value_nil h hsteps
  | case2 => exact agrees_value_end h (Nat.zero_lt_of_lt hsteps)
  | case3 c =>
      exact agrees_value_piece h hslash (piece_escaped h (hexEscape?_encode_singleton c))
        (Nat.lt_of_succ_lt hsteps) agrees_value_nil
  | case4 c d s b hb ih =>
      exact agrees_value_piece h hslash (piece_code h hb)
        (Nat.lt_of_succ_lt (Nat.lt_of_succ_lt hsteps)) ih
  | case5 c d s hcd ih =>
      exact agrees_value_piece h hslash
        (piece_escaped h ((hexEscape?_encode c d s).trans hcd)) (Nat.lt_of_succ_lt hsteps) ih
  | case6 s => exact agrees_value_close h (Nat.zero_lt_of_lt hsteps)
  | case7 => exact agrees_value_open h (Nat.zero_lt_of_lt hsteps)
  | case8 c s hc1 hc2 hc3 hclose hopen ih =>
      have hc : c ≠ '\\' := by
        rintro rfl
        rcases s with _ | ⟨d, _ | ⟨e, s⟩⟩
        · exact hc1 rfl rfl
        · exact hc2 d rfl rfl
        · exact hc3 d e s rfl rfl
      exact agrees_value_piece h ⟨hopen, hclose⟩ (piece_plain h hc) hsteps ih

end

lemma agrees_valueText (h : Stands text depth s k) :
    Agrees text (Leaves text depth) (valueText s) (k.valueText text) := by
  refine (agrees_value h (Nat.lt_succ_of_le h.place.length_le)).bind ?_
  rintro ⟨bytes, r⟩ ⟨bytes', k'⟩ - ⟨rfl, hr⟩
  dsimp only
  cases Text.decode? bytes with
  | none => exact agrees_invalid h .validBytes
  | some t => exact ⟨rfl, hr⟩

/-! ## Items -/

lemma nameSize_eq (h : Stands text depth s k) :
    k.nameSize text = Text.byteSize (s.takeWhile isAttributeChar) := by
  rw [Cursor.nameSize, h.place.drop_encode]
  exact Text.length_takeWhile_encode (fun _ => isAttributeChar_of_le) s

lemma agrees_item (h : Stands text depth s k) :
    Agrees text (Leaves text depth) (item s) (k.item text) := by
  have hsplit : s.takeWhile isAttributeChar ++ s.dropWhile isAttributeChar = s :=
    List.takeWhile_append_dropWhile
  have hname := h
  rw [← hsplit] at hname
  unfold item Cursor.item
  rw [nameSize_eq h]
  cases hchars : s.takeWhile isAttributeChar with
  | nil => exact agrees_invalid h .attributeName
  | cons c chars =>
      rw [hchars] at hname
      have hsize : Text.byteSize (c :: chars) ≠ 0 := by
        have hpos := c.utf8Size_pos
        rw [Text.byteSize]
        omega
      dsimp only
      rw [if_neg hsize, if_neg (by simp), hname.part_eq, ok_bind]
      refine (agrees_operator hname.advance).bind ?_
      rintro ⟨op, r⟩ ⟨op', k'⟩ - ⟨rfl, hr⟩
      refine (agrees_valueText hr).bind ?_
      rintro ⟨v, r'⟩ ⟨v', k''⟩ - ⟨rfl, hr'⟩
      exact ⟨rfl, hr'⟩

/-! ## Filters -/

/-- A parenthesis is closed only where one is open. -/
lemma agrees_close (h : Stands text (depth + 1) s k) :
    Agrees text (Stands text depth) (close s) (k.leave text) := by
  cases s with
  | nil =>
      rw [close, Cursor.leave, if_neg (h.sees_nil ')'), if_pos h.peek?_nil]
      exact agrees_unbalanced h
  | cons c s =>
      rw [close, Cursor.leave]
      simp only [h.sees_iff (a := ')') (by decide), h.peek?_ne_none, if_false, h.depth]
      by_cases hc : c = ')'
      · subst hc
        exact ⟨(h.advance_ascii (by decide)).place, rfl⟩
      · rw [if_neg hc, if_neg hc]
        exact agrees_invalid h .closeParenthesis

/-- **Lists of filters are read alike** if single filters are.  Every filter takes characters, so
that neither loop comes to the end of its steps. -/
lemma agrees_filters {budget : Nat} {one : List Char → Except Fault (Node × List Char)}
    {two : Cursor → Except Halt (Node × Cursor)} (hreads : ReadsForms budget one)
    (hone : ∀ {s k}, Stands text depth s k → Agrees text (Leaves text depth) (one s) (two k))
    {least steps : Nat} (h : Stands text depth s k) (hleast : s.length ≤ least)
    (hsteps : s.length < steps) :
    Agrees text (Leaves text depth) (filters one least s) (Cursor.filters text two steps k) := by
  obtain ⟨steps, rfl⟩ := Nat.exists_eq_add_one.mpr (Nat.zero_lt_of_lt hsteps)
  fun_induction filters one least s generalizing k steps with
  | case1 least s ih =>
      rw [Cursor.filters, if_pos ((h.sees_iff (by decide)).mpr rfl)]
      refine (hone h).bind ?_
      rintro ⟨n, r⟩ ⟨n', k'⟩ hread ⟨rfl, hr⟩
      obtain ⟨f, hf, -, -⟩ := hreads hread
      have hshort : r.length ≤ s.length := by
        obtain ⟨t, ht⟩ := f.exists_text_eq
        rw [ht, List.cons_append] at hf
        rw [(List.cons.inj hf).2, List.length_append]
        exact Nat.le_add_left _ _
      rw [List.length_cons] at hleast hsteps
      obtain ⟨steps, rfl⟩ := Nat.exists_eq_add_one.mpr (by omega : 0 < steps)
      refine (ih r hr (by omega) steps (by omega)).bind ?_
      rintro ⟨ns, r'⟩ ⟨ns', k''⟩ - ⟨rfl, hr'⟩
      exact ⟨rfl, hr'⟩
  | case2 least s hother =>
      rw [Cursor.filters]
      cases s with
      | nil =>
          rw [if_neg (h.sees_nil '(')]
          exact ⟨rfl, h⟩
      | cons c s =>
          have hc : c ≠ '(' := by
            rintro rfl
            cases least with
            | zero => simp at hleast
            | succ least => exact hother least s rfl rfl
          rw [if_neg (mt (h.sees_iff (by decide)).mp hc)]
          exact ⟨rfl, h⟩

/-- The filters that a connective joins. -/
lemma agrees_group {budget : Nat} {inner : List Char → Except Fault (Node × List Char)}
    {two : Cursor → Except Halt (Node × Cursor)} (hreads : ReadsForms budget inner)
    (hinner : ∀ {s k}, Stands text depth s k → Agrees text (Leaves text depth) (inner s) (two k))
    (h : Stands text depth s k) (c : Connective) :
    Agrees text (Leaves text depth)
      (do let (ns, s) ← filters inner s.length s
          return (Node.group c 0 ns, s))
      (do let (ns, k) ← Cursor.filters text two (Text.byteSize text + 1) k
          return (Node.group c 0 ns, k)) := by
  refine (agrees_filters hreads hinner h (Nat.le_refl _)
    (Nat.lt_succ_of_le h.place.length_le)).bind ?_
  rintro ⟨ns, r⟩ ⟨ns', k'⟩ - ⟨rfl, hr⟩
  exact ⟨rfl, hr⟩

lemma agrees_body {budget : Nat} {inner : List Char → Except Fault (Node × List Char)}
    {two : Cursor → Except Halt (Node × Cursor)} (hreads : ReadsForms budget inner)
    (hinner : ∀ {s k}, Stands text depth s k → Agrees text (Leaves text depth) (inner s) (two k))
    (h : Stands text depth s k) :
    Agrees text (Leaves text depth) (body inner s) (k.body text two) := by
  cases s with
  | nil =>
      rw [body, Cursor.body, if_pos h.peek?_nil]
      exact agrees_unbalanced h
  | cons c s =>
      have hbehind : c.toNat < 0x80 → Stands text depth s (k.advance 1) := h.advance_ascii
      rw [Cursor.body, if_neg h.peek?_ne_none]
      simp only [h.sees_iff (a := '&') (by decide), h.sees_iff (a := '|') (by decide),
        h.sees_iff (a := '!') (by decide)]
      by_cases hand : c = '&'
      · subst hand
        exact agrees_group hreads hinner (hbehind (by decide)) .and
      by_cases hor : c = '|'
      · subst hor
        exact agrees_group hreads hinner (hbehind (by decide)) .or
      by_cases hnot : c = '!'
      · subst hnot
        have hinside := hbehind (by decide)
        rw [if_neg hand, if_neg hor, if_pos rfl]
        cases s with
        | nil =>
            rw [if_neg (hinside.sees_nil '(')]
            exact agrees_invalid hinside .singleFilter
        | cons d s =>
            by_cases hopen : d = '('
            · subst hopen
              rw [if_pos ((hinside.sees_iff (by decide)).mpr rfl), body]
              refine (hinner hinside).bind ?_
              rintro ⟨n, r⟩ ⟨n', k'⟩ - ⟨rfl, hr⟩
              exact ⟨rfl, hr⟩
            · rw [if_neg (mt (hinside.sees_iff (by decide)).mp hopen), body]
              · exact agrees_invalid hinside .singleFilter
              · rintro t ht
                exact hopen (List.cons.inj ht).1
      rw [if_neg hand, if_neg hor, if_neg hnot, body]
      · refine (agrees_item h).bind ?_
        rintro ⟨r, s'⟩ ⟨r', k'⟩ - ⟨rfl, hr⟩
        exact ⟨rfl, hr⟩
      all_goals simp [hand, hor, hnot]

/-- Where no parenthesis opens there is no filter. -/
lemma agrees_filter_of_ne_open {budget steps : Nat} (h : Stands text depth s k)
    (hopen : ∀ t, s ≠ '(' :: t) :
    Agrees text (Leaves text depth) (filter budget s) (Cursor.filter text (steps + 1) k) := by
  rw [Cursor.filter, Cursor.enter]
  cases s with
  | nil =>
      have hfilter : filter budget [] = .error (.unbalanced []) := by cases budget <;> rfl
      rw [hfilter, if_neg (h.sees_nil '('), if_pos h.peek?_nil]
      exact agrees_unbalanced h
  | cons c s =>
      have hc : c ≠ '(' := by
        rintro rfl
        exact hopen s rfl
      have hfilter : filter budget (c :: s) = .error (.unexpected .openParenthesis (c :: s)) := by
        cases budget <;> rw [filter, if_neg hc]
      rw [hfilter, if_neg (mt (h.sees_iff (by decide)).mp hc), if_neg h.peek?_ne_none]
      exact agrees_invalid h .openParenthesis

/-- **Filters are read alike,** as long as the parentheses that are open and those that may still be
opened make up the limit. -/
lemma agrees_filter {budget : Nat} (hbudget : depth + budget = nestingLimit)
    (h : Stands text depth s k) :
    Agrees text (Leaves text depth) (filter budget s) (Cursor.filter text (budget + 1) k) := by
  induction budget generalizing depth s k with
  | zero =>
      by_cases hopen : ∃ t, s = '(' :: t
      · obtain ⟨t, rfl⟩ := hopen
        rw [Cursor.filter, Cursor.enter, if_pos ((h.sees_iff (by decide)).mpr rfl), h.depth,
          if_pos (by omega), filter, if_pos rfl]
        exact ⟨rfl, trivial⟩
      · exact agrees_filter_of_ne_open h (not_exists.mp hopen)
  | succ budget ih =>
      by_cases hopen : ∃ t, s = '(' :: t
      · obtain ⟨t, rfl⟩ := hopen
        have hinside : Stands text (depth + 1) t ⟨k.position + 1, depth + 1⟩ :=
          ⟨(h.advance_ascii (by decide)).place, rfl⟩
        rw [filter_succ_open, Cursor.filter, Cursor.enter,
          if_pos ((h.sees_iff (by decide)).mpr rfl), h.depth, if_neg (by omega), ok_bind]
        refine (agrees_body (readsForms_filter budget) (ih (by omega)) hinside).bind ?_
        rintro ⟨n, r⟩ ⟨n', k'⟩ - ⟨rfl, hr⟩
        refine (agrees_close hr).bind ?_
        intro r' k'' _ hr'
        exact ⟨rfl, hr'⟩
      · exact agrees_filter_of_ne_open h (not_exists.mp hopen)

end

/-! ## Whole texts -/

/-- **Whole texts are read alike.**  What is left behind a filter is looked at last: it is none
exactly if the cursor stands at the end. -/
lemma agrees_wholeFilter (s : List Char) :
    Agrees s Eq (wholeFilter s) (Cursor.wholeFilter s) := by
  have hstart : Stands s 0 s ⟨0, 0⟩ := ⟨Text.at_zero s, rfl⟩
  refine (agrees_filter (Nat.zero_add _) hstart).bind ?_
  rintro ⟨n, r⟩ ⟨n', k⟩ hread ⟨rfl, hr⟩
  dsimp only at hr ⊢
  have hend := hr.place.size_le_iff
  cases r with
  | nil =>
      rw [if_pos (hend.mpr rfl)]
      rfl
  | cons c r =>
      rw [if_neg (mt hend.mp (List.cons_ne_nil c r))]
      simp only [hr.sees_iff (a := ')') (by decide)]
      by_cases hc : c = ')'
      · subst hc
        obtain ⟨f, hf, -, hheight⟩ := readsForms_filter nestingLimit hread
        refine ⟨?_, .inr ⟨f, r, hheight, hf, rfl⟩⟩
        rw [Fault.toFailure, ← hr.place.eq_sub, Cursor.unbalanced]
      · rw [if_neg hc]
        split
        · next h => cases h
        · next h => exact absurd (List.cons.inj h).1 hc
        · exact agrees_invalid hr .endOfText

/-- **The reader with a cursor gives what `parse` gives.**  So it never takes a part of the text at
an offset that is no position in it, and closes no parenthesis that is not open. -/
theorem parseBytes_eq (text : String) : parseBytes text = (parse text).mapError .failed := by
  have h := agrees_wholeFilter (Text.trim text.toList)
  unfold parseBytes parse
  dsimp only
  split_ifs
  · rfl
  · generalize wholeFilter (Text.trim text.toList) = x at h
    generalize Cursor.wholeFilter (Text.trim text.toList) = y at h
    match x, y, h with
    | .ok n, .ok _, rfl => rfl
    | .error f, .error _, ⟨rfl, _⟩ => rfl

/-- It stops only to report a failure. -/
lemma exists_failure_of_parseBytes_eq {text : String} {halt : Halt}
    (h : parseBytes text = .error halt) : ∃ failure, halt = .failed failure := by
  rw [parseBytes_eq] at h
  cases hparse : parse text with
  | ok t =>
      rw [hparse] at h
      cases h
  | error failure =>
      rw [hparse] at h
      exact ⟨failure, (Except.error.inj h).symm⟩

end AccessFilter.Ldap
