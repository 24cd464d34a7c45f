/-!
# Characters as bytes

Positions in a text are counted in the bytes of its UTF-8 form, and an escape in a filter value may
name a single byte, so a value is first a list of bytes and a text only if those bytes spell one.

* `byteSize` — how many bytes a text takes.
* `encode` — those bytes.
* `decode?` — the text that bytes spell, none for bytes that spell no text.
* **`decode?_eq_some_iff`** — bytes spell a text exactly when they are its own.
-/

namespace AccessFilter.Text

/-- How many bytes the UTF-8 form of a text takes. -/
def byteSize : List Char → Nat
  | [] => 0
  | c :: s => c.utf8Size + byteSize s

/-- The UTF-8 form of a text. -/
def encode : List Char → List UInt8
  | [] => []
  | c :: s => String.utf8EncodeChar c ++ encode s

/-- The text that a list of bytes spells.  Overlong forms, surrogates, code points above the last
one and cut-off characters spell none. -/
def decode? (bytes : List UInt8) : Option (List Char) :=
  bytes.toByteArray.utf8Decode?.map Array.toList

@[simp]
theorem byteSize_append (s t : List Char) : byteSize (s ++ t) = byteSize s + byteSize t := by
  induction s with
  | nil => simp [byteSize]
  | cons c s ih => simp [byteSize, ih, Nat.add_assoc]

/-- The size of a text is the number of its bytes. -/
theorem length_encode (s : List Char) : (encode s).length = byteSize s := by
  induction s with
  | nil => rfl
  | cons c s ih => simp [encode, byteSize, ih]

theorem toByteArray_encode (s : List Char) : (encode s).toByteArray = s.utf8Encode := by
  have h : encode s = s.flatMap String.utf8EncodeChar := by
    induction s with
    | nil => rfl
    | cons c s ih => simp [encode, ih]
  rw [h, List.utf8Encode]

/-- **Decoding undoes encoding.** -/
theorem decode?_encode (s : List Char) : decode? (encode s) = some s := by
  simp [decode?, toByteArray_encode, List.utf8Decode?_utf8Encode]

/-- **Bytes spell a text exactly when they are its bytes,** so every text has one form in bytes. -/
theorem decode?_eq_some_iff {bytes : List UInt8} {s : List Char} :
    decode? bytes = some s ↔ bytes = encode s := by
  constructor
  · intro h
    obtain ⟨chars, hc, rfl⟩ := Option.map_eq_some_iff.mp h
    have hs : bytes.toByteArray.utf8Decode?.isSome := by simp [hc]
    have hb := ByteArray.utf8Encode_get_utf8Decode? (h := hs)
    simp only [hc, Option.get_some] at hb
    rw [← toByteArray_encode] at hb
    simpa using congrArg (fun b => b.data.toList) hb.symm
  · rintro rfl
    exact decode?_encode s

end AccessFilter.Text
