import AccessFilter.Proofs.Text.Ascii
import AccessFilter.Proofs.Text.Blank

/-!
# Positions in a text

Offsets are counted in bytes, and an offset is a position in a text if a character begins or the
text ends there.  What a reader of bytes sees at a position is the first byte of the character,
which tells an ASCII character from all others.

* `splitAt?` — the two parts of a text around an offset, none if the offset is no position.
* `At` — a part of a text begins at an offset.
* `firstByte` — the byte that is seen where a character begins.
* **`isSome_splitAt?_iff`** — a text can be split exactly at its positions.
* **`At.getElem?_encode`** — the byte at a position.
* **`apply_firstByte`**, `length_takeWhile_encode` — a class of ASCII characters can be read off the
  bytes.
-/

namespace AccessFilter.Text

/-! ## Sizes -/

lemma utf8Size_of_lt {c : Char} (h : c.toNat < 0x80) : c.utf8Size = 1 :=
  Char.utf8Size_eq_one_iff.mpr (UInt32.le_iff_toNat_le.mpr (Nat.le_of_lt_succ h))

lemma byteSize_of_forall_isAlphanum {s : List Char} (h : ∀ c ∈ s, c.isAlphanum = true) :
    byteSize s = s.length := by
  induction s with
  | nil => rfl
  | cons c s ih =>
      obtain ⟨hc, hs⟩ := List.forall_mem_cons.mp h
      have hascii := (visible_of_isAlphanum hc).2
      rw [byteSize, utf8Size_of_lt (by omega), ih hs, List.length_cons, Nat.add_comm]

lemma length_le_byteSize (s : List Char) : s.length ≤ byteSize s := by
  induction s with
  | nil => exact Nat.le_refl _
  | cons c s ih =>
      have hpos := c.utf8Size_pos
      rw [List.length_cons, byteSize]
      omega

lemma byteSize_eq_utf8ByteSize (s : List Char) : byteSize s = (String.ofList s).utf8ByteSize := by
  rw [← length_encode, String.utf8ByteSize, String.toByteArray_ofList, ← toByteArray_encode,
    List.size_toByteArray]

/-! ## Positions -/

/-- **What stands in front of a part of a text ends at a position in the text.** -/
theorem isValid_byteSize {text : String} {before behind : List Char}
    (h : text.toList = before ++ behind) : (String.Pos.Raw.mk (byteSize before)).IsValid text := by
  rw [String.Pos.Raw.isValid_iff_exists_append]
  refine ⟨String.ofList before, String.ofList behind, ?_, ?_⟩
  · rw [← String.ofList_append, ← h, String.ofList_toList]
  · rw [String.rawEndPos, byteSize_eq_utf8ByteSize]

lemma isValid_iff {text : String} {n : Nat} : (String.Pos.Raw.mk n).IsValid text ↔
    ∃ before behind, text.toList = before ++ behind ∧ byteSize before = n := by
  constructor
  · rw [String.Pos.Raw.isValid_iff_exists_append]
    rintro ⟨before, behind, rfl, h⟩
    refine ⟨before.toList, behind.toList, String.toList_append, ?_⟩
    rw [byteSize_eq_utf8ByteSize, String.ofList_toList]
    exact (congrArg String.Pos.Raw.byteIdx h).symm
  · rintro ⟨before, behind, h, rfl⟩
    exact isValid_byteSize h

/-- The parts of a text in front of an offset and behind it.  An offset inside a character or beyond
the end has none. -/
def splitAt? : List Char → Nat → Option (List Char × List Char)
  | s, 0 => some ([], s)
  | [], _ + 1 => none
  | c :: s, n + 1 =>
    if c.utf8Size ≤ n + 1 then
      (splitAt? s (n + 1 - c.utf8Size)).map fun (before, behind) => (c :: before, behind)
    else none

lemma splitAt?_append (before behind : List Char) :
    splitAt? (before ++ behind) (byteSize before) = some (before, behind) := by
  induction before with
  | nil => cases behind <;> rfl
  | cons c before ih =>
      obtain ⟨n, hn⟩ := Nat.exists_eq_succ_of_ne_zero c.utf8Size_pos.ne'
      have hsize : byteSize (c :: before) = n + byteSize before + 1 := by
        rw [byteSize, hn]
        omega
      have hrest : n + byteSize before + 1 - c.utf8Size = byteSize before := by omega
      rw [hsize, List.cons_append, splitAt?, if_pos (by omega), hrest, ih]
      rfl

lemma of_splitAt?_eq_some {s before behind : List Char} {n : Nat}
    (h : splitAt? s n = some (before, behind)) : s = before ++ behind ∧ byteSize before = n := by
  fun_induction splitAt? s n generalizing before behind with
  | case1 s =>
      obtain ⟨rfl, rfl⟩ := Prod.mk.inj (Option.some.inj h)
      exact ⟨rfl, rfl⟩
  | case2 => cases h
  | case3 c s n hle ih =>
      obtain ⟨⟨before, behind⟩, hrest, heq⟩ := Option.map_eq_some_iff.mp h
      obtain ⟨rfl, rfl⟩ := Prod.mk.inj heq
      obtain ⟨rfl, hsize⟩ := ih hrest
      refine ⟨rfl, ?_⟩
      rw [byteSize, hsize]
      omega
  | case4 => cases h

/-- **A text can be split exactly at its positions.** -/
theorem isSome_splitAt?_iff {text : String} {n : Nat} :
    (splitAt? text.toList n).isSome ↔ (String.Pos.Raw.mk n).IsValid text := by
  rw [isValid_iff, Option.isSome_iff_exists]
  constructor
  · rintro ⟨⟨before, behind⟩, h⟩
    exact ⟨before, behind, of_splitAt?_eq_some h⟩
  · rintro ⟨before, behind, h, rfl⟩
    rw [h]
    exact ⟨_, splitAt?_append before behind⟩

/-! ## Parts of a text -/

/-- The part `rest` of a text begins at the offset `n`. -/
def At (s : List Char) (n : Nat) (rest : List Char) : Prop :=
  ∃ before, s = before ++ rest ∧ byteSize before = n

lemma at_zero (s : List Char) : At s 0 s :=
  ⟨[], rfl, rfl⟩

namespace At

variable {s rest : List Char} {n : Nat}

lemma append {w : List Char} (h : At s n (w ++ rest)) : At s (n + byteSize w) rest := by
  obtain ⟨before, rfl, rfl⟩ := h
  exact ⟨before ++ w, (List.append_assoc _ _ _).symm, byteSize_append _ _⟩

lemma cons {c : Char} (h : At s n (c :: rest)) : At s (n + c.utf8Size) rest :=
  append (w := [c]) h

lemma byteSize_eq (h : At s n rest) : byteSize s = n + byteSize rest := by
  obtain ⟨before, rfl, rfl⟩ := h
  exact byteSize_append before rest

lemma eq_sub (h : At s n rest) : n = byteSize s - byteSize rest := by
  rw [h.byteSize_eq, Nat.add_sub_cancel]

lemma le (h : At s n rest) : n ≤ byteSize s := by
  rw [h.byteSize_eq]
  exact Nat.le_add_right _ _

lemma length_le (h : At s n rest) : rest.length ≤ byteSize s := by
  have hlength := length_le_byteSize rest
  rw [h.byteSize_eq]
  omega

/-- Nothing begins at the end and behind it. -/
lemma size_le_iff (h : At s n rest) : byteSize s ≤ n ↔ rest = [] := by
  rw [h.byteSize_eq]
  constructor
  · intro hle
    have hlength := length_le_byteSize rest
    exact List.eq_nil_of_length_eq_zero (by omega)
  · rintro rfl
    exact Nat.le_refl _

lemma splitAt?_eq (h : At s n rest) : ∃ before, splitAt? s n = some (before, rest) := by
  obtain ⟨before, rfl, rfl⟩ := h
  exact ⟨before, splitAt?_append before rest⟩

/-- The bytes from a position on are those of the part that begins there. -/
lemma drop_encode (h : At s n rest) : (encode s).drop n = encode rest := by
  obtain ⟨before, rfl, rfl⟩ := h
  rw [encode_append, ← length_encode, List.drop_left]

/-- **The byte at a position is the first one of the part that begins there.** -/
theorem getElem?_encode (h : At s n rest) : (encode s)[n]? = (encode rest).head? := by
  rw [← h.drop_encode, List.head?_drop]

end At

/-! ## First bytes -/

/-- The byte that is seen where a character begins. -/
def firstByte (c : Char) : UInt8 :=
  (String.utf8EncodeChar c).headD 0

/-- The byte of an ASCII character. -/
def asciiByte (c : Char) : UInt8 :=
  UInt8.ofNat c.toNat

lemma exists_utf8EncodeChar_eq (c : Char) :
    ∃ bytes, String.utf8EncodeChar c = firstByte c :: bytes := by
  have hpos := c.utf8Size_pos
  rw [← String.length_utf8EncodeChar] at hpos
  cases h : String.utf8EncodeChar c with
  | nil => simp [h] at hpos
  | cons b bytes => exact ⟨bytes, by rw [firstByte, h]; rfl⟩

lemma head?_encode_cons (c : Char) (s : List Char) :
    (encode (c :: s)).head? = some (firstByte c) := by
  obtain ⟨bytes, h⟩ := exists_utf8EncodeChar_eq c
  rw [encode, h]
  rfl

lemma toNat_asciiByte {c : Char} (h : c.toNat < 0x80) : (asciiByte c).toNat = c.toNat := by
  rw [asciiByte, UInt8.toNat_ofNat']
  omega

lemma firstByte_of_lt {c : Char} (h : c.toNat < 0x80) : firstByte c = asciiByte c := by
  rw [firstByte, utf8EncodeChar_of_lt h]
  rfl

lemma toNat_ofUInt8 (b : UInt8) : (Char.ofUInt8 b).toNat = b.toNat :=
  UInt8.toNat_toUInt32 b

lemma ofUInt8_firstByte {c : Char} (h : c.toNat < 0x80) : Char.ofUInt8 (firstByte c) = c := by
  rw [← Char.toNat_inj, toNat_ofUInt8, firstByte_of_lt h, toNat_asciiByte h]

lemma le_firstByte {c : Char} (h : 0x80 ≤ c.toNat) : 0x80 ≤ (firstByte c).toNat := by
  obtain ⟨bytes, hbytes⟩ := exists_utf8EncodeChar_eq c
  refine le_of_mem_utf8EncodeChar h ?_
  rw [hbytes]
  exact List.mem_cons_self

/-- **A class of ASCII characters can be read off the first byte:** the bytes of all other
characters stand for no ASCII character. -/
theorem apply_firstByte {α : Type} {f : Char → α} {other : α}
    (hf : ∀ c : Char, 0x80 ≤ c.toNat → f c = other) (c : Char) :
    f (Char.ofUInt8 (firstByte c)) = f c := by
  by_cases h : c.toNat < 0x80
  · rw [ofUInt8_firstByte h]
  · have hle := Nat.le_of_not_lt h
    rw [hf c hle, hf _ (by rw [toNat_ofUInt8]; exact le_firstByte hle)]

/-- An ASCII character can be told by its byte. -/
lemma firstByte_eq_asciiByte_iff {a c : Char} (ha : a.toNat < 0x80) :
    firstByte c = asciiByte a ↔ c = a := by
  constructor
  · intro h
    obtain ⟨bytes, hbytes⟩ := exists_utf8EncodeChar_eq c
    have hmem : asciiByte a ∈ String.utf8EncodeChar c := by
      rw [hbytes, h]
      exact List.mem_cons_self
    have hnat := (eq_of_mem_utf8EncodeChar (by rwa [toNat_asciiByte ha]) hmem).1
    rwa [toNat_asciiByte ha, Char.toNat_inj] at hnat
  · rintro rfl
    exact firstByte_of_lt ha

/-- A character of ASCII is one byte of the text. -/
lemma encode_cons_of_lt {c : Char} (h : c.toNat < 0x80) (s : List Char) :
    encode (c :: s) = firstByte c :: encode s := by
  rw [encode, utf8EncodeChar_of_lt h, firstByte_of_lt h]
  rfl

/-- **A run of ASCII characters of a class is a run of bytes.** -/
lemma length_takeWhile_encode {p : Char → Bool} (hp : ∀ c : Char, 0x80 ≤ c.toNat → p c = false)
    (s : List Char) : ((encode s).takeWhile fun b => p (Char.ofUInt8 b)).length =
      byteSize (s.takeWhile p) := by
  induction s with
  | nil => rfl
  | cons c s ih =>
      have hfirst := apply_firstByte hp c
      by_cases hc : p c = true
      · have hascii : c.toNat < 0x80 := by
          by_contra hle
          rw [hp c (Nat.le_of_not_lt hle)] at hc
          cases hc
        rw [encode_cons_of_lt hascii, List.takeWhile_cons, hfirst, if_pos hc, List.length_cons, ih,
          List.takeWhile_cons, if_pos hc, byteSize, utf8Size_of_lt hascii, Nat.add_comm]
      · obtain ⟨bytes, hbytes⟩ := exists_utf8EncodeChar_eq c
        rw [encode, hbytes, List.cons_append, List.takeWhile_cons, hfirst, if_neg hc,
          List.takeWhile_cons, if_neg hc]
        rfl

end AccessFilter.Text
