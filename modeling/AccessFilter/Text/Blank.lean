/-!
# Blank characters

Which characters count as blank around a filter, an operator name or a search text.  The class is
Unicode's `White_Space` property, which is wider than the ASCII blanks and narrower than
"invisible": the zero width space and the byte order mark are not in it.

* `isBlank` — membership in the class, as a table of code points.
* `trim` — the text without the blanks at its two ends.
* **`trim_eq_nil_iff`** — nothing is left exactly when every character is blank.
-/

namespace AccessFilter.Text

/-! ## The class -/

/-- **The `White_Space` property.**  The ranges are those of the Unicode character database. -/
def isBlank (c : Char) : Bool :=
  let n := c.toNat
  (9 ≤ n && n ≤ 13) || n == 0x20 || n == 0x85 || n == 0xA0 || n == 0x1680 ||
    (0x2000 ≤ n && n ≤ 0x200A) || n == 0x2028 || n == 0x2029 || n == 0x202F || n == 0x205F ||
    n == 0x3000

/-- The blanks that may separate the words of a query: the space and the tab. -/
def isSpaceOrTab (c : Char) : Bool :=
  c == ' ' || c == '\t'

/-! ## Removing blanks at the ends -/

/-- The text from its first character that is not blank. -/
def trimLeft (s : List Char) : List Char :=
  s.dropWhile isBlank

/-- The text up to its last character that is not blank. -/
def trimRight (s : List Char) : List Char :=
  (s.reverse.dropWhile isBlank).reverse

/-- The text without the blanks at its two ends; blanks inside stay. -/
def trim (s : List Char) : List Char :=
  trimRight (trimLeft s)

/-- `trim` on strings. -/
def trimmed (s : String) : String :=
  String.ofList (trim s.toList)

/-- Whether a text holds nothing but blanks. -/
def isBlankText (s : String) : Bool :=
  s.toList.all isBlank

/-! ## What trimming leaves -/

theorem trimLeft_eq_nil_iff {s : List Char} : trimLeft s = [] ↔ ∀ c ∈ s, isBlank c = true := by
  induction s with
  | nil => simp [trimLeft]
  | cons c r ih =>
    rw [trimLeft] at ih ⊢
    rw [List.dropWhile_cons]
    cases h : isBlank c with
    | true => rw [if_pos rfl, ih, List.forall_mem_cons, h, eq_self, true_and]
    | false => simp [h]

/-- **Nothing is left exactly of a blank text.**  Dropping from the left already removes all of it,
and where something is left its first character is not blank, so dropping from the right stops. -/
theorem trim_eq_nil_iff {s : List Char} : trim s = [] ↔ ∀ c ∈ s, isBlank c = true := by
  constructor
  · intro h
    have hr : ∀ c ∈ trimLeft s, isBlank c = true := by
      intro c hc
      have hd : trimLeft (trimLeft s).reverse = [] := by
        simpa [trim, trimRight, trimLeft] using h
      exact trimLeft_eq_nil_iff.mp hd c (List.mem_reverse.mpr hc)
    refine trimLeft_eq_nil_iff.mp ?_
    cases hs : trimLeft s with
    | nil => rfl
    | cons c r =>
      have hc : isBlank c = true := hr c (by simp [hs])
      have hn : isBlank c = false := by
        have hh := List.head?_dropWhile_not isBlank s
        rw [show s.dropWhile isBlank = c :: r from hs] at hh
        simpa using hh
      rw [hc] at hn
      cases hn
  · intro h
    simp [trim, trimRight, trimLeft_eq_nil_iff.mpr h]

end AccessFilter.Text
