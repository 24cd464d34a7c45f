import AccessFilter.Query.Reader
import Mathlib.Tactic.Common

/-!
# How deeply a query nests parentheses

Parentheses between quotes are text and open nothing.  The number of parentheses that are open at
once is defined here over the text alone, and the scan that the reader makes beforehand stops
exactly where this number passes the limit.

* `nesting` — how deeply a text nests parentheses outside quotes.
* **`keepsNestingLimit_iff`** — the scan succeeds if and only if the nesting keeps the limit.
-/

namespace AccessFilter.Query

/-- How many parentheses are open at once at most, in a text that stands where `opened` are open.
Between quotes, where `quoted` is true, nothing opens or closes, and the character after a backslash
does not end them. -/
def peak : (opened : Nat) → (quoted : Bool) → List Char → Nat
  | opened, _, [] => opened
  | opened, true, '\\' :: _ :: s => peak opened true s
  | opened, true, c :: s => peak opened (c != '\'') s
  | opened, false, c :: s =>
    if c = '(' then peak (opened + 1) false s
    else if c = ')' then max opened (peak (opened - 1) false s)
    else peak opened (c == '\'') s

/-- **How deeply a text nests parentheses outside quotes.** -/
def nesting (s : List Char) : Nat :=
  peak 0 false s

/-! ## One step -/

lemma peak_open (opened : Nat) (s : List Char) :
    peak opened false ('(' :: s) = peak (opened + 1) false s := by
  rw [peak, if_pos rfl]

lemma peak_close (opened : Nat) (s : List Char) :
    peak opened false (')' :: s) = max opened (peak (opened - 1) false s) := by
  rw [peak, if_neg (by decide), if_pos rfl]

lemma peak_quote (opened : Nat) (s : List Char) :
    peak opened false ('\'' :: s) = peak opened true s := by
  rw [peak, if_neg (by decide), if_neg (by decide)]
  rfl

lemma peak_unquote (opened : Nat) (s : List Char) :
    peak opened true ('\'' :: s) = peak opened false s := by
  rw [peak]
  · rfl
  · simp

lemma peak_escaped (opened : Nat) (c : Char) (s : List Char) :
    peak opened true ('\\' :: c :: s) = peak opened true s := by
  rw [peak]

lemma peak_quoted {c : Char} (hquote : c ≠ '\'') (hslash : c ≠ '\\') (opened : Nat)
    (s : List Char) :
    peak opened true (c :: s) = peak opened true s := by
  have hc : (c != '\'') = true := bne_iff_ne.mpr hquote
  rw [peak, hc]
  intro d t h
  exact absurd h hslash

/-- The characters that matter to the nesting, outside quotes. -/
def isMark (c : Char) : Bool :=
  c == '(' || c == ')' || c == '\''

/-- Texts without parentheses and quotes do not count. -/
lemma peak_append_of_forall {w : List Char} (h : ∀ c ∈ w, isMark c = false) (opened : Nat)
    (s : List Char) : peak opened false (w ++ s) = peak opened false s := by
  induction w with
  | nil => rfl
  | cons c w ih =>
      have hc := h c List.mem_cons_self
      simp only [isMark, Bool.or_eq_false_iff, beq_eq_false_iff_ne] at hc
      obtain ⟨⟨hopen, hclose⟩, hquote⟩ := hc
      rw [List.cons_append, peak, if_neg hopen, if_neg hclose, beq_false_of_ne hquote,
        ih fun d hd => h d (List.mem_cons_of_mem c hd)]

/-! ## Bounds -/

/-- No text stays below the number of parentheses that are open where it stands. -/
lemma le_peak (opened : Nat) (quoted : Bool) (s : List Char) : opened ≤ peak opened quoted s := by
  fun_induction peak opened quoted s with
  | case1 => exact Nat.le_refl _
  | case2 opened c s ih => exact ih
  | case3 opened c s h ih => exact ih
  | case4 opened s ih => omega
  | case5 opened s => exact Nat.le_max_left _ _
  | case6 opened c s hopen hclose ih => exact ih

/-- No more parentheses are opened than there are characters. -/
lemma peak_le (opened : Nat) (quoted : Bool) (s : List Char) :
    peak opened quoted s ≤ opened + s.length := by
  fun_induction peak opened quoted s with
  | case1 => exact Nat.le_refl _
  | case2 opened c s ih | case3 opened c s h ih | case4 opened s ih
  | case5 opened s ih | case6 opened c s hopen hclose ih =>
      simp only [List.length_cons]
      omega

lemma nesting_le_length (s : List Char) : nesting s ≤ s.length := by
  have h := peak_le 0 false s
  rwa [Nat.zero_add] at h

/-! ## The scan -/

/-- **The scan passes a text from a state within the limit** exactly when the text stays within the
limit from there on. -/
lemma isSome_run?_iff (opened : Nat) (quoted : Bool) (s : List Char) (h : opened ≤ nestingLimit) :
    (Nesting.run? ⟨opened, quoted, false⟩ s).isSome ↔ peak opened quoted s ≤ nestingLimit := by
  fun_induction peak opened quoted s with
  | case1 => simp [Nesting.run?, h]
  | case2 opened c s ih =>
      rw [Nesting.run?, Nesting.step?, if_pos rfl, if_neg (by simp), if_pos rfl]
      exact ih h
  | case3 opened c s hc ih =>
      by_cases hslash : c = '\\'
      · subst hslash
        cases s with
        | nil => simp [Nesting.run?, Nesting.step?, peak, h]
        | cons d s => exact absurd rfl (hc d s rfl)
      · have ih' := ih h
        rw [Nesting.run?, Nesting.step?, if_pos rfl, if_neg (by simp), if_neg hslash]
        by_cases hquote : c = '\''
        · subst hquote
          exact ih'
        · rw [bne_iff_ne.mpr hquote] at ih' ⊢
          rw [if_neg hquote]
          exact ih'
  | case4 opened s ih =>
      rw [Nesting.run?, Nesting.step?, if_neg (by simp), if_neg (by decide), if_pos rfl]
      by_cases hlimit : nestingLimit ≤ opened
      · have hle := le_peak (opened + 1) false s
        rw [if_pos hlimit]
        simp only [Option.isSome_none, Bool.false_eq_true, false_iff]
        omega
      · rw [if_neg hlimit]
        exact ih (by omega)
  | case5 opened s hopen ih =>
      rw [Nesting.run?, Nesting.step?, if_neg (by simp), if_neg (by decide), if_neg hopen,
        if_pos rfl]
      have ih' := ih (by omega)
      dsimp only
      rw [ih']
      omega
  | case6 opened c s hopen hclose ih =>
      have ih' := ih h
      rw [Nesting.run?, Nesting.step?, if_neg (by simp)]
      by_cases hquote : c = '\''
      · subst hquote
        exact ih'
      · rw [beq_false_of_ne hquote] at ih' ⊢
        rw [if_neg hquote, if_neg hopen, if_neg hclose]
        exact ih'

/-- **A text keeps the nesting limit if and only if the scan of it succeeds.** -/
theorem keepsNestingLimit_iff (s : List Char) :
    keepsNestingLimit s = true ↔ nesting s ≤ nestingLimit :=
  isSome_run?_iff 0 false s (Nat.zero_le _)

end AccessFilter.Query
