import AccessFilter.Ldap.Value
import Mathlib.Data.List.Infix
import Mathlib.Tactic.Common

/-!
# What escaping guards against

A value stands inside a filter, so it must not hold anything that ends it or begins something else.
Escaping takes parentheses, the null character and backslashes out of a value, and asterisks where
they are to be literal, and puts codes in their place.

**Undoing it.**  The codes say what they stand for.  Reading them gives the value back but for one
thing: the three characters `\2a` of a value are how a literal asterisk is held, and so they come out
as one.  To tell a literal asterisk from a wildcard the outcome is not a text but a list of symbols.

* `Symbol`, `unescape?` — a written value with its codes undone.
* `meant` — the symbols of a value as it is held.
* `Harmless` — what may stand in a written value.
* `exists_code_of_unescape?` — where codes can be undone, every backslash begins one.
* **`unescape?_escape`** — a written value is undone to the symbols of the value.
* **`harmless_escaped_and_unescape?`** — a written value holds nothing but what it may hold, and
  stands for the value.
-/

namespace AccessFilter.Ldap

/-! ## The second side: codes and symbols -/

/-- A character of a value.  An asterisk that is no wildcard is a symbol of its own. -/
inductive Symbol where
  | plain (c : Char)
  | star
  deriving DecidableEq, Repr

/-- The five codes: what stands behind a backslash in a written value, and the symbol it is for. -/
def codeTable : List (List Char × Symbol) :=
  [(['2', '8'], .plain '('), (['2', '9'], .plain ')'), (['0', '0'], .plain '\x00'),
    (['5', 'c'], .plain '\\'), (['2', 'a'], .star)]

/-- The codes alone. -/
def codes : List (List Char) :=
  codeTable.map Prod.fst

/-- A written value with its codes undone, none if a backslash does not begin a code. -/
def unescape? : List Char → Option (List Symbol)
  | [] => some []
  | '\\' :: high :: low :: s =>
    (codeTable.lookup [high, low]).bind fun x => (unescape? s).map (x :: ·)
  | c :: s => if c = '\\' then none else (unescape? s).map (.plain c :: ·)

/-- The symbols of a value: a literal asterisk is held as `\2a`, and if wildcards are not kept every
asterisk is literal. -/
def meant (keepWildcards : Bool) : List Char → List Symbol
  | [] => []
  | '\\' :: '2' :: 'a' :: s => .star :: meant keepWildcards s
  | c :: s =>
    (if c = '*' ∧ keepWildcards = false then .star else .plain c) :: meant keepWildcards s

/-- **The symbols of a value are its characters** exactly if it holds no literal asterisk and no
asterisk is made one. -/
lemma meant_eq_map_plain_iff (keepWildcards : Bool) (s : List Char) :
    meant keepWildcards s = s.map .plain ↔
      ¬ starMark <:+: s ∧ ('*' ∈ s → keepWildcards = true) := by
  fun_induction meant keepWildcards s with
  | case1 => simp [starMark]
  | case2 s ih =>
      have hmark : starMark <:+: '\\' :: '2' :: 'a' :: s :=
        (List.prefix_append starMark s).isInfix
      simp [hmark]
  | case3 c s h ih =>
      have hfront : ¬ starMark <+: c :: s := by
        rintro ⟨t, ht⟩
        simp only [starMark, List.cons_append, List.nil_append, List.cons.injEq] at ht
        exact h t ht.1.symm ht.2.symm
      rw [List.map_cons, List.cons.injEq, ih, List.infix_cons_iff, List.mem_cons]
      by_cases hc : c = '*'
      · subst hc
        cases keepWildcards <;> simp [hfront]
      · simp [hfront, hc, Ne.symm hc]

/-! ## What a written value holds -/

/-- What may stand in a written value: neither parentheses nor the null character, and asterisks only
if wildcards are kept. -/
def Harmless (keepWildcards : Bool) (c : Char) : Prop :=
  c ≠ '(' ∧ c ≠ ')' ∧ c ≠ '\x00' ∧ (c = '*' → keepWildcards = true)

instance (keepWildcards : Bool) (c : Char) : Decidable (Harmless keepWildcards c) :=
  inferInstanceAs (Decidable (_ ∧ _))

lemma isAlphanum_of_mem_code {code : List Char} (hcode : code ∈ codes) {d : Char} (hd : d ∈ code) :
    d.isAlphanum = true := by
  have hcodes : codes.all (·.all Char.isAlphanum) = true := by decide
  exact List.all_eq_true.mp (List.all_eq_true.mp hcodes code hcode) d hd

/-- A code and its backslash hold nothing that must not stand in a value. -/
lemma harmless_of_mem_code {keepWildcards : Bool} (code : List Char) (hcode : code ∈ codes)
    {d : Char} (hd : d ∈ '\\' :: code) : Harmless keepWildcards d := by
  rcases List.mem_cons.mp hd with rfl | hd
  · exact ⟨by decide, by decide, by decide, fun h => absurd h (by decide)⟩
  · have hd := isAlphanum_of_mem_code hcode hd
    have hne : ∀ c : Char, c.isAlphanum = false → d ≠ c := by
      rintro c hc rfl
      exact Bool.false_ne_true (hc.symm.trans hd)
    exact ⟨hne _ rfl, hne _ rfl, hne _ rfl, fun h => absurd h (hne _ rfl)⟩

lemma harmless_of_mem_escapeChar {keepWildcards : Bool} {c d : Char} {s : List Char}
    (h : d ∈ escapeChar keepWildcards c s) : Harmless keepWildcards d := by
  unfold escapeChar at h
  split_ifs at h with hopen hclose hnull hstar hkeep hslash
  · exact harmless_of_mem_code ['2', '8'] (by decide) h
  · exact harmless_of_mem_code ['2', '9'] (by decide) h
  · exact harmless_of_mem_code ['0', '0'] (by decide) h
  · obtain rfl := List.mem_singleton.mp h
    exact ⟨by decide, by decide, by decide, fun _ => hkeep⟩
  · exact harmless_of_mem_code ['2', 'a'] (by decide) h
  · obtain rfl := List.mem_singleton.mp h
    exact harmless_of_mem_code ['2', 'a'] (by decide) List.mem_cons_self
  · exact harmless_of_mem_code ['5', 'c'] (by decide) h
  · obtain rfl := List.mem_singleton.mp h
    exact ⟨hopen, hclose, hnull, fun hd => absurd hd hstar⟩

lemma harmless_of_mem_escape {keepWildcards : Bool} {d : Char} {s : List Char}
    (h : d ∈ escape keepWildcards s) : Harmless keepWildcards d := by
  induction s with
  | nil => cases h
  | cons c s ih =>
      rw [escape, List.mem_append] at h
      rcases h with h | h
      · exact harmless_of_mem_escapeChar h
      · exact ih h

/-! ## Undoing codes -/

lemma mem_codes_of_lookup_eq {code : List Char} {x : Symbol} (h : codeTable.lookup code = some x) :
    code ∈ codes := by
  obtain ⟨front, back, htable, -⟩ := List.lookup_eq_some_iff.mp h
  rw [codes, htable]
  simp

lemma ne_backslash_of_mem_codes {high low : Char} (h : [high, low] ∈ codes) :
    high ≠ '\\' ∧ low ≠ '\\' := by
  constructor <;> rintro rfl
  · exact absurd (isAlphanum_of_mem_code h List.mem_cons_self) (by decide)
  · exact absurd (isAlphanum_of_mem_code h (List.mem_cons_of_mem _ List.mem_cons_self)) (by decide)

/-- **Where codes can be undone, every backslash begins one.**  No code holds a backslash itself. -/
lemma exists_code_of_unescape? {s : List Char} : ∀ {xs : List Symbol}, unescape? s = some xs →
    ∀ before after : List Char, s = before ++ '\\' :: after → ∃ code ∈ codes, code <+: after := by
  fun_induction unescape? s with
  | case1 =>
      intro xs _ before after heq
      simp at heq
  | case2 high low s ih =>
      intro xs h before after heq
      obtain ⟨x, hx, h⟩ := Option.bind_eq_some_iff.mp h
      obtain ⟨ys, hs, -⟩ := Option.map_eq_some_iff.mp h
      have hcode := mem_codes_of_lookup_eq hx
      obtain ⟨hhigh, hlow⟩ := ne_backslash_of_mem_codes hcode
      match before with
      | [] =>
          obtain rfl := (List.cons.inj heq).2
          exact ⟨_, hcode, s, rfl⟩
      | [_] => simp [hhigh] at heq
      | [_, _] => simp [hlow] at heq
      | _ :: _ :: _ :: before =>
          simp only [List.cons_append, List.cons.injEq] at heq
          exact ih hs before after heq.2.2.2
  | case3 s _ =>
      intro xs h
      cases h
  | case4 c s _ hc ih =>
      intro xs h before after heq
      obtain ⟨ys, hs, -⟩ := Option.map_eq_some_iff.mp h
      match before with
      | [] => exact absurd (List.cons.inj heq).1 hc
      | _ :: before =>
          simp only [List.cons_append, List.cons.injEq] at heq
          exact ih hs before after heq.2

lemma unescape?_cons {c : Char} (h : c ≠ '\\') (s : List Char) :
    unescape? (c :: s) = (unescape? s).map (.plain c :: ·) := by
  rw [unescape?]
  · exact if_neg h
  · exact fun _ _ _ he _ => h he

/-- A character that does not begin a literal asterisk is written so that it is undone to what it
means. -/
lemma unescape?_escapeChar {keepWildcards : Bool} {c : Char} {s : List Char}
    (h : c = '\\' → ['2', 'a'].isPrefixOf s = false) (t : List Char) :
    unescape? (escapeChar keepWildcards c s ++ t) = (unescape? t).map
      ((if c = '*' ∧ keepWildcards = false then .star else .plain c) :: ·) := by
  by_cases hspecial : c ∈ ['(', ')', '\x00', '*', '\\']
  · simp only [List.mem_cons, List.not_mem_nil, or_false] at hspecial
    rcases hspecial with rfl | rfl | rfl | rfl | rfl
    · rfl
    · rfl
    · rfl
    · cases keepWildcards <;> rfl
    · rw [escapeChar, h rfl]
      rfl
  · simp only [List.mem_cons, List.not_mem_nil, or_false, not_or] at hspecial
    obtain ⟨hopen, hclose, hnull, hstar, hslash⟩ := hspecial
    rw [escapeChar, if_neg hopen, if_neg hclose, if_neg hnull, if_neg hstar, if_neg hslash,
      if_neg (fun hc => hstar hc.1), List.singleton_append, unescape?_cons hslash]

/-- **A written value is undone to the symbols of the value.** -/
lemma unescape?_escape (keepWildcards : Bool) (s : List Char) :
    unescape? (escape keepWildcards s) = some (meant keepWildcards s) := by
  fun_induction meant keepWildcards s with
  | case1 => rfl
  | case2 s ih =>
      -- the backslash stays, and the two characters behind it are written as they are
      have hwritten : escape keepWildcards ('\\' :: '2' :: 'a' :: s) =
          '\\' :: '2' :: 'a' :: escape keepWildcards s := by
        simp [escape, escapeChar]
      rw [hwritten, unescape?, ih]
      rfl
  | case3 c s h ih =>
      have hpre : c = '\\' → ['2', 'a'].isPrefixOf s = false := by
        intro hc
        rw [Bool.eq_false_iff, ne_eq, List.isPrefixOf_iff_prefix]
        rintro ⟨t, rfl⟩
        exact h t hc rfl
      rw [escape, unescape?_escapeChar hpre, ih]
      rfl

/-! ## The guard -/

/-- **Escaping guards a filter against a value, and loses nothing of it.**  A written value holds no
parenthesis, no null character, and asterisks only if wildcards are kept; every backslash in it
begins one of the five codes.  With the codes undone it is the value again, in which every `\2a`, and
every asterisk if wildcards are not kept, is a literal asterisk. -/
theorem harmless_escaped_and_unescape? (keepWildcards : Bool) (value : String) :
    (∀ c ∈ (escaped keepWildcards value).toList, Harmless keepWildcards c) ∧
    (∀ before after : List Char,
      (escaped keepWildcards value).toList = before ++ '\\' :: after →
        ∃ code ∈ codes, code <+: after) ∧
    unescape? (escaped keepWildcards value).toList = some (meant keepWildcards value.toList) ∧
    (meant keepWildcards value.toList = value.toList.map .plain ↔
      ¬ starMark <:+: value.toList ∧ ('*' ∈ value.toList → keepWildcards = true)) := by
  have hundone := unescape?_escape keepWildcards value.toList
  rw [escaped, String.toList_ofList]
  exact ⟨fun c hc => harmless_of_mem_escape hc, exists_code_of_unescape? hundone, hundone,
    meant_eq_map_plain_iff keepWildcards value.toList⟩

/-- A wildcard, a literal asterisk, the beginning of one, a backslash in front of a parenthesis and
one at the end. -/
theorem harmless_escaped_and_unescape?_backslashes :
    escaped false "*\\2a\\2\\(é\\" = "\\2a\\2a\\5c2\\5c\\28é\\5c" ∧
      ')' ∉ (escaped false "*\\2a\\2\\(é\\").toList ∧
      (∃ code ∈ codes, code <+: "28é\\5c".toList) ∧
      unescape? (escaped false "*\\2a\\2\\(é\\").toList =
        some [.star, .star, .plain '\\', .plain '2', .plain '\\', .plain '(', .plain 'é',
          .plain '\\'] := by
  obtain ⟨hharmless, hcodes, hundone, -⟩ :=
    harmless_escaped_and_unescape? false "*\\2a\\2\\(é\\"
  have hwritten : escaped false "*\\2a\\2\\(é\\" = "\\2a\\2a\\5c2\\5c\\28é\\5c" := by decide
  refine ⟨hwritten, fun hmem => (hharmless ')' hmem).2.1 rfl, ?_, ?_⟩
  · refine hcodes "\\2a\\2a\\5c2\\5c".toList _ ?_
    rw [hwritten]
    decide
  · rw [hundone]
    decide

end AccessFilter.Ldap
