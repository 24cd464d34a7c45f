import AccessFilter.Proofs.Query.Soundness

/-!
# The scan of the parentheses bounds the reader

Before a query is read its parentheses are counted, by a scan that knows nothing but quotes and
backslashes.  The reader knows the grammar.  Here both are followed along one text, whether the
reader gets through it or not.

**What has been read.**  The reader goes on only behind derived texts, blanks, joining words, signs
of negation and opened parentheses.  Over each of them the scan counts what the reader has opened
and comes out of it outside quotes (`Counts`, `Operand.counts_text`).

**What comes next.**  So wherever the reader opens a parenthesis, the scan stands outside quotes
with the same parentheses open (`Stands`).  Two readers that agree at all such places agree on the
whole text (`agrees_orChain`), and one that looks at the scan there never has to refuse
(`agrees_lockstep`).

**Budget.**  The scan never counts more than the limit, so the limit is budget enough.  The budget
counts parentheses that are open: to look for one in vain, behind a sign of negation, costs nothing.

* `lockstep` — the reader that looks at the scan.
* **`expression_eq_lockstep`** — the reader does the same, and needs no more than the limit.
-/

namespace AccessFilter.Query

/-! ## Reading along with the scan -/

/-- The scan of a text up to the place behind which `rest` stands. -/
def scanBefore? (whole rest : List Char) : Option Nesting :=
  Nesting.run? ⟨0, false, false⟩ (whole.take (whole.length - rest.length))

/-- **An expression, read along with the scan of the whole text.**  So many parentheses are `opened`
around it, and `budget` more may be opened.  Behind every parenthesis and the blanks that follow it
the reader goes on only if the scan is outside quotes there and has counted the same number of open
parentheses. -/
def lockstep (whole : List Char) :
    (budget opened : Nat) → List Char → Except Fault (Expr × List Char)
  | 0, _ => orChain fun _ => .error .budget
  | budget + 1, opened => orChain fun s =>
    if scanBefore? whole s = some ⟨opened + 1, false, false⟩ then
      lockstep whole budget (opened + 1) s
    else .error .budget

/-! ## What the scan counts -/

lemma Nesting.run?_append (n : Nesting) (s t : List Char) :
    n.run? (s ++ t) = (n.run? s).bind fun m => m.run? t := by
  induction s generalizing n with
  | nil => rfl
  | cons c s ih =>
      rw [List.cons_append, run?, run?]
      cases n.step? c with
      | none => rfl
      | some m => exact ih m

/-- Outside quotes and with `before` parentheses open, the scan gets through a text with `after` of
them open, if it gets through. -/
def Counts (w : List Char) (before after : Nat) : Prop :=
  ∀ n, Nesting.run? ⟨before, false, false⟩ w = some n → n = ⟨after, false, false⟩

lemma Counts.append {w w' : List Char} {a b c : Nat} (h : Counts w a b) (h' : Counts w' b c) :
    Counts (w ++ w') a c := by
  intro n hn
  rw [Nesting.run?_append, Option.bind_eq_some_iff] at hn
  obtain ⟨m, hm, hn⟩ := hn
  rw [h m hm] at hn
  exact h' n hn

lemma counts_open (a : Nat) : Counts ['('] a (a + 1) := by
  intro n hn
  rw [Nesting.run?, Nesting.step?, if_neg (by simp), if_neg (by decide), if_pos rfl] at hn
  split_ifs at hn with hlimit
  exact (Option.some.inj hn).symm

lemma counts_close (a : Nat) : Counts [')'] (a + 1) a := by
  intro n hn
  exact (Option.some.inj hn).symm

lemma counts_of_forall {w : List Char} (h : ∀ c ∈ w, isMark c = false) (a : Nat) :
    Counts w a a := by
  induction w with
  | nil =>
      intro n hn
      exact (Option.some.inj hn).symm
  | cons c w ih =>
      intro n hn
      have hc := h c List.mem_cons_self
      simp only [isMark, Bool.or_eq_false_iff, beq_eq_false_iff_ne] at hc
      obtain ⟨⟨hopen, hclose⟩, hquote⟩ := hc
      rw [Nesting.run?, Nesting.step?, if_neg (by simp), if_neg hquote, if_neg hopen,
        if_neg hclose] at hn
      exact ih (fun d hd => h d (List.mem_cons_of_mem c hd)) n hn

/-- Between quotes nothing counts. -/
lemma run?_pieces (a : Nat) (ps : List QuotedPiece) :
    Nesting.run? ⟨a, true, false⟩ (ps.flatMap QuotedPiece.text) = some ⟨a, true, false⟩ := by
  induction ps with
  | nil => rfl
  | cons p ps ih =>
      rw [List.flatMap_cons]
      cases p with
      | plain c h =>
          rw [QuotedPiece.text, List.singleton_append, Nesting.run?, Nesting.step?, if_pos rfl,
            if_neg (by simp), if_neg h.2, if_neg h.1]
          exact ih
      | escaped c => exact ih

lemma counts_value (v : ValueForm) (a : Nat) : Counts v.text a a := by
  obtain ⟨ps, rfl⟩ | h := v.quoted_or_token?
  · intro n hn
    have hinside : Nesting.run? ⟨a, true, false⟩ (ps.flatMap QuotedPiece.text ++ ['\'']) =
        some ⟨a, false, false⟩ := by
      rw [Nesting.run?_append, run?_pieces]
      rfl
    exact Option.some.inj (hn.symm.trans hinside)
  · exact counts_of_forall (isMark_of_token? h) a

lemma Counts.enclosed {w : List Char} {a : Nat} (h : Counts w (a + 1) (a + 1))
    (before after : Blanks) :
    Counts (['('] ++ (before.chars ++ (w ++ (after.chars ++ [')'])))) a a :=
  (counts_open a).append ((counts_of_forall before.isMark _).append
    (h.append ((counts_of_forall after.isMark _).append (counts_close a))))

mutual

/-- **Over an operand the scan counts nothing in the end.** -/
theorem Operand.counts_text : ∀ (o : Operand) (a : Nat), Counts o.text a a
  | .negation gap before d after, a => by
      have hbang : ∀ c ∈ ['!'], isMark c = false := List.forall_mem_singleton.mpr rfl
      have h := (counts_of_forall hbang a).append ((counts_of_forall gap.isMark a).append
        ((Disjunction.counts_text d (a + 1)).enclosed before after))
      simpa only [Operand.text, List.append_assoc, List.cons_append, List.nil_append] using h
  | .parentheses before d after, a => by
      have h := (Disjunction.counts_text d (a + 1)).enclosed before after
      simpa only [Operand.text, List.append_assoc, List.cons_append, List.nil_append] using h
  | .all w, a => by
      rw [Operand.text]
      exact counts_of_forall (w.isMark isWord_all) a
  | .present n g w, a => by
      rw [Operand.text]
      exact ((counts_of_forall n.isMark a).append (counts_of_forall g.isMark a)).append
        (counts_of_forall (w.isMark isWord_present) a)
  | .compare n g w p v, a => by
      rw [Operand.text]
      exact ((((counts_of_forall n.isMark a).append (counts_of_forall g.isMark a)).append
        (counts_of_forall (w.spelling.isMark w.isWord) a)).append
          (counts_of_forall p.isMark a)).append (counts_value v a)

lemma Conjunction.counts_text : ∀ (c : Conjunction) (a : Nat), Counts c.text a a
  | .single o, a => by
      rw [Conjunction.text]
      exact o.counts_text a
  | .joined o j c, a => by
      rw [Conjunction.text]
      exact ((o.counts_text a).append (counts_of_forall (j.isMark isWord_and) a)).append
        (c.counts_text a)

lemma Disjunction.counts_text : ∀ (d : Disjunction) (a : Nat), Counts d.text a a
  | .single c, a => by
      rw [Disjunction.text]
      exact c.counts_text a
  | .joined c j d, a => by
      rw [Disjunction.text]
      exact ((c.counts_text a).append (counts_of_forall (j.isMark isWord_or) a)).append
        (d.counts_text a)

end

/-- One step counts at most one parenthesis more, and never beyond the limit. -/
lemma Nesting.depth_of_step?_eq {n m : Nesting} {c : Char} (h : n.step? c = some m)
    (hn : n.depth ≤ nestingLimit) : m.depth ≤ nestingLimit ∧ m.depth ≤ n.depth + 1 := by
  obtain ⟨depth, quoted, escaped⟩ := n
  unfold step? at h
  split_ifs at h
  all_goals
    obtain rfl := Option.some.inj h
    dsimp only at *
    omega

lemma Nesting.depth_of_run?_eq {n m : Nesting} {s : List Char} (h : n.run? s = some m)
    (hn : n.depth ≤ nestingLimit) :
    m.depth ≤ nestingLimit ∧ m.depth ≤ n.depth + s.length := by
  induction s generalizing n with
  | nil =>
      obtain rfl := Option.some.inj h
      exact ⟨hn, Nat.le_add_right _ _⟩
  | cons c s ih =>
      rw [run?] at h
      split at h
      · next k hk =>
        obtain ⟨hlimit, hstep⟩ := depth_of_step?_eq hk hn
        obtain ⟨hdepth, hrun⟩ := ih h hlimit
        rw [List.length_cons]
        exact ⟨hdepth, by omega⟩
      · cases h

/-! ## Where the reader stands -/

/-- The scan of a text comes to the place behind which `rest` stands outside quotes, with so many
parentheses open. -/
def Stands (whole : List Char) (opened : Nat) (rest : List Char) : Prop :=
  ∃ read, whole = read ++ rest ∧
    Nesting.run? ⟨0, false, false⟩ read = some ⟨opened, false, false⟩

namespace Stands

variable {whole rest w : List Char} {a b opened : Nat}

lemma start (whole : List Char) : Stands whole 0 whole :=
  ⟨[], rfl, rfl⟩

/-- The scan goes on over what is read next. -/
lemma behind (hkeeps : keepsNestingLimit whole = true) (h : Stands whole a (w ++ rest))
    (hw : Counts w a b) : Stands whole b rest := by
  obtain ⟨read, hwhole, hread⟩ := h
  rw [keepsNestingLimit, hwhole, Nesting.run?_append, hread, Option.bind_some,
    Nesting.run?_append] at hkeeps
  refine ⟨read ++ w, by rw [hwhole, List.append_assoc], ?_⟩
  rw [Nesting.run?_append, hread, Option.bind_some]
  cases hn : Nesting.run? ⟨a, false, false⟩ w with
  | none =>
      rw [hn] at hkeeps
      cases hkeeps
  | some n => rw [hw n hn]

lemma behind_blanks (hkeeps : keepsNestingLimit whole = true) (h : Stands whole opened rest) :
    Stands whole opened (skipBlanks rest) := by
  obtain ⟨gap, hgap⟩ := exists_blanks_append rest
  rw [hgap] at h
  exact h.behind hkeeps (counts_of_forall gap.isMark opened)

lemma scanBefore?_eq (h : Stands whole opened rest) :
    scanBefore? whole rest = some ⟨opened, false, false⟩ := by
  obtain ⟨read, rfl, hread⟩ := h
  rw [scanBefore?, List.length_append, Nat.add_sub_cancel, List.take_left, hread]

/-- **The limit and the length of the text bound the parentheses that are open.** -/
lemma opened_le (h : Stands whole opened rest) :
    opened ≤ nestingLimit ∧ opened ≤ whole.length := by
  obtain ⟨read, rfl, hread⟩ := h
  obtain ⟨hlimit, hlength⟩ := Nesting.depth_of_run?_eq hread (Nat.zero_le _)
  dsimp only at hlimit hlength
  rw [List.length_append]
  exact ⟨hlimit, by omega⟩

end Stands

/-! ## Readers that agree -/

/-- Two results are the same, and none for want of budget. -/
def Agrees {α : Type} (x y : Except Fault α) : Prop :=
  x = y ∧ x ≠ .error .budget

section

variable {α β : Type}

lemma agrees_ok (a : α) : Agrees (.ok a) (.ok a) :=
  ⟨rfl, nofun⟩

lemma agrees_stuck (s : List Char) :
    Agrees (.error (.stuck s) : Except Fault α) (.error (.stuck s)) :=
  ⟨rfl, nofun⟩

lemma Agrees.bind {x y : Except Fault α} {f g : α → Except Fault β} (h : Agrees x y)
    (hf : ∀ a, x = .ok a → Agrees (f a) (g a)) : Agrees (x >>= f) (y >>= g) := by
  obtain ⟨rfl, hbudget⟩ := h
  cases x with
  | error e =>
      refine ⟨rfl, ?_⟩
      rintro he
      obtain rfl : e = .budget := Except.error.inj he
      exact hbudget rfl
  | ok a => exact hf a rfl

lemma Agrees.map {x : Except Fault α} (h : Agrees x x) (f : α → β) :
    Agrees (x.map f) (x.map f) := by
  cases x with
  | error e =>
      refine ⟨rfl, ?_⟩
      rintro he
      obtain rfl : e = .budget := Except.error.inj he
      exact h.2 rfl
  | ok a => exact agrees_ok (f a)

end

/-! ### Leaves

They open no parentheses, so nothing can be refused there.
-/

lemma agrees_blanks (s : List Char) : Agrees (blanks s) (blanks s) := by
  cases s with
  | nil => exact agrees_stuck []
  | cons c s =>
      rw [blanks]
      split_ifs
      · exact agrees_ok _
      · exact agrees_stuck _

lemma agrees_name (s : List Char) : Agrees (name s) (name s) := by
  cases s with
  | nil => exact agrees_stuck []
  | cons c s =>
      rw [name]
      split_ifs
      · exact agrees_ok _
      · exact agrees_stuck _

lemma agrees_quotedText (s : List Char) : Agrees (quotedText s) (quotedText s) := by
  fun_induction quotedText s with
  | case1 => exact agrees_stuck []
  | case2 => exact agrees_stuck []
  | case3 c s ih => exact ih.map _
  | case4 s => exact agrees_ok _
  | case5 c s hlast hescape hquote ih => exact ih.map _

lemma agrees_value (s : List Char) : Agrees (value s) (value s) := by
  cases s with
  | nil => exact agrees_stuck []
  | cons c s =>
      rw [value]
      split_ifs
      · exact (agrees_quotedText s).map _
      · split
        · exact agrees_ok _
        · exact agrees_stuck _

lemma agrees_comparison (s : List Char) : Agrees (comparison s) (comparison s) := by
  refine (agrees_name s).bind fun x _ => ?_
  refine (agrees_blanks x.2).bind fun t _ => ?_
  split
  · exact agrees_ok _
  · split
    · exact agrees_stuck _
    · next u _ =>
      refine (agrees_blanks u).bind fun v _ => ?_
      exact (agrees_value v).bind fun y _ => agrees_ok _

/-! ### Operands and chains -/

section

variable {whole : List Char} (hkeeps : keepsNestingLimit whole = true) {opened : Nat}
include hkeeps

section

/- Two readers for the inside of parentheses.  Where one more parenthesis is open they agree. -/
variable {inner inner' : List Char → Except Fault (Expr × List Char)}
  (hinner : ∀ s, Stands whole (opened + 1) s → Agrees (inner s) (inner' s))
include hinner

lemma agrees_parentheses {s : List Char} (hs : Stands whole opened s) :
    Agrees (parentheses inner s) (parentheses inner' s) := by
  cases s with
  | nil => exact agrees_stuck []
  | cons c s =>
      rw [parentheses, parentheses]
      split_ifs with hc
      · subst hc
        have hopened : Stands whole (opened + 1) s := hs.behind (w := ['(']) hkeeps (counts_open _)
        refine (hinner _ (hopened.behind_blanks hkeeps)).bind fun x _ => ?_
        obtain ⟨e, r⟩ := x
        dsimp only
        split
        · exact agrees_ok _
        · exact agrees_stuck _
      · exact agrees_stuck _

lemma agrees_operand {s : List Char} (hs : Stands whole opened s) :
    Agrees (operand inner s) (operand inner' s) := by
  unfold operand
  split
  · next s =>
    have hbang : ∀ c ∈ ['!'], isMark c = false := List.forall_mem_singleton.mpr rfl
    have hbehind : Stands whole opened s :=
      hs.behind (w := ['!']) hkeeps (counts_of_forall hbang opened)
    exact (agrees_parentheses hkeeps hinner (hbehind.behind_blanks hkeeps)).bind
      fun x _ => agrees_ok _
  · exact agrees_parentheses hkeeps hinner hs
  · split
    · exact agrees_ok _
    · exact agrees_comparison _

end

section

/- Two readers for the links of a chain.  They agree where as many parentheses are open as around
the chain, and these are open again behind the link. -/
variable {word : List Char} (hword : IsWord word)
  {one one' : List Char → Except Fault (Expr × List Char)}
  (hcounts : ∀ {s : List Char} {e : Expr} {r : List Char}, one s = .ok (e, r) →
    ∃ w, s = w ++ r ∧ Counts w opened opened)
  (hone : ∀ s, Stands whole opened s → Agrees (one s) (one' s))
include hword hcounts hone

lemma agrees_chainTail (steps : Nat) {s : List Char} (hs : Stands whole opened s) :
    Agrees (chainTail word one steps s) (chainTail word one' steps s) := by
  induction steps generalizing s with
  | zero => exact agrees_ok _
  | succ steps ih =>
      rw [chainTail, chainTail]
      split
      · exact agrees_ok _
      · next t ht =>
        obtain ⟨j, rfl⟩ := exists_of_joiner?_eq ht
        have hlink := hs.behind hkeeps (counts_of_forall (j.isMark hword) opened)
        refine (hone t hlink).bind fun x he => ?_
        obtain ⟨w, rfl, hw⟩ := hcounts he
        exact (ih (hlink.behind hkeeps hw)).bind fun x _ => agrees_ok _

lemma agrees_chain {make : List Expr → Expr} {s : List Char} (hs : Stands whole opened s) :
    Agrees (chain word make one s) (chain word make one' s) := by
  refine (hone s hs).bind fun x he => ?_
  obtain ⟨w, rfl, hw⟩ := hcounts he
  exact (agrees_chainTail hkeeps hword hcounts hone _ (hs.behind hkeeps hw)).bind
    fun x _ => agrees_ok _

end

variable {inner inner' : List Char → Except Fault (Expr × List Char)}
  (hreads : ReadsDisjunctions inner)
  (hinner : ∀ s, Stands whole (opened + 1) s → Agrees (inner s) (inner' s))
include hreads hinner

lemma agrees_andChain {s : List Char} (hs : Stands whole opened s) :
    Agrees (andChain inner s) (andChain inner' s) := by
  refine agrees_chain hkeeps isWord_and (fun h => ?_) (fun _ => agrees_operand hkeeps hinner) hs
  obtain ⟨o, ho, -⟩ := exists_of_operand_eq hreads h
  exact ⟨o.text, ho, o.counts_text opened⟩

/-- **Readers that agree behind every opened parenthesis agree.** -/
theorem agrees_orChain {s : List Char} (hs : Stands whole opened s) :
    Agrees (orChain inner s) (orChain inner' s) := by
  refine agrees_chain hkeeps isWord_or (fun h => ?_)
    (fun _ => agrees_andChain hkeeps hreads hinner) hs
  obtain ⟨c, hc, -⟩ := exists_of_andChain_eq hreads h
  exact ⟨c.text, hc, c.counts_text opened⟩

end

/-! ## Budgets -/

/-- Where so many parentheses are open, a budget is enough to get to the limit, or to open as many
as there are characters. -/
def Suffices (whole : List Char) (opened budget : Nat) : Prop :=
  nestingLimit ≤ opened + budget ∨ whole.length ≤ opened + budget

lemma Suffices.succ {whole : List Char} {opened budget : Nat}
    (h : Suffices whole opened (budget + 1)) : Suffices whole (opened + 1) budget := by
  unfold Suffices at h ⊢
  omega

/-- With the budget used up no further parenthesis is opened. -/
lemma Suffices.not_stands {whole : List Char} {opened : Nat} (h : Suffices whole opened 0)
    (s : List Char) : ¬ Stands whole (opened + 1) s := by
  intro hs
  have hle := hs.opened_le
  unfold Suffices at h
  omega

/-- **The reader and the scan keep in step.** -/
theorem agrees_lockstep {whole : List Char} (hkeeps : keepsNestingLimit whole = true)
    {budget budget' opened : Nat} (hbudget : Suffices whole opened budget)
    (hbudget' : Suffices whole opened budget') {s : List Char} (hs : Stands whole opened s) :
    Agrees (expression budget s) (lockstep whole budget' opened s) := by
  induction budget generalizing budget' opened s with
  | zero =>
      have hreads : ReadsDisjunctions fun _ => .error .budget := nofun
      cases budget' with
      | zero | succ =>
          exact agrees_orChain hkeeps hreads (fun t ht => absurd ht (hbudget.not_stands t)) hs
  | succ budget ih =>
      have hreads : ReadsDisjunctions (expression budget) := readsDisjunctions_expression budget
      cases budget' with
      | zero =>
          exact agrees_orChain hkeeps hreads (fun t ht => absurd ht (hbudget'.not_stands t)) hs
      | succ budget' =>
          refine agrees_orChain hkeeps hreads (fun t ht => ?_) hs
          rw [if_pos ht.scanBefore?_eq]
          exact ih hbudget.succ hbudget'.succ ht

/-- A text that is one expression and nothing else is read within the same budget. -/
lemma agrees_wholeExpression {budget budget' : Nat} {s : List Char}
    (h : Agrees (expression budget s) (expression budget' s)) :
    Agrees (wholeExpression budget s) (wholeExpression budget' s) := by
  refine h.bind fun x _ => ?_
  obtain ⟨e, r⟩ := x
  dsimp only
  split_ifs
  · exact agrees_ok _
  · exact agrees_stuck _

/-- A query is too deep for the scan, or else for the reader. -/
lemma parse_ne_tooDeep {text : String} (hkeeps : keepsNestingLimit (Text.trim text.toList) = true)
    (h : wholeExpression (Text.trim text.toList).length (Text.trim text.toList) ≠ .error .budget) :
    parse text ≠ .error .tooDeep := by
  intro hdeep
  rw [parse, hkeeps] at hdeep
  split_ifs at hdeep with hempty hrefused
  · cases hdeep
  · cases hrefused
  · split at hdeep
    · cases hdeep
    · cases hdeep
    · next hbudget => exact h hbudget

/-- **The scan bounds the reader.**  In a text that keeps the nesting limit, whether it is a query
or not, the reader never opens more parentheses than the limit allows, and wherever it opens one the
scan is outside quotes and counts the same number.  So any budget that is no smaller than the limit
or the length of the text gives the same result as the limit, and no query is refused for its depth
once the scan has passed it. -/
theorem expression_eq_lockstep {s : List Char} (hs : keepsNestingLimit s = true) :
    expression nestingLimit s = lockstep s nestingLimit 0 s ∧
      expression nestingLimit s ≠ .error .budget ∧
      (∀ budget, nestingLimit ≤ budget ∨ s.length ≤ budget →
        expression budget s = expression nestingLimit s) ∧
      ∀ text : String, Text.trim text.toList = s → parse text ≠ .error .tooDeep := by
  have hstart := Stands.start s
  have hlimit : Suffices s 0 nestingLimit := .inl (Nat.le_add_left _ _)
  have hagrees : ∀ budget, nestingLimit ≤ budget ∨ s.length ≤ budget →
      Agrees (expression budget s) (lockstep s nestingLimit 0 s) := by
    intro budget hbudget
    refine agrees_lockstep hs ?_ hlimit hstart
    rwa [Suffices, Nat.zero_add]
  obtain ⟨hsame, hspared⟩ := hagrees nestingLimit (.inl le_rfl)
  have hbudgets : ∀ budget, nestingLimit ≤ budget ∨ s.length ≤ budget →
      Agrees (expression budget s) (expression nestingLimit s) := by
    intro budget hbudget
    rw [hsame]
    exact hagrees budget hbudget
  refine ⟨hsame, hspared, fun budget hbudget => (hbudgets budget hbudget).1, ?_⟩
  rintro text rfl
  exact parse_ne_tooDeep hs (agrees_wholeExpression (hbudgets _ (.inr le_rfl))).2

/-- As many parentheses as allowed, and behind them a negation of something quoted. -/
def deepText : List Char :=
  List.replicate nestingLimit '(' ++ ['!', '\'', '(']

theorem expression_eq_lockstep_deepText :
    keepsNestingLimit deepText = true ∧ keepsNestingLimit ('(' :: deepText) = false ∧
      expression nestingLimit deepText = lockstep deepText nestingLimit 0 deepText ∧
      expression nestingLimit deepText ≠ .error .budget ∧
      expression deepText.length deepText = expression nestingLimit deepText ∧
      parse (String.ofList deepText) ≠ .error .tooDeep := by
  have hkeeps : keepsNestingLimit deepText = true := by decide
  have htrim : Text.trim (String.ofList deepText).toList = deepText := by
    rw [String.toList_ofList]
    decide
  obtain ⟨hsame, hspared, hbudgets, hparse⟩ := expression_eq_lockstep hkeeps
  exact ⟨hkeeps, by decide, hsame, hspared, hbudgets _ (.inr le_rfl), hparse _ htrim⟩

end AccessFilter.Query
