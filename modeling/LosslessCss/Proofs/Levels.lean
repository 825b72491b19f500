import LosslessCss.Value.ListScan
import LosslessCss.Value.Quoting
import LosslessCss.Proofs.Lookahead
import LosslessCss.Proofs.Trailing

/-!
# What is open at a place of a value

A separator of a list counts where it is not escaped, outside of quotes and outside of parentheses.
What that means can be told without a scanner (`Level`): the text in front of the place is read from
left to right as escapes, quoted strings, parentheses and other characters, and as many parentheses are
open as have been opened and not closed.  A closing parenthesis where none is open closes nothing.

The contexts of `Split.Context.step` decide just that (`level_iff`).  All other contexts belong to a
text that ends inside an escape or inside a string (`reading_behind`).

## Main Definitions

* `Level` : the place behind a text is outside of escapes and quotes, at a depth of parentheses
* `Separates` : a separator that counts
* `behind` : the context behind a text

## Main Statements

* `level_iff` : contexts and levels
* `escaped_behind` : when a text ends inside an escape
* `Context.advance?_eq` : the scan and the cut decide alike
-/

namespace LosslessCss.Value.Split

open Token (dangles stringTail stringTail_escape stringTail_cons_of_ne)

/-- **The place behind a text is at a depth of parentheses**, and neither behind an open escape nor
inside a string. -/
inductive Level : ℕ → List Char → Prop
  | nil : Level 0 []
  | escape {n : ℕ} {front : List Char} (c : Char) (h : Level n front) : Level n (front ++ ['\\', c])
  | string {n : ℕ} {front inner : List Char} {quote : Char} (hquote : isQuote quote = true)
      (hinner : stringTail quote inner = some inner.length) (h : Level n front) :
      Level n (front ++ quote :: inner)
  | opening {n : ℕ} {front : List Char} (h : Level n front) : Level (n + 1) (front ++ ['('])
  | closing {n : ℕ} {front : List Char} (h : Level n front) : Level (n - 1) (front ++ [')'])
  | other {n : ℕ} {front : List Char} {c : Char} (hc : isMarkup c = false) (h : Level n front) :
      Level n (front ++ [c])

/-- **A separator that counts**, behind `front`: it is not escaped, outside of quotes and outside of
parentheses, and it is no markup itself. -/
structure Separates (separators front : List Char) (c : Char) : Prop where
  mem : c ∈ separators
  isMarkup : isMarkup c = false
  level : Level 0 front

/-! ### Steps -/

theorem isMarkup_eq_false_iff {c : Char} : isMarkup c = false ↔
    c ≠ '\\' ∧ isQuote c = false ∧ c ≠ '(' ∧ c ≠ ')' := by
  simp [isMarkup, isQuote, and_assoc]

theorem isMarkup_of_isWhiteSpace {c : Char} (h : Text.isWhiteSpace c = true) :
    isMarkup c = false := by
  by_contra hmarkup
  simp only [isMarkup, Bool.not_eq_false, Bool.or_eq_true, beq_iff_eq, or_assoc] at hmarkup
  rcases hmarkup with rfl | rfl | rfl | rfl | rfl <;> exact absurd h (by decide)

namespace Context

variable {x : Context} {c : Char}

theorem isTop_iff : x.isTop = true ↔ x = {} := by
  obtain ⟨depth, quote, escaped⟩ := x
  simp only [isTop, Bool.and_eq_true, Bool.not_eq_true', Option.isNone_iff_eq_none, beq_iff_eq,
    mk.injEq]
  tauto

theorem step_of_escaped (n : ℕ) (quote : Option Char) (c : Char) :
    step ⟨n, quote, true⟩ c = ⟨n, quote, false⟩ := rfl

theorem step_inside (n : ℕ) (quote : Char) (hc : c ≠ '\\') :
    step ⟨n, some quote, false⟩ c = ⟨n, if c = quote then none else some quote, false⟩ := by
  simp only [step, Bool.false_eq_true, if_false, hc]
  split <;> rfl

theorem step_quote (n : ℕ) (hc : isQuote c = true) :
    step ⟨n, none, false⟩ c = ⟨n, some c, false⟩ := by
  simp only [isQuote, Bool.or_eq_true, beq_iff_eq] at hc
  rcases hc with rfl | rfl <;> rfl

/-- Outside of quotes only markup makes a difference. -/
theorem step_of_not_isMarkup (n : ℕ) (hc : isMarkup c = false) :
    step ⟨n, none, false⟩ c = ⟨n, none, false⟩ := by
  obtain ⟨hescape, hquote, hopen, hclose⟩ := isMarkup_eq_false_iff.mp hc
  simp_all [step, isQuote]

/-- Where no escape is open, white space opens and closes nothing. -/
theorem foldl_step_blank (n : ℕ) {quote : Option Char} (hquote : ∀ q ∈ quote, isQuote q = true)
    {gap : List Char} (hgap : ∀ c ∈ gap, Text.isWhiteSpace c = true) :
    gap.foldl step ⟨n, quote, false⟩ = ⟨n, quote, false⟩ := by
  induction gap with
  | nil => rfl
  | cons c gap ih =>
    obtain ⟨hc, hgap⟩ := List.forall_mem_cons.mp hgap
    have hmarkup := isMarkup_of_isWhiteSpace hc
    have hstep : step ⟨n, quote, false⟩ c = ⟨n, quote, false⟩ := by
      cases quote with
      | none => exact step_of_not_isMarkup n hmarkup
      | some q =>
        obtain ⟨hescape, hnot, -⟩ := isMarkup_eq_false_iff.mp hmarkup
        have hne : c ≠ q := fun heq => by
          rw [heq, hquote q rfl] at hnot
          cases hnot
        rw [step_inside n q hescape, if_neg hne]
    rw [List.foldl_cons, hstep, ih hgap]

/-- Only a backslash opens an escape. -/
theorem escaped_step (hx : x.escaped = false) (hc : c ≠ '\\') : (x.step c).escaped = false := by
  simp only [step, hx, hc]
  grind

/-- **The scan decides like the cut**: where a character does not separate, it opens and closes what it
always does. -/
theorem advance?_eq (isSeparator : Char → Bool) (x : Context) (c : Char) :
    x.advance? isSeparator c =
      if x.isTop && isSeparator c && !Split.isMarkup c then none else some (x.step c) := by
  obtain ⟨depth, quote, escaped⟩ := x
  cases escaped with
  | true => rfl
  | false =>
    cases quote with
    | some q => simp [advance?, isTop, step, apply_ite some]
    | none =>
      simp only [advance?, isTop, step, Split.isMarkup]
      grind

end Context

/-! ### What is open behind a text -/

/-- What is open behind a text. -/
def behind (text : List Char) : Context := text.foldl Context.step {}

@[simp]
theorem behind_nil : behind [] = {} := rfl

theorem behind_append (cs ds : List Char) : behind (cs ++ ds) = ds.foldl Context.step (behind cs) :=
  List.foldl_append

@[simp]
theorem behind_snoc (cs : List Char) (c : Char) : behind (cs ++ [c]) = (behind cs).step c :=
  behind_append cs [c]

/-- Where nothing is open a text starts anew. -/
theorem behind_append_of_top {front : List Char} (h : behind front = {}) (cs : List Char) :
    behind (front ++ cs) = behind cs := by
  rw [behind_append, h, behind]

theorem behind_of_blank {gap : List Char} (hgap : ∀ c ∈ gap, Text.isWhiteSpace c = true) :
    behind gap = {} :=
  Context.foldl_step_blank 0 (by simp) hgap

theorem behind_append_blank {front gap : List Char} (hfront : behind front = {})
    (hgap : ∀ c ∈ gap, Text.isWhiteSpace c = true) : behind (front ++ gap) = {} := by
  rw [behind_append_of_top hfront, behind_of_blank hgap]

/-- **A text ends inside an escape** exactly if its last backslash has no character to take along. -/
theorem escaped_foldl_step {x : Context} (hx : x.escaped = false) (cs : List Char) :
    (cs.foldl Context.step x).escaped = dangles cs := by
  fun_induction dangles cs generalizing x with
  | case1 => exact hx
  | case2 => simp [Context.step, hx]
  | case3 c cs ih => exact ih (by simp [Context.step, hx])
  | case4 c cs hnil hcons ih => exact ih (Context.escaped_step hx (Token.ne_backslash hnil hcons))

theorem escaped_behind (cs : List Char) : (behind cs).escaped = dangles cs :=
  escaped_foldl_step rfl cs

/-- A string is passed up to its closing quote. -/
theorem foldl_step_of_stringTail {quote : Char} {inner : List Char} (n : ℕ)
    (h : stringTail quote inner = some inner.length) :
    inner.foldl Context.step ⟨n, some quote, false⟩ = ⟨n, none, false⟩ := by
  fun_induction stringTail quote inner with
  | case1 => cases h
  | case2 => cases h
  | case3 c cs ih =>
    obtain ⟨k, hk, hlength⟩ := Option.map_eq_some_iff.mp h
    rw [List.length_cons, List.length_cons] at hlength
    exact ih (by rw [hk, Nat.add_right_cancel hlength])
  | case4 cs hnil hcons =>
    obtain rfl : cs = [] := by simpa using h
    rw [List.foldl_cons, List.foldl_nil, Context.step_inside n quote (Token.ne_backslash hnil hcons),
      if_pos rfl]
  | case5 c cs hnil hcons hne ih =>
    obtain ⟨k, hk, hlength⟩ := Option.map_eq_some_iff.mp h
    rw [List.length_cons] at hlength
    rw [List.foldl_cons, Context.step_inside n quote (Token.ne_backslash hnil hcons), if_neg hne]
    exact ih (by rw [hk, Nat.add_right_cancel hlength])

theorem Level.behind_eq {n : ℕ} {front : List Char} (h : Level n front) :
    behind front = ⟨n, none, false⟩ := by
  induction h with
  | nil => rfl
  | escape c _ ih => rw [behind_append, ih]; rfl
  | string hquote hinner _ ih =>
    rw [behind_append, ih, List.foldl_cons, Context.step_quote _ hquote,
      foldl_step_of_stringTail _ hinner]
  | opening _ ih => rw [behind_snoc, ih]; rfl
  | closing _ ih => rw [behind_snoc, ih]; rfl
  | other hc _ ih => rw [behind_snoc, ih, Context.step_of_not_isMarkup _ hc]

/-- **A string goes on** behind what has been read of it. -/
def GoesOn (quote : Char) (inner : List Char) : Prop :=
  ∀ more, stringTail quote (inner ++ more) = (stringTail quote more).map (· + inner.length)

theorem GoesOn.escape {quote : Char} {inner : List Char} (h : GoesOn quote inner) (c : Char) :
    GoesOn quote (inner ++ ['\\', c]) := by
  intro more
  rw [List.append_assoc, h]
  change Option.map _ (stringTail quote ('\\' :: c :: more)) = _
  rw [stringTail_escape, Option.map_map, List.length_append]
  congr 1
  funext k
  simp only [Function.comp_apply, List.length_cons, List.length_nil]
  omega

theorem GoesOn.snoc {quote c : Char} {inner : List Char} (h : GoesOn quote inner) (hc : c ≠ '\\')
    (hquote : c ≠ quote) : GoesOn quote (inner ++ [c]) := by
  intro more
  rw [List.append_assoc, h, List.singleton_append, stringTail_cons_of_ne _ hc, if_neg hquote,
    Option.map_map, List.length_append]
  congr 1
  funext k
  simp only [Function.comp_apply, List.length_singleton]
  omega

/-- The closing quote ends a string. -/
theorem GoesOn.close {quote : Char} {inner : List Char} (h : GoesOn quote inner)
    (hquote : quote ≠ '\\') : stringTail quote (inner ++ [quote]) = some (inner ++ [quote]).length := by
  rw [h, stringTail_cons_of_ne _ hquote, if_pos rfl, List.length_append]
  simp [Nat.add_comm]

/-- **How a text is read** whose context is given: to its end, or up to an escape or a string that
goes on. -/
inductive Reading : Context → List Char → Prop
  | outside {n : ℕ} {front : List Char} (h : Level n front) : Reading ⟨n, none, false⟩ front
  | escape {n : ℕ} {front : List Char} (h : Level n front) :
      Reading ⟨n, none, true⟩ (front ++ ['\\'])
  | inside {n : ℕ} {front inner : List Char} {quote : Char} (hquote : isQuote quote = true)
      (hinner : GoesOn quote inner) (h : Level n front) :
      Reading ⟨n, some quote, false⟩ (front ++ quote :: inner)
  | insideEscape {n : ℕ} {front inner : List Char} {quote : Char} (hquote : isQuote quote = true)
      (hinner : GoesOn quote inner) (h : Level n front) :
      Reading ⟨n, some quote, true⟩ (front ++ quote :: (inner ++ ['\\']))

/-- **One more character is read.** -/
theorem Reading.step {x : Context} {text : List Char} (h : Reading x text) (c : Char) :
    Reading (x.step c) (text ++ [c]) := by
  cases h with
  | @outside n _ h =>
    by_cases hescape : c = '\\'
    · subst hescape
      exact .escape h
    by_cases hquote : isQuote c = true
    · rw [Context.step_quote n hquote]
      exact .inside hquote (fun more => by simp) h
    by_cases hopen : c = '('
    · subst hopen
      exact .outside h.opening
    by_cases hclose : c = ')'
    · subst hclose
      exact .outside h.closing
    have hc : isMarkup c = false :=
      isMarkup_eq_false_iff.mpr ⟨hescape, Bool.eq_false_of_not_eq_true hquote, hopen, hclose⟩
    rw [Context.step_of_not_isMarkup n hc]
    exact .outside (h.other hc)
  | escape h =>
    rw [List.append_assoc]
    exact .outside (h.escape c)
  | @inside n front inner quote hquote hinner h =>
    rw [List.append_assoc, List.cons_append]
    by_cases hescape : c = '\\'
    · subst hescape
      exact .insideEscape hquote hinner h
    rw [Context.step_inside n quote hescape]
    by_cases hclose : c = quote
    · subst hclose
      rw [if_pos rfl]
      exact .outside (h.string hquote (hinner.close hescape))
    · rw [if_neg hclose]
      exact .inside hquote (hinner.snoc hescape hclose) h
  | insideEscape hquote hinner h =>
    rw [List.append_assoc, List.cons_append, List.append_assoc]
    exact .inside hquote (hinner.escape c) h

/-- **Every text is read** as its context says. -/
theorem reading_behind (text : List Char) : Reading (behind text) text := by
  induction text using List.reverseRecOn with
  | nil => exact .outside .nil
  | append_singleton text c ih =>
    rw [behind_snoc]
    exact ih.step c

/-- The quote of a string is a quotation mark. -/
theorem isQuote_of_mem_behind {text : List Char} : ∀ q ∈ (behind text).quote, isQuote q = true := by
  have hread := reading_behind text
  generalize behind text = x at hread
  rintro q hq
  cases hread with
  | outside | escape => cases hq
  | inside hquote | insideEscape hquote =>
    obtain rfl := Option.some.inj hq
    exact hquote

/-- **Contexts and levels**: outside of escapes and quotes the context knows the depth. -/
theorem level_iff {n : ℕ} {front : List Char} : Level n front ↔ behind front = ⟨n, none, false⟩ := by
  refine ⟨Level.behind_eq, fun h => ?_⟩
  have hread := reading_behind front
  rw [h] at hread
  cases hread with
  | outside h => exact h

/-- A separator counts exactly where a list is cut. -/
theorem separates_iff {separators front : List Char} {c : Char} : Separates separators front c ↔
    ((behind front).isTop && separators.contains c && !isMarkup c) = true := by
  rw [Bool.and_eq_true, Bool.and_eq_true, List.contains_iff_mem, Bool.not_eq_true', Context.isTop_iff]
  exact ⟨fun h => ⟨⟨level_iff.mp h.level, h.mem⟩, h.isMarkup⟩,
    fun h => ⟨h.1.2, h.2, level_iff.mpr h.1.1⟩⟩

end LosslessCss.Value.Split
