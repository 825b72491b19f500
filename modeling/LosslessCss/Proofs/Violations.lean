import LosslessCss.Proofs.Accepting

/-!
# What a strict parse accepts, and which error it reports

The grammar of a strict parse can be said in terms of tokens alone.  A sheet is grammatical if it
has tokens, if its braces are balanced, and if each statement without a block declares something: it
starts with an at-word, or it has a colon and something in front of the colon (`Grammatical`).

What breaks the grammar is a *violation*, and it shows at a moment of the reading (`Violates`). 
Each token is a chance for two checks, first of the statement that it ends and then of the brace
that it is, and so is the end of the tokens, where the last statement and the open blocks are
checked.  So moment `2 * n` is the first check at token `n` and moment `2 * n + 1` the second.  A
statement that declares nothing shows where it is ended, although it is reported where it starts.

## Main Definitions

* `Token.Balanced` : braces are balanced
* `Statement.IsRun`, `Statement.Between` : a run of tokens of one statement, and the places where a
  statement can start
* `Statement.Declares`, `Statement.Faulty` : what a statement without a block must have, and how it
  can fail
* `Grammatical`, `Violates`

## Main Statements

* `exists_parse_iff_and_parse_eq_error_iff` : a strict parse accepts what is grammatical, and
  otherwise reports the first violation

## Design Notes

The proofs carry three facts along a run of the parser: what it has collected is the statement at
its place (`Parse.State.Runs.at`), its blocks are those that the braces leave open
(`Parse.State.Runs.opened`), and conversely a statement that is found in the tokens is what the
parser has collected (`Parse.State.Runs.collected`).
-/

namespace LosslessCss

/-! ### Balanced braces -/

namespace Token

/-- The number of tokens of a kind. -/
def countOf (kind : Kind) (ts : List Token) : Nat := ts.countP (·.kind == kind)

@[simp]
theorem countOf_nil (kind : Kind) : countOf kind [] = 0 := rfl

@[simp]
theorem countOf_cons (kind : Kind) (t : Token) (ts : List Token) :
    countOf kind (t :: ts) = countOf kind ts + if t.kind = kind then 1 else 0 := by
  simp [countOf, List.countP_cons]

@[simp]
theorem countOf_append (kind : Kind) (ts us : List Token) :
    countOf kind (ts ++ us) = countOf kind ts + countOf kind us := by
  simp [countOf]

/-- **Braces are balanced**: nowhere are there more closing than opening ones up to there, and in
all there are as many. -/
structure Balanced (ts : List Token) : Prop where
  closing_le : ∀ us vs, ts = us ++ vs → countOf .braceClose us ≤ countOf .braceOpen us
  eq : countOf .braceOpen ts = countOf .braceClose ts

namespace Balanced

variable {ts us : List Token} {t u : Token}

theorem nil : Balanced [] := by
  refine ⟨fun us vs h => ?_, rfl⟩
  obtain ⟨rfl, -⟩ := List.append_eq_nil_iff.mp h.symm
  simp

/-- A token that is no brace. -/
theorem singleton (hopen : t.kind ≠ .braceOpen) (hclose : t.kind ≠ .braceClose) :
    Balanced [t] := by
  refine ⟨fun us vs h => ?_, by simp [hopen, hclose]⟩
  rcases List.singleton_eq_append_iff.mp h with ⟨rfl, -⟩ | ⟨rfl, -⟩
  · simp
  · simp [hclose]

theorem append (hts : Balanced ts) (hus : Balanced us) : Balanced (ts ++ us) := by
  refine ⟨fun vs ws h => ?_, by simp [hts.eq, hus.eq]⟩
  rcases List.append_eq_append_iff.mp h with ⟨xs, rfl, hxs⟩ | ⟨xs, hxs, -⟩
  · have := hus.closing_le xs ws hxs
    have := hts.eq
    simp only [countOf_append]
    omega
  · exact hts.closing_le vs xs hxs

/-- A block. -/
theorem block (hopen : t.kind = .braceOpen) (hts : Balanced ts) (hclose : u.kind = .braceClose) :
    Balanced (t :: (ts ++ [u])) := by
  have heq := hts.eq
  refine ⟨fun vs ws h => ?_, by simp [hopen, hclose, heq]⟩
  rcases List.cons_eq_append_iff.mp h with ⟨rfl, -⟩ | ⟨xs, rfl, hxs⟩
  · simp
  · rcases List.append_eq_append_iff.mp hxs with ⟨ys, rfl, hys⟩ | ⟨ys, hys, -⟩
    · rcases List.singleton_eq_append_iff.mp hys with ⟨rfl, -⟩ | ⟨rfl, -⟩
      · simp [hopen, heq]
      · simp [hopen, hclose, heq]
    · have := hts.closing_le xs ys hys
      simp only [countOf_cons, hopen, reduceCtorEq, if_false, if_true]
      omega

/-- An opening brace in balanced tokens is closed: what follows it is not balanced. -/
theorem not_balanced_of_braceOpen (h : Balanced (ts ++ t :: us)) (ht : t.kind = .braceOpen) :
    ¬Balanced us := by
  intro hus
  have hle := h.closing_le ts (t :: us) rfl
  have heq := h.eq
  have heq' := hus.eq
  simp only [countOf_append, countOf_cons, ht, reduceCtorEq, if_false, if_true] at heq
  omega

/-- **The innermost open brace is unique**: what follows it is balanced. -/
theorem unique {before before' inside inside' : List Token}
    (h : before ++ t :: inside = before' ++ u :: inside') (hinside : Balanced inside)
    (hinside' : Balanced inside') (ht : t.kind = .braceOpen) (hu : u.kind = .braceOpen) :
    before = before' ∧ t = u := by
  rcases List.append_eq_append_iff.mp h with ⟨xs, rfl, hxs⟩ | ⟨xs, rfl, hxs⟩
  · rcases List.cons_eq_append_iff.mp hxs with ⟨rfl, hcons⟩ | ⟨ys, -, rfl⟩
    · cases hcons
      exact ⟨by simp, rfl⟩
    · exact (hinside.not_balanced_of_braceOpen hu hinside').elim
  · rcases List.cons_eq_append_iff.mp hxs with ⟨rfl, hcons⟩ | ⟨ys, -, rfl⟩
    · cases hcons
      exact ⟨by simp, rfl⟩
    · exact (hinside'.not_balanced_of_braceOpen ht hinside).elim

end Balanced

end Token

/-! ### Statements in a run of tokens -/

namespace Statement

/-- **The tokens of one statement**, as far as it has been read: the first one starts a statement
and the others go on with it, and `depth` parentheses and brackets are open behind them. -/
structure IsRun (run : List Token) (depth : Nat) : Prop where
  starts : ∀ t ∈ run.head?, t.kind.startsStatement = true
  depth : depth? 0 (run.map Token.kind) = some depth

/-- **A statement can start behind these tokens**: they are blank space, comments and whole
statements, each with the semicolon or the brace that ends it. -/
inductive Between : List Token → Prop
  | nil : Between []
  | trivia {before : List Token} {t : Token} (hbefore : Between before)
      (htrivia : t.isTrivia = true) : Between (before ++ [t])
  | ended {before run : List Token} {depth : Nat} {t : Token} (hbefore : Between before)
      (hrun : IsRun run depth) (hends : t.kind.continuesStatement depth = false) :
      Between (before ++ run ++ [t])

/-- Where the first colon of a run stands. -/
def firstColon? (run : List Token) : Option Nat := run.findIdx? (·.kind == .colon)

/-- A statement without a block is an at-rule, or it has a colon and something in front of it. -/
def Declares (run : List Token) : Prop :=
  (∃ first ∈ run.head?, first.kind = .atWord) ∨ ∃ n, 1 ≤ n ∧ firstColon? run = some n

/-- **How a statement without a block fails**, reported where it starts. -/
inductive Faulty : List Token → ParseError → Prop
  | missingColon {first : Token} {others : List Token} (hkind : first.kind ≠ .atWord)
      (hcolon : firstColon? (first :: others) = none) :
      Faulty (first :: others)
        (.missingColon (Token.concat (content (first :: others))) first.start)
  | missingProperty {first : Token} {others : List Token}
      (hcolon : firstColon? (first :: others) = some 0) :
      Faulty (first :: others) (.missingProperty first.start)

/-- A token ends a statement that has no block. -/
def Terminates (t : Token) (depth : Nat) : Prop :=
  t.kind = .semicolon ∧ depth = 0 ∨ t.kind = .braceClose

section

variable {run : List Token} {depth : Nat} {t : Token}

theorem isRun_nil_iff : IsRun [] depth ↔ depth = 0 := by
  constructor
  · intro h
    simpa [depth?, eq_comm] using h.depth
  · rintro rfl
    exact ⟨by simp, rfl⟩

/-- One more token of the statement. -/
theorem IsRun.push (h : IsRun run depth) (hcontinues : t.kind.continuesStatement depth = true)
    (hstarts : run = [] → t.kind.startsStatement = true) :
    IsRun (run ++ [t]) (t.kind.depthBehind depth) := by
  constructor
  · intro u hu
    cases run with
    | nil =>
      obtain rfl : t = u := by simpa using hu
      exact hstarts rfl
    | cons first others => exact h.starts u (by simpa using hu)
  · simp [depth?_append, h.depth, depth?, hcontinues]

/-- The token in front of which a statement stands ends it. -/
theorem Terminates.continuesStatement (h : Terminates t depth) :
    t.kind.continuesStatement depth = false := by
  rw [Token.Kind.continuesStatement_eq_false_iff]
  exact h.imp id .inr

theorem firstColon?_eq_zero_iff {first : Token} {others : List Token} :
    firstColon? (first :: others) = some 0 ↔ first.kind = .colon := by
  rw [firstColon?, List.findIdx?_cons]
  by_cases hkind : first.kind = .colon <;> simp [hkind]

theorem firstColon?_eq_none_iff : firstColon? run = none ↔ ∀ t ∈ run, t.kind ≠ .colon := by
  simp [firstColon?]

/-- **A statement declares something or it is faulty**, and not both. -/
theorem declares_iff_not_faulty (hne : run ≠ []) : Declares run ↔ ¬∃ e, Faulty run e := by
  obtain ⟨first, others, rfl⟩ := List.exists_cons_of_ne_nil hne
  constructor
  · rintro (⟨u, hu, hkind⟩ | ⟨n, hn, hcolon⟩) ⟨e, hfaulty⟩
    · obtain rfl : first = u := by simpa using hu
      cases hfaulty with
      | missingColon hother => exact hother hkind
      | missingProperty hzero =>
        rw [firstColon?_eq_zero_iff, hkind] at hzero
        cases hzero
    · cases hfaulty with
      | missingColon _ hnone => simp [hnone] at hcolon
      | missingProperty hzero =>
        obtain rfl : 0 = n := by simpa [hzero] using hcolon
        omega
  · intro h
    by_cases hkind : first.kind = .atWord
    · exact .inl ⟨first, rfl, hkind⟩
    · match hcolon : firstColon? (first :: others) with
      | none => exact (h ⟨_, .missingColon hkind hcolon⟩).elim
      | some 0 => exact (h ⟨_, .missingProperty hcolon⟩).elim
      | some (n + 1) => exact .inr ⟨n + 1, by omega, hcolon⟩

theorem Faulty.ne_nil {e : ParseError} (h : Faulty run e) : run ≠ [] := by
  cases h <;> simp

end

end Statement

/-! ### Grammatical sheets and violations -/

open Token (Balanced)
open Statement (IsRun Between Declares Faulty Terminates)

/-- **The grammar in terms of tokens.** -/
structure Grammatical (lexed : Lexed) : Prop where
  failure : lexed.failure = none
  balanced : Balanced lexed.tokens
  /-- A statement in front of a token that ends it without a block, or of the end of the tokens. -/
  declares : ∀ {before run after : List Token} {depth : Nat},
    lexed.tokens = before ++ (run ++ after) → Between before → IsRun run depth → run ≠ [] →
      (∀ t ∈ after.head?, Terminates t depth) → Declares run

/-- **A violation of the grammar**, and the moment at which it shows. -/
inductive Violates (lexed : Lexed) : Nat → ParseError → Prop
  /-- A token ends a statement that declares nothing. -/
  | statement {before run after : List Token} {t : Token} {depth : Nat} {e : ParseError}
      (htokens : lexed.tokens = before ++ run ++ t :: after) (hbefore : Between before)
      (hrun : IsRun run depth) (hends : Terminates t depth) (hfaulty : Faulty run e) :
      Violates lexed (2 * (before ++ run).length) e
  /-- A closing brace has nothing to close. -/
  | brace {before after : List Token} {t : Token} (htokens : lexed.tokens = before ++ t :: after)
      (hkind : t.kind = .braceClose)
      (hclosed : Token.countOf .braceOpen before ≤ Token.countOf .braceClose before) :
      Violates lexed (2 * before.length + 1) (.unexpectedCloseBrace t.start)
  /-- There is no next token. -/
  | lexical {e : LexicalError} (hfailure : lexed.failure = some e) :
      Violates lexed (2 * lexed.tokens.length) (.lexical e)
  /-- The end of the source ends a statement that declares nothing. -/
  | last {before run : List Token} {depth : Nat} {e : ParseError}
      (hfailure : lexed.failure = none) (htokens : lexed.tokens = before ++ run)
      (hbefore : Between before) (hrun : IsRun run depth) (hfaulty : Faulty run e) :
      Violates lexed (2 * lexed.tokens.length) e
  /-- The end of the source finds a block open; the innermost one is reported, where its head or, if
  it has none, its brace starts. -/
  | block {before head inside : List Token} {brace : Token} {depth : Nat}
      (htokens : lexed.tokens = before ++ head ++ brace :: inside) (hbefore : Between before)
      (hhead : IsRun head depth) (hkind : brace.kind = .braceOpen) (hinside : Balanced inside) :
      Violates lexed (2 * lexed.tokens.length + 1)
        (.unclosedBlock (head.head?.getD brace).start)

/-- A grammatical sheet violates nothing. -/
theorem Grammatical.not_violates {lexed : Lexed} (h : Grammatical lexed) {n : Nat}
    {e : ParseError} : ¬Violates lexed n e := by
  intro hviolates
  cases hviolates with
  | statement htokens hbefore hrun hends hfaulty =>
    rw [List.append_assoc] at htokens
    have hdeclares := h.declares htokens hbefore hrun hfaulty.ne_nil (by simpa using hends)
    exact (Statement.declares_iff_not_faulty hfaulty.ne_nil).mp hdeclares ⟨_, hfaulty⟩
  | @brace before after t htokens hkind hclosed =>
    have hle := h.balanced.closing_le (before ++ [t]) after (by simp [htokens])
    simp only [Token.countOf_append, Token.countOf_cons, Token.countOf_nil, hkind, reduceCtorEq,
      if_false, if_true] at hle
    omega
  | lexical hfailure => simp [h.failure] at hfailure
  | @last before run _ _ _ htokens hbefore hrun hfaulty =>
    rw [← List.append_nil run] at htokens
    have hdeclares := h.declares htokens hbefore hrun hfaulty.ne_nil (by simp)
    exact (Statement.declares_iff_not_faulty hfaulty.ne_nil).mp hdeclares ⟨_, hfaulty⟩
  | block htokens _ _ hkind hinside =>
    exact (htokens ▸ h.balanced).not_balanced_of_braceOpen hkind hinside

/-! ### What the parser has collected -/

/-- **Which parts fail.**  A declaration fails without a colon, or with one at its start. -/
theorem DeclarationParts.ofTokens_eq_error_iff {first : Token} {others : List Token}
    (hspace : first.isSpace = false) {fault : DeclarationFault} :
    ofTokens (Statement.content (first :: others)) = .error fault ↔
      fault = .missingColon ∧ Statement.firstColon? (first :: others) = none ∨
        fault = .missingProperty ∧ first.kind = .colon := by
  have hcontent : Statement.content (first :: others) = first :: Statement.content others :=
    dropTrailing_cons_of_neg others hspace
  have hall : (∀ t ∈ Statement.content others, t.kind ≠ .colon) ↔
      ∀ t ∈ others, t.kind ≠ .colon := by
    constructor
    · intro h t ht
      rw [← dropTrailing_append_takeTrailing Token.isSpace others] at ht
      rcases List.mem_append.mp ht with ht | ht
      · exact h t ht
      · intro hkind
        simpa [Token.isSpace, hkind] using of_mem_takeTrailing ht
    · exact fun h t ht => h t ((dropTrailing_isPrefix _ _).subset ht)
  rw [hcontent, Statement.firstColon?_eq_none_iff, List.forall_mem_cons, ← hall]
  by_cases hkind : first.kind = .colon
  · simp [ofTokens, hkind, Statement.content, eq_comm]
  · have hproperty (ts : List Token) : Statement.content (first :: ts) ≠ [] := by
      rw [Statement.content, dropTrailing_cons_of_neg ts hspace]
      simp
    have hhead : (first.kind != .colon) = true := by simpa using hkind
    simp only [ofTokens, List.takeWhile_cons, List.dropWhile_cons, hhead, if_true, hkind,
      and_false, or_false, ne_eq, not_false_eq_true, true_and]
    cases hrest : (Statement.content others).dropWhile fun t => t.kind != .colon with
    | nil =>
      rw [List.dropWhile_eq_nil_iff] at hrest
      simp only [Except.error.injEq]
      constructor
      · rintro rfl
        exact ⟨rfl, fun t ht => by simpa using hrest t ht⟩
      · rintro ⟨rfl, -⟩
        rfl
    | cons colon rest =>
      have hcolon : ¬∀ t ∈ Statement.content others, t.kind ≠ .colon := by
        intro h
        have hnil : (Statement.content others).dropWhile (fun t => t.kind != .colon) = [] :=
          List.dropWhile_eq_nil_iff.mpr fun t ht => by simpa using h t ht
        rw [hrest] at hnil
        cases hnil
      simp [hproperty, hcolon]

namespace Parse.State

variable {s s' : State} {t : Token} {ts before run : List Token} {depth : Nat} {e : ParseError}

/-- **A statement that cannot be ended is faulty.** -/
theorem endStatement_eq_error_iff (hrun : IsRun s.buffer.reverse depth) (hne : s.buffer ≠ [])
    (semicolon? : Option Token) :
    s.endStatement false semicolon? = .error e ↔ Faulty s.buffer.reverse e := by
  obtain ⟨first, others, hcut⟩ := List.exists_cons_of_ne_nil
    (mt List.reverse_eq_nil_iff.mp hne)
  rw [hcut] at hrun ⊢
  have hspace : first.isSpace = false := by
    have hstarts := hrun.starts first rfl
    cases hkind : first.kind <;> simp_all [Token.isSpace, Token.Kind.startsStatement]
  unfold endStatement
  rw [hcut]
  dsimp only
  by_cases hkind : first.kind = .atWord
  · rw [if_pos hkind]
    constructor
    · intro h
      cases h
    · intro h
      cases h with
      | missingColon hother => exact (hother hkind).elim
      | missingProperty hcolon =>
        rw [Statement.firstColon?_eq_zero_iff, hkind] at hcolon
        cases hcolon
  · rw [if_neg hkind]
    cases hparts : DeclarationParts.ofTokens (Statement.content (first :: others)) with
    | ok parts =>
      constructor
      · intro h
        cases h
      · intro h
        cases h with
        | missingColon _ hcolon =>
          rw [(DeclarationParts.ofTokens_eq_error_iff hspace).mpr (.inl ⟨rfl, hcolon⟩)] at hparts
          cases hparts
        | missingProperty hcolon =>
          rw [Statement.firstColon?_eq_zero_iff] at hcolon
          rw [(DeclarationParts.ofTokens_eq_error_iff hspace).mpr (.inr ⟨rfl, hcolon⟩)] at hparts
          cases hparts
    | error fault =>
      rcases (DeclarationParts.ofTokens_eq_error_iff hspace).mp hparts with
        ⟨rfl, hcolon⟩ | ⟨rfl, hcolon⟩
      · constructor
        · intro h
          cases h
          exact .missingColon hkind hcolon
        · intro h
          cases h with
          | missingColon => rfl
          | missingProperty hzero => simp [hcolon] at hzero
      · replace hcolon : Statement.firstColon? (first :: others) = some 0 :=
          Statement.firstColon?_eq_zero_iff.mpr hcolon
        constructor
        · intro h
          cases h
          exact .missingProperty hcolon
        · intro h
          cases h with
          | missingColon _ hnone => simp [hcolon] at hnone
          | missingProperty => rfl

/-- A run leads to one state. -/
theorem Runs.unique {lenient : Bool} (h : Runs lenient s ts s') {s'' : State}
    (h' : Runs lenient s ts s'') : s' = s'' :=
  Except.ok.inj (h.symm.trans h')

theorem runs_snoc :
    Runs false s (ts ++ [t]) s' ↔ ∃ s₁, Runs false s ts s₁ ∧ s₁.Steps false t s' := by
  simp [runs_append, runs_cons]

/-- What is collected is part of one statement of the tokens, and a statement can start in front of
it. -/
structure At (ts : List Token) (s : State) : Prop where
  run : IsRun s.buffer.reverse s.depth
  cut : ∃ before, ts = before ++ s.buffer.reverse ∧ Between before

/-- A state with nothing collected, where a statement can start. -/
theorem At.of_between (hts : Between ts) (hbuffer : s.buffer = []) (hdepth : s.depth = 0) :
    At ts s := by
  refine ⟨?_, ts, by simp [hbuffer], hts⟩
  rw [hbuffer, hdepth]
  exact Statement.isRun_nil_iff.mpr rfl

/-- A token that ends what is collected. -/
theorem At.ended (h : At ts s) (hends : t.kind.continuesStatement s.depth = false)
    (hbuffer : s'.buffer = []) (hdepth : s'.depth = 0) : At (ts ++ [t]) s' := by
  obtain ⟨before, rfl, hbefore⟩ := h.cut
  exact .of_between (.ended hbefore h.run hends) hbuffer hdepth

/-- A token that is collected. -/
theorem At.push (h : At ts s) (hcontinues : t.kind.continuesStatement s.depth = true)
    (hstarts : s.buffer = [] → t.kind.startsStatement = true) : At (ts ++ [t]) (s.push t) := by
  obtain ⟨before, rfl, hbefore⟩ := h.cut
  have hrun := h.run.push hcontinues fun hnil => hstarts (List.reverse_eq_nil_iff.mp hnil)
  constructor
  · rw [push_eq]
    simpa using hrun
  · exact ⟨before, by simp [push_eq], hbefore⟩

theorem At.depth_eq_zero (h : At ts s) (hbuffer : s.buffer = []) : s.depth = 0 := by
  have hrun := h.run
  rw [hbuffer] at hrun
  exact Statement.isRun_nil_iff.mp hrun

/-- A token that ends what is collected, or that is trivia between statements, leaves nothing
collected. -/
theorem Steps.idle (h : s.Steps false t s') (hdepth : s.buffer = [] → s.depth = 0)
    (hends : t.kind.continuesStatement s.depth = false ∨ s.buffer = [] ∧ t.isTrivia = true) :
    s'.Idle := by
  have hclose {s : State} (hs : s.Idle) (stop : Position) : (s.close stop).Idle := by
    unfold State.close
    split
    · exact hs
    · exact ⟨hs.buffer, hs.depth⟩
  cases h with
  | gap hbuffer => exact ⟨hbuffer, hdepth hbuffer⟩
  | comment hbuffer => exact ⟨hbuffer, hdepth hbuffer⟩
  | openBlock => exact ⟨rfl, rfl⟩
  | close hbuffer => exact hclose ⟨hbuffer, hdepth hbuffer⟩ _
  | stray hlenient => cases hlenient
  | first hbuffer hkind =>
    cases hk : t.kind <;> simp_all [Token.Kind.continuesStatement, Token.Kind.startsStatement,
      Token.isTrivia, Token.Kind.isTrivia]
  | more hbuffer hkind => simp [hbuffer, hkind] at hends
  | semicolon _ _ _ hdone => exact ⟨hdone.frame.1, hdone.frame.2.1⟩
  | endClose _ _ _ hdone => exact hclose ⟨hdone.frame.1, hdone.frame.2.1⟩ _
  | endStray hlenient => cases hlenient

/-- Any other token is collected. -/
theorem Steps.eq_push (h : s.Steps false t s')
    (hcontinues : t.kind.continuesStatement s.depth = true)
    (htrivia : s.buffer = [] → t.isTrivia = false) (hdepth : s.buffer = [] → s.depth = 0) :
    s' = s.push t := by
  cases h with
  | first => rfl
  | more => rfl
  | gap hbuffer hkind =>
    rcases hkind with hkind | hkind
    · simpa [Token.isTrivia, Token.Kind.isTrivia, hkind] using htrivia hbuffer
    · simp [Token.Kind.continuesStatement, hkind, hdepth hbuffer] at hcontinues
  | comment hbuffer hkind =>
    simpa [Token.isTrivia, Token.Kind.isTrivia, hkind] using htrivia hbuffer
  | semicolon _ hkind hzero => simp [Token.Kind.continuesStatement, hkind, hzero] at hcontinues
  | openBlock hkind => simp [Token.Kind.continuesStatement, hkind] at hcontinues
  | close _ hkind => simp [Token.Kind.continuesStatement, hkind] at hcontinues
  | stray hlenient => cases hlenient
  | endClose _ hkind => simp [Token.Kind.continuesStatement, hkind] at hcontinues
  | endStray hlenient => cases hlenient

/-- **One token** keeps what is collected in step with the tokens. -/
theorem Steps.at (hs : At ts s) (h : s.Steps false t s') : At (ts ++ [t]) s' := by
  by_cases hends : t.kind.continuesStatement s.depth = false
  · have hidle := h.idle hs.depth_eq_zero (.inl hends)
    exact hs.ended hends hidle.buffer hidle.depth
  · rw [Bool.not_eq_false] at hends
    by_cases htrivia : s.buffer = [] ∧ t.isTrivia = true
    · have hidle := h.idle hs.depth_eq_zero (.inr htrivia)
      obtain ⟨before, rfl, hbefore⟩ := hs.cut
      rw [htrivia.1, List.reverse_nil, List.append_nil]
      exact .of_between (.trivia hbefore htrivia.2) hidle.buffer hidle.depth
    · rw [not_and, Bool.not_eq_true] at htrivia
      rw [h.eq_push hends htrivia hs.depth_eq_zero]
      refine hs.push hends fun hbuffer => ?_
      rw [hs.depth_eq_zero hbuffer] at hends
      have hother := htrivia hbuffer
      refine Token.Kind.startsStatement_of_continuesStatement hends ?_ ?_ <;>
      · intro hkind
        simp [Token.isTrivia, Token.Kind.isTrivia, hkind] at hother

/-- **A run** collects the statement that the tokens have at their end. -/
theorem Runs.at (h : Runs false start ts s) : At ts s := by
  induction ts using List.reverseRecOn generalizing s with
  | nil =>
    obtain rfl := runs_nil.mp h
    exact .of_between .nil rfl rfl
  | append_singleton ts t ih =>
    obtain ⟨s₁, hrun, hstep⟩ := runs_snoc.mp h
    exact hstep.at (ih hrun)

/-- Where a statement can start nothing is collected. -/
theorem Runs.idle_of_between (hts : Between ts) (h : Runs false start ts s) : s.Idle := by
  induction hts generalizing s with
  | nil =>
    obtain rfl := runs_nil.mp h
    exact start_idle
  | trivia _ htrivia ih =>
    obtain ⟨s₁, hrun, hstep⟩ := runs_snoc.mp h
    exact hstep.idle (fun _ => (ih hrun).depth) (.inr ⟨(ih hrun).buffer, htrivia⟩)
  | ended _ hrun hends ih =>
    obtain ⟨s₁, hboth, hstep⟩ := runs_snoc.mp h
    obtain ⟨s₀, hbefore, hcollect⟩ := runs_append.mp hboth
    obtain rfl := hcollect.unique ((ih hbefore).runs_collecting hrun.starts hrun.depth)
    exact hstep.idle hboth.at.depth_eq_zero (.inl hends)

/-- **A statement of the tokens is what the parser has collected.** -/
theorem Runs.collected (hbefore : Between before) (hrun : IsRun run depth)
    (h : Runs false start (before ++ run) s) : s.buffer.reverse = run ∧ s.depth = depth := by
  obtain ⟨s₀, hfirst, hcollect⟩ := runs_append.mp h
  obtain rfl := hcollect.unique
    ((hfirst.idle_of_between hbefore).runs_collecting hrun.starts hrun.depth)
  simp [collecting]

/-! ### The blocks that are open -/

/-- **The places where the open blocks start**, the innermost first and the root last, and the
tokens up to here. -/
inductive Opened : List Token → List Position → Prop
  | root {ts : List Token} (p : Position) (hts : Balanced ts) : Opened ts [p]
  | block {before head inside : List Token} {brace : Token} {depth : Nat} {ps : List Position}
      (houter : Opened (before ++ head) ps) (hbefore : Between before) (hhead : IsRun head depth)
      (hkind : brace.kind = .braceOpen) (hinside : Balanced inside) :
      Opened (before ++ head ++ brace :: inside) ((head.head?.getD brace).start :: ps)

namespace Opened

variable {p : Position} {ps : List Position}

/-- Balanced tokens leave the same blocks open. -/
theorem append (h : Opened ts ps) {us : List Token} (hus : Balanced us) : Opened (ts ++ us) ps := by
  cases h with
  | root p hts => exact .root p (hts.append hus)
  | block houter hbefore hhead hkind hinside =>
    rw [List.append_assoc, List.cons_append]
    exact .block houter hbefore hhead hkind (hinside.append hus)

/-- A closing brace ends the innermost block. -/
theorem close {q : Position} (h : Opened ts (p :: q :: ps)) (hkind : t.kind = .braceClose) :
    Opened (ts ++ [t]) (q :: ps) := by
  cases h with
  | block houter hbefore hhead hopen hinside =>
    rw [List.append_assoc, List.cons_append]
    exact houter.append (.block hopen hinside hkind)

theorem ne_nil (h : Opened ts ps) : ps ≠ [] := by
  cases h <;> simp

/-- With only the root open the braces are balanced. -/
theorem balanced (h : Opened ts [p]) : Balanced ts := by
  cases h with
  | root _ hts => exact hts
  | block hnone => exact (hnone.ne_nil rfl).elim

/-- **The innermost block** starts at the last brace that is not closed, or at its head. -/
theorem exists_innermost {q : Position} (h : Opened ts (p :: q :: ps)) :
    ∃ before head inside brace depth, ts = before ++ head ++ brace :: inside ∧ Between before ∧
      IsRun head depth ∧ brace.kind = .braceOpen ∧ Balanced inside ∧
        p = (head.head?.getD brace).start := by
  cases h with
  | block _ hbefore hhead hkind hinside =>
    exact ⟨_, _, _, _, _, rfl, hbefore, hhead, hkind, hinside, rfl⟩

/-- The number of open blocks is the number of braces that are not closed. -/
theorem countOf_eq (h : Opened ts ps) :
    Token.countOf .braceOpen ts + 1 = Token.countOf .braceClose ts + ps.length := by
  induction h with
  | root p hts =>
    rw [hts.eq]
    rfl
  | block houter _ _ hkind hinside ih =>
    have heq := hinside.eq
    simp only [Token.countOf_append, Token.countOf_cons, hkind, reduceCtorEq, if_false, if_true,
      List.length_cons] at ih ⊢
    omega

end Opened

/-- Where the open blocks of a state start. -/
def starts (s : State) : List Position := (s.block :: s.outer).map Block.start

theorem starts_close (houter : s.outer ≠ []) (stop : Position) :
    s.starts = s.block.start :: (s.close stop).starts := by
  obtain ⟨parent, outer, hcons⟩ := List.exists_cons_of_ne_nil houter
  simp [starts, close_eq hcons, hcons]

/-- The end of a statement neither opens nor closes a block. -/
theorem Ends.starts_eq {semicolon? : Option Token} (h : s.Ends false semicolon? s') :
    s'.starts = s.starts := by
  cases h <;> rfl

theorem Opened.closed (h : Opened ts s.starts) (houter : s.outer ≠ []) (stop : Position)
    (hkind : t.kind = .braceClose) : Opened (ts ++ [t]) (s.close stop).starts := by
  rw [starts_close houter stop] at h
  exact Opened.close h hkind

/-- **One token** opens or closes the block that it does as a brace. -/
theorem Steps.opened (hs : At ts s) (hopened : Opened ts s.starts) (h : s.Steps false t s') :
    Opened (ts ++ [t]) s'.starts := by
  have hother (hkind : t.kind ≠ .braceOpen ∧ t.kind ≠ .braceClose) :
      Opened (ts ++ [t]) s.starts := hopened.append (.singleton hkind.1 hkind.2)
  cases h with
  | gap _ hkind => exact hother (by rcases hkind with hkind | hkind <;> simp [hkind])
  | comment _ hkind => exact hother (by simp [hkind])
  | openBlock hkind =>
    obtain ⟨before, rfl, hbefore⟩ := hs.cut
    exact .block hopened hbefore hs.run hkind .nil
  | close _ hkind houter => exact hopened.closed houter _ hkind
  | stray hlenient => cases hlenient
  | first _ hkind =>
    exact hother (by constructor <;> intro heq <;> simp [heq, Token.Kind.startsStatement] at hkind)
  | more _ hkind =>
    exact hother
      (by constructor <;> intro heq <;> simp [heq, Token.Kind.continuesStatement] at hkind)
  | semicolon _ hkind _ hends =>
    rw [hends.starts_eq]
    exact hother (by simp [hkind])
  | endClose _ hkind houter hends =>
    refine Opened.closed (by rwa [hends.starts_eq]) ?_ _ hkind
    rwa [hends.frame.2.2.1]
  | endStray hlenient => cases hlenient

/-- **A run** opens and closes the blocks that the braces do. -/
theorem Runs.opened (h : Runs false start ts s) : Opened ts s.starts := by
  induction ts using List.reverseRecOn generalizing s with
  | nil =>
    obtain rfl := runs_nil.mp h
    exact .root _ .nil
  | append_singleton ts t ih =>
    obtain ⟨s₁, hrun, hstep⟩ := runs_snoc.mp h
    exact hstep.opened hrun.at (ih hrun)

/-- The root alone is open if and only if braces are balanced in number. -/
theorem Runs.outer_eq_nil_iff (h : Runs false start ts s) :
    s.outer = [] ↔ Token.countOf .braceOpen ts ≤ Token.countOf .braceClose ts := by
  have hcount := h.opened.countOf_eq
  simp only [starts, List.map_cons, List.length_cons, List.length_map] at hcount
  rw [← List.length_eq_zero_iff]
  omega

theorem Runs.balanced (h : Runs false start ts s) (houter : s.outer = []) : Balanced ts := by
  have hopened := h.opened
  rw [starts, houter] at hopened
  exact hopened.balanced

theorem Runs.exists_innermost (h : Runs false start ts s) (houter : s.outer ≠ []) :
    ∃ before head inside brace depth, ts = before ++ head ++ brace :: inside ∧ Between before ∧
      IsRun head depth ∧ brace.kind = .braceOpen ∧ Balanced inside ∧
        s.block.start = (head.head?.getD brace).start := by
  obtain ⟨parent, outer, hcons⟩ := List.exists_cons_of_ne_nil houter
  have hopened := h.opened
  rw [starts, hcons] at hopened
  exact hopened.exists_innermost

/-! ### Where a strict parse fails -/

theorem closeBlock_eq_error_iff :
    s.closeBlock false t = .error e ↔ s.outer = [] ∧ e = .unexpectedCloseBrace t.start := by
  unfold closeBlock
  cases s.outer <;> simp [eq_comm]

theorem not_faulty_nil : ¬Faulty [] e := fun h => h.ne_nil rfl

/-- A strict parse ends a statement unless it is faulty. -/
theorem exists_ends_of_not_faulty (hs : At ts s) (hne : s.buffer ≠ [])
    (hfaulty : ¬∃ e, Faulty s.buffer.reverse e) (semicolon? : Option Token) :
    ∃ s', s.endStatement false semicolon? = .ok s' ∧ s.Ends false semicolon? s' := by
  cases hend : s.endStatement false semicolon? with
  | ok s' => exact ⟨s', rfl, (endStatement_eq_ok_iff hne).mp hend⟩
  | error e => exact (hfaulty ⟨e, (endStatement_eq_error_iff hs.run hne semicolon?).mp hend⟩).elim

/-- **A token that a strict parse refuses**: it ends a statement that declares nothing or, if all is
well with the statement, it is a closing brace with nothing to close. -/
theorem step_eq_error_iff (hs : At ts s) :
    s.step false t = .error e ↔
      (Terminates t s.depth ∧ Faulty s.buffer.reverse e) ∨
        ((¬∃ e', Faulty s.buffer.reverse e') ∧ t.kind = .braceClose ∧ s.outer = [] ∧
          e = .unexpectedCloseBrace t.start) := by
  by_cases hbuffer : s.buffer = []
  · have hnone : ¬∃ e', Faulty s.buffer.reverse e' := by
      rw [hbuffer]
      exact fun ⟨_, h⟩ => not_faulty_nil h
    have hclose := closeBlock_eq_error_iff (s := s) (t := t) (e := e)
    cases hkind : t.kind <;> simp_all [step, Terminates, not_faulty_nil]
  · by_cases hclose : t.kind = .braceClose
    · have hstep : s.step false t = (s.endStatement false none).bind (·.closeBlock false t) := by
        simp [step, hbuffer, hclose, bind]
      rw [hstep]
      by_cases hfaulty : ∃ e', Faulty s.buffer.reverse e'
      · obtain ⟨e', he'⟩ := hfaulty
        have hend := (endStatement_eq_error_iff hs.run hbuffer none).mpr he'
        have herror := endStatement_eq_error_iff (e := e) hs.run hbuffer none
        have hsome : ∃ e', Faulty s.buffer.reverse e' := ⟨e', he'⟩
        rw [hend] at herror ⊢
        simpa [Except.bind, Terminates, hclose, hsome] using herror
      · obtain ⟨s', hend, hends⟩ := exists_ends_of_not_faulty hs hbuffer hfaulty none
        have hnone : ¬Faulty s.buffer.reverse e := fun h => hfaulty ⟨e, h⟩
        rw [hend]
        simpa [Except.bind, hclose, hfaulty, hnone, hends.frame.2.2.1] using
          closeBlock_eq_error_iff (s := s') (t := t) (e := e)
    · have herror := endStatement_eq_error_iff (e := e) hs.run hbuffer (some t)
      cases hkind : t.kind with
      | braceClose => exact (hclose hkind).elim
      | semicolon =>
        by_cases hdepth : s.depth = 0 <;> simp [step, hbuffer, hkind, hdepth, Terminates, herror]
      | _ => simp [step, hbuffer, hkind, Terminates]

/-- A run fails at one of its tokens. -/
theorem foldlM_eq_error_iff :
    ts.foldlM (step false) s = .error e ↔
      ∃ before t after s', ts = before ++ t :: after ∧ Runs false s before s' ∧
        s'.step false t = .error e := by
  induction ts generalizing s with
  | nil => simp [pure, Except.pure]
  | cons t ts ih =>
    rw [List.foldlM_cons]
    cases hstep : s.step false t with
    | error e' =>
      constructor
      · intro h
        cases h
        exact ⟨[], t, ts, s, rfl, runs_nil.mpr rfl, hstep⟩
      · rintro ⟨before, u, after, s', hcut, hrun, herror⟩
        cases before with
        | nil =>
          cases hcut
          obtain rfl := runs_nil.mp hrun
          exact hstep.symm.trans herror
        | cons v before =>
          cases hcut
          obtain ⟨s₁, hfirst, -⟩ := runs_cons.mp hrun
          rw [step_eq_ok_iff.mpr hfirst] at hstep
          cases hstep
    | ok s₁ =>
      have hfirst := step_eq_ok_iff.mp hstep
      refine ih.trans ⟨?_, ?_⟩
      · rintro ⟨before, u, after, s', rfl, hrun, herror⟩
        exact ⟨t :: before, u, after, s', rfl, runs_cons.mpr ⟨s₁, hfirst, hrun⟩, herror⟩
      · rintro ⟨before, u, after, s', hcut, hrun, herror⟩
        cases before with
        | nil =>
          cases hcut
          obtain rfl := runs_nil.mp hrun
          rw [hstep] at herror
          cases herror
        | cons v before =>
          cases hcut
          obtain ⟨s₂, hsecond, hrest⟩ := runs_cons.mp hrun
          rw [step_eq_ok_iff.mpr hsecond] at hstep
          cases hstep
          exact ⟨before, u, after, s', rfl, hrest, herror⟩

/-- **The end of the source is refused** if it ends a statement that declares nothing or, if all is
well with the statement, if a block is open. -/
theorem finish_eq_error_iff (hs : At ts s) {source : Source} :
    s.finish source false = .error e ↔
      Faulty s.buffer.reverse e ∨
        ((¬∃ e', Faulty s.buffer.reverse e') ∧ s.outer ≠ [] ∧
          e = .unclosedBlock s.block.start) := by
  rw [finish_eq_bind]
  by_cases hbuffer : s.buffer = []
  · have hnone : ¬∃ e', Faulty s.buffer.reverse e' := by
      rw [hbuffer]
      exact fun ⟨_, h⟩ => not_faulty_nil h
    have hempty : ¬Faulty s.buffer.reverse e := fun h => hnone ⟨e, h⟩
    rw [if_pos (by simpa using hbuffer)]
    cases houter : s.outer <;> simp [hempty, hnone, houter, Except.bind, eq_comm]
  · rw [if_neg (by simpa using hbuffer)]
    by_cases hfaulty : ∃ e', Faulty s.buffer.reverse e'
    · obtain ⟨e', he'⟩ := hfaulty
      have hend := (endStatement_eq_error_iff hs.run hbuffer none).mpr he'
      have herror := endStatement_eq_error_iff (e := e) hs.run hbuffer none
      have hsome : ∃ e', Faulty s.buffer.reverse e' := ⟨e', he'⟩
      rw [hend] at herror ⊢
      simpa [Except.bind, hsome] using herror
    · obtain ⟨s', hend, hends⟩ := exists_ends_of_not_faulty hs hbuffer hfaulty none
      have hnone : ¬Faulty s.buffer.reverse e := fun h => hfaulty ⟨e, h⟩
      have hstart : s'.block.start = s.block.start := by
        simpa [starts] using congrArg List.head? hends.starts_eq
      rw [hend]
      cases houter : s.outer <;>
        simp [Except.bind, hfaulty, hnone, hends.frame.2.2.1, houter, hstart, eq_comm]

end Parse.State

open Parse (State)

/-- **How a strict parse fails**: at a token, for want of a token, or at the end of the source. -/
theorem parse_eq_error_iff {source : Source} {e : ParseError} :
    parse source false = .error e ↔
      (∃ before t after s, (tokenize source false).tokens = before ++ t :: after ∧
        State.Runs false .start before s ∧ s.step false t = .error e) ∨
      ∃ s, State.Runs false .start (tokenize source false).tokens s ∧
        match (tokenize source false).failure with
        | some e' => e = .lexical e'
        | none => s.finish source false = .error e := by
  rw [← State.foldlM_eq_error_iff]
  unfold parse State.Runs
  cases hrun : (tokenize source false).tokens.foldlM (State.step false) .start with
  | error e' => simp [bind, Except.bind, hrun]
  | ok s =>
    cases hfailure : (tokenize source false).failure <;>
      simp [bind, Except.bind, throw, throwThe, MonadExceptOf.throw, hfailure, hrun, eq_comm]

/-- A statement fails in one way. -/
theorem Statement.Faulty.unique {run : List Token} {e e' : ParseError} (h : Faulty run e)
    (h' : Faulty run e') : e = e' := by
  cases h with
  | missingColon _ hnone =>
    cases h' with
    | missingColon => rfl
    | missingProperty hzero => simp [hnone] at hzero
  | missingProperty hzero =>
    cases h' with
    | missingColon _ hnone => simp [hnone] at hzero
    | missingProperty => rfl

namespace Violates

variable {lexed : Lexed} {before after : List Token} {t : Token} {s : State} {m : Nat}
  {e : ParseError}

/-- **A violation shows at the next token or behind it** if a strict parse has come so far. -/
theorem le (h : Violates lexed m e) (htokens : lexed.tokens = before ++ after)
    (hrun : State.Runs false .start before s) : 2 * before.length ≤ m := by
  have hlength : before.length ≤ lexed.tokens.length := by simp [htokens]
  -- Had the violation shown earlier, the parse would not have passed the token where it did.
  have hpassed {us vs : List Token} {u : Token} (hcut : lexed.tokens = us ++ u :: vs)
      (hshort : us.length < before.length) :
      ∃ s₁ s₂, State.Runs false .start us s₁ ∧ s₁.step false u = .ok s₂ := by
    obtain ⟨ws, rfl⟩ : ∃ ws, before = us ++ u :: ws := by
      rcases List.append_eq_append_iff.mp (htokens.symm.trans hcut) with
        ⟨xs, rfl, -⟩ | ⟨xs, rfl, hxs⟩
      · simp at hshort
      · cases xs with
        | nil => simp at hshort
        | cons x xs =>
          cases hxs
          exact ⟨xs, rfl⟩
    obtain ⟨s₁, hfirst, hrest⟩ := State.runs_append.mp hrun
    obtain ⟨s₂, hstep, -⟩ := State.runs_cons.mp hrest
    exact ⟨s₁, s₂, hfirst, State.step_eq_ok_iff.mpr hstep⟩
  cases h with
  | statement hcut hbefore hisRun hends hfaulty =>
    by_contra hlt
    obtain ⟨s₁, s₂, hfirst, hstep⟩ := hpassed hcut (by omega)
    obtain ⟨hbuffer, hdepth⟩ := hfirst.collected hbefore hisRun
    have herror := (State.step_eq_error_iff hfirst.at).mpr
      (.inl ⟨hdepth.symm ▸ hends, hbuffer.symm ▸ hfaulty⟩)
    rw [hstep] at herror
    cases herror
  | brace hcut hkind hclosed =>
    by_contra hlt
    obtain ⟨s₁, s₂, hfirst, hstep⟩ := hpassed hcut (by omega)
    have houter := hfirst.outer_eq_nil_iff.mpr hclosed
    by_cases hfaulty : ∃ e', Faulty s₁.buffer.reverse e'
    · obtain ⟨e', he'⟩ := hfaulty
      have herror := (State.step_eq_error_iff hfirst.at).mpr (.inl ⟨.inr hkind, he'⟩)
      rw [hstep] at herror
      cases herror
    · have herror := (State.step_eq_error_iff hfirst.at).mpr
        (.inr ⟨hfaulty, hkind, houter, rfl⟩)
      rw [hstep] at herror
      cases herror
  | lexical => omega
  | last => omega
  | block => omega

/-- **The violations that show at a token**: the statement that it ends fails at the first moment,
and the brace that it is at the second. -/
theorem at_token (h : Violates lexed m e) (htokens : lexed.tokens = before ++ t :: after)
    (hrun : State.Runs false .start before s) :
    (m = 2 * before.length ∧ Faulty s.buffer.reverse e) ∨
      (m = 2 * before.length + 1 ∧ e = .unexpectedCloseBrace t.start) ∨
        2 * before.length + 1 < m := by
  have hle := h.le htokens hrun
  have hlength : before.length < lexed.tokens.length := by simp [htokens]
  have hsame {us vs : List Token} {u : Token} (hcut : lexed.tokens = us ++ u :: vs)
      (heq : us.length = before.length) : us = before ∧ u = t := by
    obtain ⟨rfl, htail⟩ := List.append_inj (hcut.symm.trans htokens) heq
    exact ⟨rfl, (List.cons_eq_cons.mp htail).1⟩
  cases h with
  | @statement us run vs u depth e hcut hbefore hisRun hends hfaulty =>
    by_cases heq : (us ++ run).length = before.length
    · obtain ⟨rfl, rfl⟩ := hsame hcut heq
      rw [(hrun.collected hbefore hisRun).1]
      exact .inl ⟨rfl, hfaulty⟩
    · omega
  | @brace us vs u hcut hkind hclosed =>
    by_cases heq : us.length = before.length
    · obtain ⟨rfl, rfl⟩ := hsame hcut heq
      exact .inr (.inl ⟨rfl, rfl⟩)
    · omega
  | lexical => omega
  | last => omega
  | block => omega

/-- **The violations that show at the end of the source**: there is no token although there is text,
or the last statement fails, or a block is open. -/
theorem at_end (h : Violates lexed m e) (hrun : State.Runs false .start lexed.tokens s) :
    (m = 2 * lexed.tokens.length ∧
      ((∃ e', lexed.failure = some e' ∧ e = .lexical e') ∨
        lexed.failure = none ∧ Faulty s.buffer.reverse e)) ∨
      (m = 2 * lexed.tokens.length + 1 ∧ s.outer ≠ [] ∧ e = .unclosedBlock s.block.start) := by
  have hle := h.le (List.append_nil _).symm hrun
  cases h with
  | @statement us run vs u _ _ hcut =>
    have hlength := congrArg List.length hcut
    simp only [List.length_append, List.length_cons] at hlength hle
    omega
  | @brace us vs u hcut =>
    have hlength := congrArg List.length hcut
    simp only [List.length_append, List.length_cons] at hlength
    omega
  | lexical hfailure => exact .inl ⟨rfl, .inl ⟨_, hfailure, rfl⟩⟩
  | last hfailure hcut hbefore hisRun hfaulty =>
    rw [hcut] at hrun
    rw [(hrun.collected hbefore hisRun).1]
    exact .inl ⟨rfl, .inr ⟨hfailure, hfaulty⟩⟩
  | @block us head inside brace depth hcut hbefore hhead hkind hinside =>
    have houter : s.outer ≠ [] := fun hnil =>
      (hcut ▸ hrun.balanced hnil).not_balanced_of_braceOpen hkind hinside
    obtain ⟨us', head', inside', brace', depth', hcut', hbefore', hhead', hkind', hinside',
      hstart⟩ :=
      hrun.exists_innermost houter
    obtain ⟨hsame, rfl⟩ := hinside.unique (hcut.symm.trans hcut') hinside' hkind hkind'
    rw [hcut] at hrun
    obtain ⟨s₁, hfirst, -⟩ := State.runs_append.mp hrun
    have hcollected := (hfirst.collected hbefore hhead).1
    rw [hsame] at hfirst
    obtain rfl := hcollected.symm.trans (hfirst.collected hbefore' hhead').1
    exact .inr ⟨rfl, houter, by rw [hstart]⟩

end Violates

/-- A strict parse that succeeds has met no violation. -/
theorem not_violates_of_parse {source : Source} {tree : Tree Node}
    (h : parse source false = .ok tree) {m : Nat} {e : ParseError} :
    ¬Violates (tokenize source false) m e := by
  intro hviolates
  obtain ⟨hfailure, s, hrun, hfinish⟩ := parse_eq_ok_iff.mp h
  have hfaultless (e : ParseError) : ¬Faulty s.buffer.reverse e := by
    intro hfaulty
    have herror : s.finish source false = .error e :=
      (State.finish_eq_error_iff hrun.at).mpr (.inl hfaulty)
    rw [hfinish] at herror
    cases herror
  rcases hviolates.at_end hrun with ⟨-, ⟨e', he', -⟩ | ⟨-, hfaulty⟩⟩ | ⟨-, houter, -⟩
  · simp [hfailure] at he'
  · exact hfaultless e hfaulty
  · have herror : s.finish source false = .error (.unclosedBlock s.block.start) :=
      (State.finish_eq_error_iff hrun.at).mpr
        (.inr ⟨fun ⟨e, he⟩ => hfaultless e he, houter, rfl⟩)
    rw [hfinish] at herror
    cases herror

/-- **A strict parse that fails reports a violation**, and all others show later. -/
theorem exists_violates_of_parse {source : Source} {e : ParseError}
    (h : parse source false = .error e) :
    ∃ n, Violates (tokenize source false) n e ∧
      ∀ m e', Violates (tokenize source false) m e' → n < m ∨ n = m ∧ e = e' := by
  rcases parse_eq_error_iff.mp h with
    ⟨before, t, after, s, htokens, hrun, hstep⟩ | ⟨s, hrun, hend⟩
  · rcases (State.step_eq_error_iff hrun.at).mp hstep with
      ⟨hends, hfaulty⟩ | ⟨hfaultless, hkind, houter, rfl⟩
    · obtain ⟨us, rfl, hus⟩ := hrun.at.cut
      refine ⟨_, .statement htokens hus hrun.at.run hends hfaulty, fun m e' hother => ?_⟩
      rcases hother.at_token htokens hrun with ⟨hm, hfaulty'⟩ | ⟨hm, -⟩ | hm
      · exact .inr ⟨hm.symm, hfaulty.unique hfaulty'⟩
      · omega
      · omega
    · refine ⟨_, .brace htokens hkind (hrun.outer_eq_nil_iff.mp houter), fun m e' hother => ?_⟩
      rcases hother.at_token htokens hrun with ⟨-, hfaulty'⟩ | ⟨hm, he'⟩ | hm
      · exact (hfaultless ⟨e', hfaulty'⟩).elim
      · exact .inr ⟨hm.symm, he'.symm⟩
      · omega
  · cases hfailure : (tokenize source false).failure with
    | some failure =>
      rw [hfailure] at hend
      obtain rfl : e = .lexical failure := hend
      refine ⟨_, .lexical hfailure, fun m e' hother => ?_⟩
      rcases hother.at_end hrun with ⟨hm, ⟨f, hf, rfl⟩ | ⟨hnone, -⟩⟩ | ⟨hm, -⟩
      · rw [hfailure] at hf
        cases hf
        exact .inr ⟨hm.symm, rfl⟩
      · simp [hfailure] at hnone
      · omega
    | none =>
      rw [hfailure] at hend
      rcases (State.finish_eq_error_iff hrun.at).mp hend with
        hfaulty | ⟨hfaultless, houter, rfl⟩
      · obtain ⟨us, hcut, hus⟩ := hrun.at.cut
        refine ⟨_, .last hfailure hcut hus hrun.at.run hfaulty, fun m e' hother => ?_⟩
        rcases hother.at_end hrun with ⟨hm, ⟨f, hf, -⟩ | ⟨-, hfaulty'⟩⟩ | ⟨hm, -⟩
        · simp [hfailure] at hf
        · exact .inr ⟨hm.symm, hfaulty.unique hfaulty'⟩
        · omega
      · obtain ⟨us, head, inside, brace, depth, hcut, hus, hhead, hkind, hinside, hstart⟩ :=
          hrun.exists_innermost houter
        rw [hstart]
        refine ⟨_, .block hcut hus hhead hkind hinside, fun m e' hother => ?_⟩
        rcases hother.at_end hrun with ⟨-, ⟨f, hf, -⟩ | ⟨-, hfaulty'⟩⟩ | ⟨hm, -, he'⟩
        · simp [hfailure] at hf
        · exact (hfaultless ⟨e', hfaulty'⟩).elim
        · exact .inr ⟨hm.symm, by rw [he', hstart]⟩

/-- What a strict parse accepts is grammatical. -/
theorem grammatical_of_parse {source : Source} {tree : Tree Node}
    (h : parse source false = .ok tree) : Grammatical (tokenize source false) := by
  obtain ⟨hfailure, s, hrun, hfinish⟩ := parse_eq_ok_iff.mp h
  obtain ⟨s', hlast, hclosed, -⟩ := State.finish_eq_ok_iff.mp hfinish
  have houter : s.outer = [] := by
    have hs' : s'.outer = [] := by simpa using hclosed
    cases hlast with
    | nothing => exact hs'
    | statement _ hends => rwa [← hends.frame.2.2.1]
  refine ⟨hfailure, hrun.balanced houter, ?_⟩
  intro before run after depth htokens hbefore hisRun hne hends
  by_contra hdeclares
  obtain ⟨e, hfaulty⟩ :=
    not_not.mp (mt (Statement.declares_iff_not_faulty hne).mpr hdeclares)
  cases after with
  | nil =>
    rw [List.append_nil] at htokens
    exact not_violates_of_parse h (.last hfailure htokens hbefore hisRun hfaulty)
  | cons t after =>
    rw [← List.append_assoc] at htokens
    exact not_violates_of_parse h (.statement htokens hbefore hisRun (hends t rfl) hfaulty)

/-! ### Main statement -/

/-- **A strict parse accepts what is grammatical, and otherwise reports the violation that shows
first.** -/
theorem exists_parse_iff_and_parse_eq_error_iff (source : Source) :
    ((∃ tree, parse source false = .ok tree) ↔ Grammatical (tokenize source false)) ∧
      ∀ e, parse source false = .error e ↔
        ∃ n, Violates (tokenize source false) n e ∧
          ∀ m e', Violates (tokenize source false) m e' → n < m ∨ n = m ∧ e = e' := by
  constructor
  · constructor
    · rintro ⟨tree, htree⟩
      exact grammatical_of_parse htree
    · intro hgrammatical
      cases hparse : parse source false with
      | ok tree => exact ⟨tree, rfl⟩
      | error e =>
        obtain ⟨n, hn, -⟩ := exists_violates_of_parse hparse
        exact (hgrammatical.not_violates hn).elim
  · intro e
    constructor
    · exact exists_violates_of_parse
    · rintro ⟨n, hn, hfirst⟩
      cases hparse : parse source false with
      | ok tree => exact (not_violates_of_parse hparse hn).elim
      | error e₀ =>
        obtain ⟨n₀, hn₀, hfirst₀⟩ := exists_violates_of_parse hparse
        -- Both show first, so neither shows before the other.
        rcases hfirst₀ n e hn with hlt | ⟨-, rfl⟩
        · rcases hfirst n₀ e₀ hn₀ with hlt' | ⟨rfl, -⟩
          · omega
          · omega
        · rfl

end LosslessCss
