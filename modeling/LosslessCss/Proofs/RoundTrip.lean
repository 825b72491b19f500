import LosslessCss.Proofs.Lexing
import LosslessCss.Proofs.Replay

/-!
# Printing gives the source back

The faithful layout writes a parsed sheet as it was read, byte for byte.  For a strict parse this
holds without a condition (`print_parse`).  A lenient parse accepts every source
(`exists_parse_lenient_print`): what it does not understand it keeps as text, and at the end it
closes the blocks that are still open, so printing adds one closing brace for each of them.

The one thing that a lenient parse cannot keep is a closing brace that ends a statement although no
block is open.  The statement becomes a node without a semicolon, and printing gives it one as soon
as another statement follows: `a:b}c:d` is printed as `a:b;}c:d`.

## Main Definitions

* `Token.openBlocks` : how many blocks a run of tokens leaves open
* `Parse.NoStatementAtStrayBrace` : a closing brace without a block does not end a statement; this
  can be decided

## Main Statements

* `print_parse`, `exists_parse_lenient_print`
-/

namespace LosslessCss

/-! ### Blocks that are still open -/

/-- The number of open blocks behind one more token. -/
def Token.openBehind (n : Nat) (t : Token) : Nat :=
  match t.kind with
  | .braceOpen => n + 1
  | .braceClose => n - 1
  | _ => n

/-- **How many blocks a run of tokens leaves open**; a closing brace without a block closes
nothing. -/
def Token.openBlocks (ts : List Token) : Nat := ts.foldl openBehind 0

namespace Parse

namespace State

variable {lenient : Bool} {s s' : State} {ts : List Token}

/-- A token opens or closes a block of the parse as it does for the count. -/
theorem Steps.length_outer {t : Token} (h : s.Steps lenient t s') :
    s'.outer.length = Token.openBehind s.outer.length t := by
  have hclose {s : State} (houter : s.outer ≠ []) :
      (s.close t.stop).outer.length = s.outer.length - 1 := by
    obtain ⟨parent, outer, hcons⟩ := List.exists_cons_of_ne_nil houter
    simp [close_eq hcons, hcons]
  have hother (hopen : t.kind ≠ .braceOpen) (hclose : t.kind ≠ .braceClose) (n : Nat) :
      Token.openBehind n t = n := by
    unfold Token.openBehind
    split <;> simp_all
  cases h with
  | gap _ hkind =>
    rw [hother] <;> rcases hkind with hkind | hkind <;> simp [hkind, keep]
  | comment _ hkind => rw [hother] <;> simp [hkind, State.comment, attach]
  | openBlock hkind => simp [Token.openBehind, hkind, State.openBlock]
  | close _ hkind houter => rw [hclose houter, Token.openBehind, hkind]
  | stray _ _ hkind houter => simp [Token.openBehind, hkind, keep, houter]
  | first _ hkind =>
    rw [hother (by rintro hk; simp [hk, Token.Kind.startsStatement] at hkind)
      (by rintro hk; simp [hk, Token.Kind.startsStatement] at hkind)]
    rfl
  | more _ hkind =>
    rw [hother (by rintro hk; simp [hk, Token.Kind.continuesStatement] at hkind)
      (by rintro hk; simp [hk, Token.Kind.continuesStatement] at hkind)]
    rfl
  | semicolon _ hkind _ hends => rw [hother] <;> simp [hkind, hends.frame.2.2.1]
  | endClose _ hkind houter hends =>
    rw [hclose (by rwa [hends.frame.2.2.1]), hends.frame.2.2.1, Token.openBehind, hkind]
  | endStray _ _ hkind houter hends =>
    simp [Token.openBehind, hkind, keep, hends.frame.2.2.1, houter]

/-- A run opens and closes blocks as the count says. -/
theorem Runs.length_outer (h : Runs lenient s ts s') :
    s'.outer.length = ts.foldl Token.openBehind s.outer.length := by
  induction ts generalizing s with
  | nil => rw [runs_nil.mp h, List.foldl_nil]
  | cons t ts ih =>
    obtain ⟨s₁, hstep, hrest⟩ := runs_cons.mp h
    rw [List.foldl_cons, ← hstep.length_outer, ih hrest]

/-- A parse has as many blocks open as its tokens leave open. -/
theorem length_outer_of_runs_start (h : Runs lenient .start ts s) :
    s.outer.length = Token.openBlocks ts :=
  h.length_outer

/-- **Closing all blocks adds a brace for each.** -/
theorem closeAll_text (hs : s.Shaped) (hbuffer : s.buffer = []) (stop : Position) :
    (s.closeAll stop).text =
        s.text ++ String.ofList (List.replicate s.outer.length '\x7d') ∧
      (s.closeAll stop).Shaped ∧ (s.closeAll stop).outer = [] ∧
      (s.closeAll stop).buffer = [] := by
  have hkeeps := closeAll_keeps stop
    (P := fun s' => s'.text ++ String.ofList (List.replicate s'.outer.length '\x7d') =
      s.text ++ String.ofList (List.replicate s.outer.length '\x7d') ∧ s'.Shaped ∧ s'.buffer = [])
    ⟨rfl, hs, hbuffer⟩ ?_
  · obtain ⟨⟨htext, hshaped, hnil⟩, houter⟩ := hkeeps
    rw [houter] at htext
    exact ⟨by simpa using htext, hshaped, houter, hnil⟩
  · rintro s' ⟨htext, hshaped, hnil⟩ houter
    obtain ⟨parent, outer, hcons⟩ := List.exists_cons_of_ne_nil houter
    refine ⟨?_, (close_sound hshaped houter stop).toShaped, by rw [close_eq hcons]; exact hnil⟩
    rw [← htext, close_text hshaped hnil houter, close_eq hcons, hcons, List.length_cons,
      List.replicate_succ, String.ofList_cons, String.append_assoc]
    rfl

/-! ### Lenient parses -/

/-- A lenient parse goes on with every token. -/
theorem exists_steps_of_lenient (s : State) (t : Token) : ∃ s', s.Steps true t s' := by
  by_cases hbuffer : s.buffer = []
  · by_cases hstarts : t.kind.startsStatement = true
    · exact ⟨_, .first hbuffer hstarts⟩
    · cases hkind : t.kind <;> simp only [hkind, Token.Kind.startsStatement, not_true] at hstarts
      case space => exact ⟨_, .gap hbuffer (.inl hkind)⟩
      case semicolon => exact ⟨_, .gap hbuffer (.inr hkind)⟩
      case comment => exact ⟨_, .comment hbuffer hkind⟩
      case braceOpen => exact ⟨_, .openBlock hkind⟩
      case braceClose =>
        by_cases houter : s.outer = []
        · exact ⟨_, .stray rfl hbuffer hkind houter⟩
        · exact ⟨_, .close hbuffer hkind houter⟩
  · by_cases hcontinues : t.kind.continuesStatement s.depth = true
    · exact ⟨_, .more hbuffer hcontinues⟩
    · cases hkind : t.kind <;>
        simp only [hkind, Token.Kind.continuesStatement, not_true] at hcontinues
      case semicolon =>
        obtain ⟨s', hends⟩ := exists_ends_of_lenient (some t) hbuffer
        exact ⟨s', .semicolon hbuffer hkind (by simpa using hcontinues) hends⟩
      case braceOpen => exact ⟨_, .openBlock hkind⟩
      case braceClose =>
        obtain ⟨s', hends⟩ := exists_ends_of_lenient none hbuffer
        by_cases houter : s.outer = []
        · exact ⟨_, .endStray rfl hbuffer hkind houter hends⟩
        · exact ⟨_, .endClose hbuffer hkind houter hends⟩

/-- A lenient parse reads all tokens. -/
theorem exists_runs_of_lenient (s : State) (ts : List Token) : ∃ s', Runs true s ts s' := by
  induction ts generalizing s with
  | nil => exact ⟨s, runs_nil.mpr rfl⟩
  | cons t ts ih =>
    obtain ⟨s₁, hstep⟩ := exists_steps_of_lenient s t
    obtain ⟨s', hrest⟩ := ih s₁
    exact ⟨s', runs_cons.mpr ⟨s₁, hstep, hrest⟩⟩

/-- A lenient parse comes to an end. -/
theorem exists_finish_of_lenient (source : Source) (s : State) :
    ∃ t, s.finish source true = .ok t := by
  by_cases hbuffer : s.buffer = []
  · exact ⟨_, finish_eq_ok_iff.mpr ⟨s, .nothing hbuffer, .inr rfl, rfl⟩⟩
  · obtain ⟨s', hends⟩ := exists_ends_of_lenient none hbuffer
    exact ⟨_, finish_eq_ok_iff.mpr ⟨s', .statement hbuffer hends, .inr rfl, rfl⟩⟩

/-! ### The end of a parse -/

/-- The faithful layout of the finished tree is the text that the parse stands for. -/
theorem print_tree (source : Source) (hs : s.Shaped) (houter : s.outer = [])
    (hbuffer : s.buffer = []) : (s.tree source).print (.faithful id) = s.text := by
  have hroot : s.block.node = { content := .root } := by
    simpa [houter, Nested] using hs.nested
  have hreplay := Forest.print_faithful_eq_replay (hs.recorded s.block List.mem_cons_self)
    s.semicolon true 0
  have hopening : s.block.node.opening true = "" := by
    simp [hroot, Node.opening, Layout.faithfulHead, Content.opensBlock]
  simp only [Tree.print, tree, ended, text, houter, hbuffer, outerText, Block.text, hopening,
    List.reverse_nil, Token.concat_nil, String.append_empty, String.empty_append, ← hreplay]
  rfl

/-- What the end of the source finds collected is added to nothing: it has its text already. -/
theorem EndsLast.text (hs : s.Sound) (h : s.EndsLast lenient s') :
    s'.text = s.text ∧ s'.Shaped ∧ s'.buffer = [] ∧ s'.outer = s.outer := by
  cases h with
  | nothing hbuffer => exact ⟨rfl, hs.toShaped, hbuffer, rfl⟩
  | statement hbuffer hends =>
    exact ⟨by simpa using hends.text hs (by simp), hends.shaped hs, hends.frame.1,
      hends.frame.2.2.1⟩

/-- **The finished tree is written as the text of the state**, with a closing brace for each block
that is still open. -/
theorem print_of_finish {source : Source} {t : Tree Node} (hs : s.Sound)
    (h : s.finish source lenient = .ok t) :
    t.print (.faithful id) =
      s.text ++ String.ofList (List.replicate s.outer.length '\x7d') := by
  obtain ⟨s₁, hlast, -, rfl⟩ := finish_eq_ok_iff.mp h
  obtain ⟨htext, hshaped, hbuffer, houter⟩ := hlast.text hs
  obtain ⟨hall, hshaped', houter', hbuffer'⟩ :=
    closeAll_text hshaped hbuffer source.endPosition
  rw [print_tree source hshaped' houter' hbuffer', hall, htext, houter]

end State

/-- **A closing brace that finds no block open finds no statement either.** -/
def NoStatementAtStrayBrace (tokens : List Token) : Prop :=
  ∀ before t after s, tokens = before ++ t :: after → t.kind = .braceClose →
    Token.openBlocks before = 0 → State.Runs true .start before s → s.buffer = []

/-- The condition place by place: the parse of the tokens in front has collected nothing. -/
theorem noStatementAtStrayBrace_iff {tokens : List Token} :
    NoStatementAtStrayBrace tokens ↔
      ∀ i, (h : i < tokens.length) → tokens[i].kind = .braceClose →
        Token.openBlocks (tokens.take i) = 0 →
          (((tokens.take i).foldlM (State.step true) .start).toOption.all
            (·.buffer.isEmpty)) = true := by
  constructor
  · intro h i hi hkind hopen
    cases hrun : (tokens.take i).foldlM (State.step true) .start with
    | error e => rfl
    | ok s =>
      have hcut : tokens = tokens.take i ++ tokens[i] :: tokens.drop (i + 1) := by simp
      simpa [Except.toOption] using h _ _ _ s hcut hkind hopen hrun
  · intro h before t after s hcut hkind hopen hrun
    subst hcut
    have hplace := h before.length (by simp) (by simpa using hkind) (by simpa using hopen)
    rw [List.take_left] at hplace
    simpa [show before.foldlM (State.step true) .start = .ok s from hrun, Except.toOption]
      using hplace

instance (tokens : List Token) : Decidable (NoStatementAtStrayBrace tokens) :=
  decidable_of_iff _ noStatementAtStrayBrace_iff.symm

end Parse

/-- The tokens of a source that can be read to the end are its text. -/
theorem tokenize_covers {source : Source} {lenient : Bool}
    (h : (tokenize source lenient).failure = none) :
    Token.concat (tokenize source lenient).tokens = source.text ∧
      ∀ t ∈ (tokenize source lenient).tokens, t.kind.Spells t.text.toList := by
  obtain ⟨hconcat, hspells⟩ := (Reader.ofSource_fresh source lenient).drain_covers h
  refine ⟨?_, hspells⟩
  rw [← String.toList_inj, Token.toList_concat]
  exact hconcat

/-- Without options the layout is the faithful one. -/
theorem Style.layout_default : ({} : Style).layout = .faithful id := rfl

/-- A result that is there can be named. -/
theorem exists_ok_of_isOk {ε α : Type} {result : Except ε α} (h : result.isOk = true) :
    ∃ a, result = .ok a := by
  cases result with
  | error e => cases h
  | ok a => exact ⟨a, rfl⟩

/-- A result with a property can be named. -/
theorem exists_ok_of_any {ε α : Type} {result : Except ε α} {p : α → Bool}
    (h : result.toOption.any p = true) : ∃ a, result = .ok a ∧ p a = true := by
  cases result with
  | error e => cases h
  | ok a => exact ⟨a, rfl, h⟩

/-- The faithful layout prints a sheet that was read as its source. -/
theorem Tree.print_faithful_of_parse {source : Source} {t : Tree Node}
    (h : parse source false = .ok t) : t.print (.faithful id) = source.text := by
  obtain ⟨hfailure, s, hrun, hfinish⟩ := parse_eq_ok_iff.mp h
  obtain ⟨hconcat, hspells⟩ := tokenize_covers hfailure
  obtain ⟨htext, hs⟩ := Parse.State.Runs.text Parse.State.start_sound hspells (by simp) hrun
  obtain ⟨s₁, hlast, hclosed, -⟩ := Parse.State.finish_eq_ok_iff.mp hfinish
  have houter : s.outer = [] := by
    rw [← (hlast.text hs).2.2.2]
    simpa using hclosed
  rw [Parse.State.print_of_finish hs hfinish, htext, hconcat, houter]
  simp

/-! ### Main statements -/

/-- **Lossless round trip.**  A source that a strict parse accepts is printed byte for byte as it
was written. -/
theorem print_parse {source : Source} {t : Tree Node} (h : parse source false = .ok t) :
    t.print ({} : Style).layout = source.text := by
  rw [Style.layout_default]
  exact Tree.print_faithful_of_parse h

/-- A sheet with every kind of gap, and with a last line that ends in the middle of a value. -/
def gappySheet : Source where
  text := "/* */;@media ( x )\x7b a , b \x7b c : d ! IMPORTANT ;; \x7d \x7d\n" ++
    "@x url(a;b) ; e:/**/(f"

theorem print_parse_gappySheet :
    ∃ t, parse gappySheet false = .ok t ∧ t.print ({} : Style).layout = gappySheet.text := by
  obtain ⟨t, ht⟩ := exists_ok_of_isOk (by decide +kernel : (parse gappySheet false).isOk = true)
  exact ⟨t, ht, print_parse ht⟩

/-- **A lenient parse accepts every source and loses nothing.**  Printing its tree gives the source
back, with a closing brace for each block that the source leaves open, unless a closing brace ended
a statement outside all blocks. -/
theorem exists_parse_lenient_print (source : Source) :
    ∃ t, parse source true = .ok t ∧
      (Parse.NoStatementAtStrayBrace (tokenize source true).tokens →
        t.print ({} : Style).layout =
          source.text ++ String.ofList (List.replicate
            (Token.openBlocks (tokenize source true).tokens) '\x7d')) := by
  have hfailure := (Reader.ofSource_fresh source true).failure_of_lenient rfl
  obtain ⟨s, hrun⟩ :=
    Parse.State.exists_runs_of_lenient .start (tokenize source true).tokens
  obtain ⟨t, hfinish⟩ := Parse.State.exists_finish_of_lenient source s
  refine ⟨t, parse_eq_ok_iff.mpr ⟨hfailure, s, hrun, hfinish⟩, fun hstray => ?_⟩
  obtain ⟨hconcat, hspells⟩ := tokenize_covers hfailure
  have htidy : ∀ before t after m, (tokenize source true).tokens = before ++ t :: after →
      Parse.State.Runs true .start before m → m.Tidy t := by
    intro before t after m hcut hbefore hkind houter
    have hcount := Parse.State.length_outer_of_runs_start hbefore
    exact hstray before t after m hcut hkind (by rw [← hcount, houter]; rfl) hbefore
  obtain ⟨htext, hs⟩ :=
    Parse.State.Runs.text Parse.State.start_sound hspells (fun _ => htidy) hrun
  rw [Style.layout_default, Parse.State.print_of_finish hs hfinish, htext, hconcat,
    Parse.State.length_outer_of_runs_start hrun, Parse.State.start_text, String.empty_append]

/-- A stray brace, a statement that is none, two blocks and a string without an end. -/
def brokenSheet : Source where
  text := "\x7d a\x7bb;c:d;e\x7bf:\"\x7d"

theorem exists_parse_lenient_print_brokenSheet :
    Parse.NoStatementAtStrayBrace (tokenize brokenSheet true).tokens ∧
      ∃ t, parse brokenSheet true = .ok t ∧
        t.print ({} : Style).layout = brokenSheet.text ++ "\x7d\x7d" := by
  have hstray : Parse.NoStatementAtStrayBrace (tokenize brokenSheet true).tokens := by
    decide +kernel
  have hopen : Token.openBlocks (tokenize brokenSheet true).tokens = 2 := by decide +kernel
  obtain ⟨t, ht, hprint⟩ := exists_parse_lenient_print brokenSheet
  refine ⟨hstray, t, ht, ?_⟩
  rw [hprint hstray, hopen]
  rfl

end LosslessCss
