import LosslessCss.Proofs.CompactTexts
import LosslessCss.Proofs.DeclarationTokens
import LosslessCss.Proofs.Minimizing
import LosslessCss.Proofs.Revaluing

/-!
# Heads that can be read

What the compact layout writes of a node is put together from parts: a name or a property as it was
read, a compact text, and punctuation between them.  Where all addresses of a node close, its compact
texts are readable, with a mark or a semicolon behind them as well as alone
(`Compacted.readable`, `Compacted.readable_append`), and the property is read again in front of the
colon (`Lexes.before_colon`).

The nodes of a forest that was read stand in the text that it was read from
(`Forest.Standing`), each with its own text ahead.  Only behind the last statement of the sheet can
that text be empty.

## Main Definitions

* `Content.urlsClose` : all addresses close in the texts of a node
* `Forest.Standing`

## Main Statements

* `Compacted.readable`, `Compacted.readable_append`
* `Lexes.before_colon`
* `Reads.standing`
-/

namespace LosslessCss

open Token (Mode Kind Scans Breaks isBlank dangles)
open Watch (plain Passes Readable)
open Value.Compact (Tightness)
open Statement (Stands)

/-! ### Compact texts -/

/-- **Readable texts compose** across a character that the layout puts between them. -/
theorem Watch.Readable.join {front more : List Char} {c : Char}
    (hout : (plain.after front).isOutside = true) (hcomments : plain.comments front = 0)
    (hurls : plain.urlsClose false front = true) (hc : c ∈ [':', ';', '!'])
    (hmore : Readable more) : Readable (front ++ c :: more) := by
  have hchar : starting c = plain ∧ c ≠ '*' ∧ c.toLower ∉ ['u', 'r', 'l'] ∧ c ≠ '(' := by
    simp only [List.mem_cons, List.not_mem_nil, or_false] at hc
    rcases hc with rfl | rfl | rfl <;> decide
  obtain ⟨hstarting, hstar, hbreaks⟩ := hchar
  have hstep : (plain.after front).step c = plain := by
    generalize plain.after front = w at hout ⊢
    cases w with
    | plain => exact hstarting
    | slash => exact (if_neg hstar).trans hstarting
    | escaped => rfl
    | _ => cases hout
  refine ⟨?_, ?_, ?_⟩
  · rw [comments_append, comments_cons, hstep, if_neg fun hc => hstar hc.2, hcomments, hmore.comments]
  · rw [after_append, after_cons, hstep]
    exact hmore.reading
  · refine urlsClose_append hurls (by simpa [BreaksUrl] using hbreaks) (urlsClose_cons_iff.mpr ?_)
    refine ⟨fun _ _ ds hds => ?_, by rw [hstep]; exact urlsClose_of_false hmore.urls⟩
    have hlower := toLower_of_behindUrl? hds
    simp [hlower] at hbreaks

namespace Compacted

variable {tight : Tightness} {cs ds : List Char}

/-- **The compact form is readable** if everything is closed at the end of the text. -/
theorem readable (htight : tight.Harmless) (hparen : '(' ∉ tight.before)
    (h : Compacted tight none cs ds) (hreading : (plain.after cs).isReading = true)
    (hurls : plain.urlsClose false cs = true) : Readable ds :=
  have hout := (Bool.and_eq_true_iff.mp hreading).1
  ⟨(h.passes hout).comments, h.isReading hreading, h.urlsClose htight hparen hout hurls id⟩

/-- **The compact form is readable with more text behind it**, if the layout puts a character
between them. -/
theorem readable_append (htight : tight.Harmless) (hparen : '(' ∉ tight.before)
    (h : Compacted tight none cs ds) (hout : (plain.after cs).isOutside = true)
    (hurls : plain.urlsClose false cs = true) {c : Char} {more : List Char}
    (hc : c ∈ [':', ';', '!']) (hmore : Readable more) : Readable (ds ++ c :: more) :=
  have hpasses := h.passes hout
  .join hpasses.ready.outside hpasses.comments (h.urlsClose htight hparen hout hurls id) hc hmore

end Compacted

/-! ### Values -/

/-- Neither a quote nor a slash nor punctuation is in what is split off a value. -/
theorem splitImportant_mark {value : List Char} :
    ∀ c ∈ (splitImportant value).2.getD [], Token.punctuation? c = none ∧
      Value.isQuote c = false ∧ c ≠ '/' := by
  intro c hc
  cases hsome : (splitImportant value).2 with
  | none => simp [hsome] at hc
  | some mark =>
    have hmark : IsMark mark := (isMark_of_splitImportant (Prod.ext rfl hsome)).2
    obtain ⟨hpunctuation, hdouble, hsingle, -, hslash, -⟩ :=
      hmark.plain c (by simpa [hsome] using hc)
    exact ⟨hpunctuation, by simp [Value.isQuote, hdouble, hsingle], hslash⟩

/-- No `url(` reaches into what is split off a value. -/
theorem splitImportant_breaks {value : List Char} :
    Watch.BreaksUrl ((splitImportant value).2.getD []) := by
  cases hsome : (splitImportant value).2 with
  | none => simp [Watch.BreaksUrl]
  | some mark =>
    have hmark : IsMark mark := (isMark_of_splitImportant (Prod.ext rfl hsome)).2
    obtain ⟨a, cs, rfl, ha⟩ := hmark.head
    intro c hc
    obtain rfl : a = c := by simpa using hc
    rcases ha with hwhite | rfl
    · have hlower := Text.toLower_of_isWhiteSpace hwhite
      have hne {d : Char} (hd : Text.isWhiteSpace d = false) : a ≠ d := by
        rintro rfl
        rw [hwhite] at hd
        cases hd
      simp [hlower, hne (d := 'u') rfl, hne (d := 'r') rfl, hne (d := 'l') rfl, hne (d := '(') rfl]
    · decide

/-- **What a value leaves open** it leaves open without its mark, and it has the punctuation of its
tokens. -/
theorem Lexes.value_spec {value ahead : List Char} {ls : List Lexeme} {last : Mode}
    (h : Lexes .plain value ahead ls last)
    (hurls : plain.urlsClose false (splitImportant value).1 = true) :
    (plain.after (splitImportant value).1).isOutside = true ∧
      (ahead ≠ [] → (splitImportant value).2 = none →
        (plain.after (splitImportant value).1).isReading = true) ∧
      ∀ depth, Statement.depth? depth (ls.map Lexeme.kind) =
        Statement.depth? depth (plain.punctuation (splitImportant value).1) := by
  have hcut := splitImportant_append value
  have hmark := @splitImportant_mark value
  have hbreaks := @splitImportant_breaks value
  generalize splitImportant value = parts at hurls hcut hmark hbreaks
  obtain ⟨kept, mark⟩ := parts
  dsimp only at hurls hcut hmark hbreaks ⊢
  subst hcut
  have hno : '(' ∉ mark.getD [] := fun hmem => by cases (hmark _ hmem).1
  obtain ⟨hready, -, hdepth⟩ := h.watched
    (Watch.urlsClose_append hurls hbreaks (Watch.urlsClose_of_not_mem hno)) trivial
  refine ⟨?_, ?_, fun depth => ?_⟩
  · have hout := hready.outside
    rw [Watch.after_append] at hout
    exact Watch.isOutside_of_after (fun c hc => (hmark c hc).2) hout
  · rintro hahead rfl
    obtain ⟨c, ahead, rfl⟩ := List.exists_cons_of_ne_nil hahead
    have hreading := hready.isReading
    rwa [Option.getD_none, List.append_nil] at hreading
  · have hnone : ∀ c ∈ mark.getD [], Watch.mark? c = none := fun c hc => by
      rw [Watch.mark?, (hmark c hc).1]
      rfl
    rw [hdepth depth (by simp), Watch.punctuation_append, Watch.punctuation_of_forall hnone,
      List.append_nil]

/-! ### Properties -/

/-- What stands behind a property: the colon, or blank space in front of it. -/
def Token.ColonAhead (cs : List Char) : Prop := ∃ c, cs.head? = some c ∧ (isBlank c = true ∨ c = ':')

theorem Token.ColonAhead.head_ne {behind : List Char} (h : ColonAhead behind) {d : Char}
    (hblank : isBlank d = false) (hd : d ≠ ':') : behind.head? ≠ some d := by
  obtain ⟨c, hc, hcolon⟩ := h
  rintro hhead
  obtain rfl : c = d := by simpa [hc] using hhead
  simp [hblank, hd] at hcolon

section Properties

variable {property behind : List Char} {ls : List Lexeme} {l : Lexeme} {last : Mode}

/-- **A property is read again alone.** -/
theorem Lexes.exists_alone (h : Lexes .plain property behind ls last)
    (hbehind : Token.ColonAhead behind) : ∃ last', Lexes .plain property [] ls last' := by
  rcases List.eq_nil_or_concat' ls with rfl | ⟨ls, l, rfl⟩
  · obtain rfl : property = [] := h.concat_eq.symm
    exact ⟨_, .nil _ _⟩
  · obtain ⟨last', halone, -⟩ := h.change_last (hbehind.head_ne rfl (by decide))
      (hbehind.head_ne rfl (by decide)) (show ([] : List Char).head? ≠ _ by simp)
      fun mode hmode _ => Token.follows_nil hmode _ _
    exact ⟨last', halone⟩

/-- **A property is read again in front of the colon**, if it does not end in an at-word. -/
theorem Lexes.before_colon (h : Lexes .plain property behind (ls ++ [l]) last)
    (hurls : plain.urlsClose false property = true) (hbehind : Token.ColonAhead behind)
    (hspace : l.kind ≠ .space) (hat : l.kind ≠ .atWord) (more : List Char) :
    Lexes .plain (property ++ [':']) more (ls ++ [l] ++ [⟨.colon, [':']⟩]) .plain := by
  obtain ⟨middle, hproperty, -⟩ := h.change_last (hbehind.head_ne rfl (by decide))
    (hbehind.head_ne rfl (by decide)) (show (':' :: more).head? ≠ some '*' by simp)
    fun mode hmode hfollows => by
      cases hkind : l.kind with
      | space => contradiction
      | atWord => contradiction
      | word =>
        rw [hkind] at hfollows
        obtain ⟨-, hdangle⟩ := (Token.follows_word hmode).mp hfollows
        refine (Token.follows_word hmode).mpr
          ⟨by simp [Token.WordEnds, Token.endsWord], fun hown => ?_⟩
        obtain ⟨c, hc, -⟩ := hbehind
        rw [hdangle hown] at hc
        cases hc
      | _ => cases mode <;> first | contradiction | trivial
  obtain ⟨-, hmiddle, -⟩ := hproperty.watched hurls trivial
  exact hproperty.append (.punctuation hmiddle rfl (by simp) (.nil _ _))

end Properties

/-- No token is empty. -/
theorem Lexes.text_ne_nil {mode last : Mode} {cs rest : List Char} {ls : List Lexeme}
    (h : Lexes mode cs rest ls last) : ∀ l ∈ ls, l.text ≠ [] := by
  induction h with
  | nil => simp
  | cons _ _ ih => exact List.forall_mem_cons.mpr ⟨List.cons_ne_nil _ _, ih⟩

/-- **The property of a declaration** stands in front of the colon, or of blank space. -/
theorem Lexes.property_spec {text ahead : List Char} {front back : List Token} {colon : Token}
    {last : Mode} (h : Lexes .plain text ahead ((front ++ colon :: back).map Token.lexeme) last)
    (hcolon : colon.kind = .colon) :
    ∃ behind middle, Token.ColonAhead behind ∧
      Lexes .plain (Token.concat (Statement.content front)).toList behind
        ((Statement.content front).map Token.lexeme) middle := by
  have hcut : front ++ colon :: back =
      Statement.content front ++ (Statement.gap front ++ colon :: back) := by
    rw [← List.append_assoc, Statement.content, Statement.gap, dropTrailing_append_takeTrailing]
  rw [hcut, List.map_append] at h
  obtain ⟨property, rest, middle, -, hproperty, hrest⟩ := h.exists_of_append
  refine ⟨rest ++ ahead, middle, ?_, by rwa [Token.toList_concat, hproperty.concat_eq]⟩
  obtain ⟨t, ts, hts, ht⟩ : ∃ t ts, Statement.gap front ++ colon :: back = t :: ts ∧
      (t.kind = .space ∨ t.kind = .colon) := by
    have hgap : ∀ t ∈ Statement.gap front, t.isSpace = true := fun t => of_mem_takeTrailing
    generalize Statement.gap front = gap at hgap
    cases gap with
    | nil => exact ⟨colon, back, rfl, .inr hcolon⟩
    | cons t gap => exact ⟨t, _, rfl, .inl (beq_iff_eq.mp (hgap t List.mem_cons_self))⟩
  rw [hts] at hrest
  obtain ⟨c, text, htext⟩ :=
    List.exists_cons_of_ne_nil (hrest.text_ne_nil t.lexeme List.mem_cons_self)
  obtain ⟨cs, rfl, hspells, -⟩ := hrest.of_cons
  replace htext : t.text.toList = c :: text := htext
  rw [htext] at hspells ⊢
  refine ⟨c, rfl, ?_⟩
  rcases ht with ht | ht <;> rw [ht] at hspells
  · exact .inl (hspells c List.mem_cons_self)
  · exact .inr (List.cons.inj hspells).1

/-- **A property that is read alone** has the tokens that it has in its statement. -/
theorem Lexes.tokenize_property {text ahead : List Char} {front back : List Token} {colon : Token}
    {last : Mode} (h : Lexes .plain text ahead ((front ++ colon :: back).map Token.lexeme) last)
    (hcolon : colon.kind = .colon) :
    (tokenize { text := Token.concat (Statement.content front) } false).tokens.map Token.lexeme =
      (Statement.content front).map Token.lexeme := by
  obtain ⟨behind, middle, hbehind, hproperty⟩ := h.property_spec hcolon
  obtain ⟨last', halone⟩ := hproperty.exists_alone hbehind
  have hfresh :=
    Reader.ofSource_fresh { text := Token.concat (Statement.content front) } false
  exact (hfresh.drain_of_lexes halone).2

/-! ### Heads -/

/-- **A readable text** in front of what breaks off a statement: it has no comments, and its tokens
open and close what its punctuation does. -/
theorem Watch.Readable.lexes {cs behind : List Char} (h : Readable cs) (hbehind : Breaks behind) :
    ∃ ls last, last ≠ .address ∧ Lexes .plain cs behind ls last ∧ (∀ l ∈ ls, l.kind ≠ .comment) ∧
      ∀ depth, Statement.depth? depth (ls.map Lexeme.kind) =
        Statement.depth? depth (plain.punctuation cs) := by
  have hexpects : Mode.plain.Expects cs := trivial
  obtain ⟨ls, last, hls, hcomment⟩ := h.exists_lexes hexpects hbehind
  obtain ⟨-, hlast, hdepth⟩ := hls.watched h.urls hexpects
  exact ⟨ls, last, hlast, hls, hcomment, fun depth => hdepth depth (by simp)⟩

/-- **What closes a text**: a semicolon, or nothing if everything in front is read. -/
def Closes (closing : List Char) (reading : Prop) : Prop :=
  closing = [';'] ∨ closing = [] ∧ reading

theorem Closes.breaks {closing behind : List Char} {reading : Prop} (h : Closes closing reading)
    (hbehind : Breaks behind) : Breaks (closing ++ behind) := by
  rcases h with rfl | ⟨rfl, -⟩
  · intro c hc
    exact .inl (Option.some.inj hc).symm
  · exact hbehind

namespace Compacted

variable {tight : Tightness} {cs ds closing : List Char}

/-- **The compact form is readable with what closes it.** -/
theorem readable_closed (htight : tight.Harmless) (hparen : '(' ∉ tight.before)
    (h : Compacted tight none cs ds) (hout : (plain.after cs).isOutside = true)
    (hurls : plain.urlsClose false cs = true)
    (hclosing : Closes closing ((plain.after cs).isReading = true)) : Readable (ds ++ closing) := by
  rcases hclosing with rfl | ⟨rfl, hreading⟩
  · exact h.readable_append htight hparen hout hurls (by simp) ⟨rfl, rfl, rfl⟩
  · rw [List.append_nil]
    exact h.readable htight hparen hreading hurls

end Compacted

/-- **A compact value is readable** with its mark and with what closes it. -/
theorem Value.Compact.readable_value {value closing : List Char} {important : Bool}
    (hout : (plain.after value).isOutside = true) (hurls : plain.urlsClose false value = true)
    (hclosing : Closes closing (important = false → (plain.after value).isReading = true)) :
    Readable (compact valueTightness value ++ (compactMark important ++ closing)) := by
  have h := compacted_compact valueTightness_harmless value
  have hparen : '(' ∉ valueTightness.before := by decide
  cases important with
  | false =>
    refine h.readable_closed valueTightness_harmless hparen hout hurls ?_
    exact hclosing.imp_right (And.imp_right fun hreading => hreading rfl)
  | true =>
    have hmark : Readable ("important".toList ++ closing) := by
      rcases hclosing with rfl | ⟨rfl, -⟩ <;> exact ⟨by decide, by decide, by decide⟩
    exact h.readable_append valueTightness_harmless hparen hout hurls
      (show '!' ∈ _ by simp) hmark

/-! ### What a statement leaves open -/

/-- **A stretch of tokens** leaves nothing open, and reads what the watch reads. -/
theorem Lexes.stretch_spec {text ahead : List Char} {ls : List Lexeme} {last : Mode}
    (h : Lexes .plain text ahead ls last) (hurls : plain.urlsClose false text = true) :
    (plain.after text).isOutside = true ∧
      (ahead ≠ [] → (plain.after text).isReading = true) ∧
      ∀ depth, Statement.depth? depth (ls.map Lexeme.kind) =
        Statement.depth? depth (plain.punctuation text) := by
  obtain ⟨hready, -, hdepth⟩ := h.watched hurls trivial
  refine ⟨hready.outside, fun hahead => ?_, fun depth => hdepth depth (by simp)⟩
  obtain ⟨c, ahead, rfl⟩ := List.exists_cons_of_ne_nil hahead
  exact hready.isReading

/-- Tokens that open and close nothing do not count for the depth. -/
theorem Statement.depth?_append_of_unmarked {ks : List Kind} (hks : ∀ k ∈ ks, k.isMark = false)
    (depth : Nat) (ks' : List Kind) : depth? depth (ks ++ ks') = depth? depth ks' := by
  have hnone : ks.filter Kind.isMark = [] := by simpa using hks
  rw [← Lexeme.depth?_filter_isMark, List.filter_append, hnone, List.nil_append,
    Lexeme.depth?_filter_isMark]

theorem Token.map_kind_lexeme (ts : List Token) :
    (ts.map Token.lexeme).map Lexeme.kind = ts.map Token.kind := List.map_map

/-- Trivia open and close nothing. -/
theorem Token.isMark_of_isTrivia {t : Token} (h : t.isTrivia = true) : t.kind.isMark = false := by
  rw [Token.isTrivia] at h
  cases hkind : t.kind <;> first | rfl | (rw [hkind] at h; cases h)

namespace Statement.Stands

variable {run : List Token} {depth : Nat} {text ahead : List Char}

/-- **What the parameters of an at-rule leave open.** -/
theorem params_spec {first : Token} {rest : List Token}
    (h : Stands (first :: rest) depth text ahead) (hkind : first.kind = .atWord)
    (hurls : plain.urlsClose false (AtRuleHead.ofTokens (first :: rest)).params.toList = true) :
    (plain.after (AtRuleHead.ofTokens (first :: rest)).params.toList).isOutside = true ∧
      (ahead ≠ [] →
        (plain.after (AtRuleHead.ofTokens (first :: rest)).params.toList).isReading = true) ∧
      depth? 0 (plain.punctuation (AtRuleHead.ofTokens (first :: rest)).params.toList) =
        some depth := by
  obtain ⟨last, -, hlexes⟩ := h.lexes
  have hcut : first :: rest.takeWhile Token.isSpace ++ rest.dropWhile Token.isSpace = first :: rest := by
    rw [List.cons_append, List.takeWhile_append_dropWhile]
  have hkinds : ∀ t ∈ first :: rest.takeWhile Token.isSpace, t.kind = .atWord ∨ t.kind = .space := by
    refine List.forall_mem_cons.mpr ⟨.inl hkind, fun t ht => .inr ?_⟩
    simpa [Token.isSpace] using List.mem_takeWhile_imp ht
  rw [← hcut] at hlexes
  obtain ⟨-, hparams⟩ := hlexes.cut_behind fun t ht => by
    rcases hkinds t (List.mem_of_getLast? ht) with h | h <;> simp [h]
  obtain ⟨hout, hreading, hdepth⟩ := hparams.stretch_spec hurls
  have hwhole := h.depth
  rw [← hcut, List.map_append, depth?_append_of_unmarked] at hwhole
  · refine ⟨hout, hreading, (hdepth 0).symm.trans ?_⟩
    rw [Token.map_kind_lexeme]
    exact hwhole
  · intro k hk
    obtain ⟨t, ht, rfl⟩ := List.mem_map.mp hk
    rcases hkinds t ht with h | h <;> rw [h] <;> rfl

/-- **What the value of a declaration leaves open.**  Its property opens nothing that it does not
close. -/
theorem value_spec {front back : List Token} {colon : Token} {value : List Char}
    (h : Stands (front ++ colon :: back) depth text ahead) (hcolon : colon.kind = .colon)
    (hvalue : (Token.concat (back.dropWhile Token.isTrivia)).toList = value)
    (hurls : plain.urlsClose false (splitImportant value).1 = true) :
    (plain.after (splitImportant value).1).isOutside = true ∧
      (ahead ≠ [] → (splitImportant value).2 = none →
        (plain.after (splitImportant value).1).isReading = true) ∧
      (depth? 0 ((content front).map Token.kind)).bind
        (depth? · (plain.punctuation (splitImportant value).1)) = some depth := by
  obtain ⟨last, -, hlexes⟩ := h.lexes
  have hcut : front ++ colon :: back.takeWhile Token.isTrivia ++ back.dropWhile Token.isTrivia =
      front ++ colon :: back := by
    rw [List.append_assoc, List.cons_append, List.takeWhile_append_dropWhile]
  rw [← hcut] at hlexes
  obtain ⟨-, hback⟩ := hlexes.cut_behind_colon hcolon fun t => List.mem_takeWhile_imp
  rw [hvalue] at hback
  obtain ⟨hout, hreading, hdepth⟩ := hback.value_spec hurls
  refine ⟨hout, hreading, ?_⟩
  have hwhole := h.depth
  have hparts : front ++ colon :: back = content front ++
      ((gap front ++ colon :: back.takeWhile Token.isTrivia) ++ back.dropWhile Token.isTrivia) := by
    rw [← hcut, ← List.append_assoc, ← List.append_assoc, content, gap,
      dropTrailing_append_takeTrailing]
  rw [hparts, List.map_append, depth?_append] at hwhole
  rw [← hwhole]
  congr 1
  funext d
  rw [List.map_append, depth?_append_of_unmarked, ← Token.map_kind_lexeme (_ : List Token), hdepth]
  intro k hk
  obtain ⟨t, ht, rfl⟩ := List.mem_map.mp hk
  rcases List.mem_append.mp ht with ht | ht
  · have hspace : t.isSpace = true := of_mem_takeTrailing ht
    rw [show t.kind = .space from beq_iff_eq.mp hspace]
    rfl
  · rcases List.mem_cons.mp ht with rfl | ht
    · rw [hcolon]
      rfl
    · exact Token.isMark_of_isTrivia (List.mem_takeWhile_imp ht)

end Statement.Stands

/-! ### At-words in properties -/

/-- An at-word hides nothing and opens nothing. -/
theorem Token.passes_of_atWord {name : List Char}
    (hname : ∀ c ∈ name, Token.endsAtWord c = false) (rest : List Char) :
    Passes 0 ('@' :: name) rest ∧ '(' ∉ '@' :: name := by
  have hends : Watch.marks.any (fun c => !Token.endsAtWord c) = false := by decide
  refine ⟨Watch.passes_of_forall (List.forall_mem_cons.mpr ⟨by simp [Watch.marks], fun c hc => ?_⟩), ?_⟩
  · exact Watch.not_mem_marks hends (by simp [hname c hc])
  · rintro (_ | ⟨_, hmem⟩)
    cases hname '(' hmem

/-- **A property that ends in an at-word** is read again in front of the colon, up to the at-word.
What stands behind it has no comments, though it may become part of the at-word. -/
theorem Lexes.atWord_colon {property behind more rest : List Char} {ls : List Lexeme} {l : Lexeme}
    {last : Mode} (h : Lexes .plain property behind (ls ++ [l]) last)
    (hbehind : Token.ColonAhead behind) (hat : l.kind = .atWord) (hmore : Readable more)
    (hrest : Breaks rest) :
    ∃ ls' last', last' ≠ .address ∧ Lexes .plain (property ++ ':' :: more) rest (ls ++ ls') last' ∧
      ∀ l ∈ ls', l.kind ≠ .comment := by
  obtain ⟨front, word, middle, rfl, hfront, hword⟩ := h.exists_of_append
  cases hword with
  | @cons _ _ kind c name cs _ _ hscan htail =>
    cases htail
    obtain rfl : kind = .atWord := hat
    have hmiddle : middle ≠ .address := by
      rintro rfl
      cases hscan.kind_eq_word
    obtain ⟨rfl, hname⟩ := hscan.atWord_spec
    obtain ⟨hpasses, hparen⟩ := Token.passes_of_atWord hname []
    have hreadable : Readable ('@' :: name ++ ':' :: more) :=
      .join hpasses.ready.outside hpasses.comments (Watch.urlsClose_of_not_mem hparen) (by simp) hmore
    have hexpects : middle.Expects ('@' :: name ++ ':' :: more) := by
      cases middle with
      | plain => trivial
      | behindUrl =>
        rintro ds hds
        cases (List.cons.inj hds).1
      | address => contradiction
    obtain ⟨ls', last', hls', hcomment⟩ := hreadable.exists_lexes hexpects hrest
    obtain ⟨-, hlast, -⟩ := hls'.watched hreadable.urls hexpects
    have hsame : SameStart ('@' :: name ++ [] ++ behind) ('@' :: name ++ ':' :: more ++ rest) := by
      rw [List.append_nil, List.append_assoc]
      exact .of_append (by simp) (hbehind.head_ne rfl (by decide)) (by simp)
    refine ⟨ls', last', hlast, ?_, hcomment⟩
    rw [List.append_nil, List.append_assoc]
    exact (hfront.change_of_sameStart hsame).append hls'

/-! ### Nodes that were read -/

/-- **All addresses close** in the texts of a node. -/
def Content.urlsClose : Content → Bool
  | .rule selector => plain.urlsClose false selector.toList
  | .atRule _ params _ => plain.urlsClose false params.toList
  | .declaration property value _ =>
    plain.urlsClose false property.toList && plain.urlsClose false value.toList
  | .root | .comment _ => true

/-- Where lengths are converted does not matter for addresses. -/
theorem Content.urlsClose_mapValue {g : String → String}
    (hg : ∀ value, Rewritten none value.toList (g value).toList) (c : Content) :
    (c.mapValue g).urlsClose = c.urlsClose := by
  cases c with
  | declaration property value important =>
    rw [mapValue, urlsClose, urlsClose, (hg value).urlsClose_eq]
  | _ => rfl

/-- **Each node of a forest was read**, with some text ahead unless it is the last one of the sheet.
Nothing is open behind a statement that others follow. -/
def Forest.Standing (closed : Bool) : Forest Content → Prop
  | .nil => True
  | .cons c children next =>
    (c.isComment = false → ∃ run depth text ahead, Stands run depth text ahead ∧ c.ReadFrom run ∧
      (ahead = [] → closed = true ∧ c.opensBlock = false ∧ next = .nil) ∧
        (c.opensBlock = false → next ≠ .nil → depth = 0)) ∧
      (c.opensBlock = false → children = .nil) ∧ children.Standing false ∧ next.Standing closed

/-- **What is read stands in the text.** -/
theorem Reads.standing {text rest : List Char} {f : Forest Content} (h : Reads text f rest)
    {closed : Bool} (hclosed : closed = false → rest ≠ []) : f.Standing closed := by
  induction h generalizing closed with
  | nil => trivial
  | gap _ _ ih => exact ih hclosed
  | comment _ _ ih => exact ⟨nofun, fun _ => rfl, trivial, ih hclosed⟩
  | closed hstands _ hcontent hblock _ ih =>
    exact ⟨fun _ => ⟨_, _, _, _, hstands, hcontent, by simp, fun _ _ => rfl⟩, fun _ => rfl, trivial,
      ih hclosed⟩
  | last hstands hends hcontent hblock hreads ih =>
    obtain ⟨rfl, blank, rfl, -⟩ := hreads.eq_nil_of_endsBlock hends
    refine ⟨fun _ => ⟨_, _, _, _, hstands, hcontent, fun hnil => ⟨?_, hblock, rfl⟩,
      fun _ hnext => absurd rfl hnext⟩, fun _ => rfl, trivial, trivial⟩
    by_contra hopen
    exact hclosed (by simpa using hopen) (List.append_eq_nil_iff.mp hnil).2
  | block hstands _ hcontent hblock _ _ ihInner ih =>
    refine ⟨fun _ => ⟨_, _, _, _, hstands, hcontent, by simp, fun hleaf => ?_⟩, fun hleaf => ?_,
      ihInner (by simp), ih hclosed⟩ <;> rw [hblock] at hleaf <;> cases hleaf

end LosslessCss
