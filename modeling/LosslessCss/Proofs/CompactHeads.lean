import LosslessCss.Print
import LosslessCss.Proofs.Importance

/-!
# Compact heads

The compact layout writes the head of a node in another way than it was read.  Here it is shown that
what it writes is read as the head of the compacted node, with one theorem for each kind of node.

## Main Definitions

* `Content.compacted` : what the compact layout keeps of a node
* `Content.compactText` : how it writes the head
* `Statement.Plain` : a run without addresses, and with an at-word only at its start

## Main Statements

* `Statement.Stands.exists_compact`
-/

namespace LosslessCss

open Token (Scans WordEnds Follows StartsWord Stops dangles isBlank)
open Value.Compact (Tightness selectorTightness valueTightness)

/-! ### Compacted nodes -/

/-- **What the compact layout keeps of a node.** -/
def Content.compacted : Content → Content
  | .rule selector => .rule (Value.compactSelector selector)
  | .atRule name params hasBody => .atRule name (Value.compactParams params) hasBody
  | .declaration property value important =>
    .declaration property (Value.compactValue value) important
  | c => c

/-- **How the compact layout writes the head of a node**, without a semicolon. -/
def Content.compactText (c : Content) : List Char :=
  (Layout.compactHead id false { content := c }).toList

@[simp]
theorem Content.opensBlock_compacted (c : Content) : c.compacted.opensBlock = c.opensBlock := by
  cases c <;> rfl

/-! ### Runs from plain stretches -/

/-- **A run without addresses**, and with an at-word only at its start; what is white space in it is
blank. -/
structure Statement.Plain (run : List Token) : Prop where
  urls : ∀ t ∈ run, t.lexeme.isUrl = false
  white : ∀ t ∈ run, ∀ c ∈ t.text.toList, Text.isWhiteSpace c = true → isBlank c = true
  atWords : ∀ t ∈ run.tail, t.kind ≠ .atWord

/-- Only marks count for the depth. -/
theorem Lexeme.depth?_eq {run run' : List Token}
    (h : marks (run'.map Token.lexeme) = marks (run.map Token.lexeme)) (depth : Nat) :
    Statement.depth? depth (run'.map Token.kind) = Statement.depth? depth (run.map Token.kind) := by
  rw [marks, marks, List.map_map, List.map_map] at h
  exact (depth?_filter_isMark depth (run'.map Token.kind)).symm.trans
    ((congrArg (Statement.depth? depth) h).trans (depth?_filter_isMark depth (run.map Token.kind)))

theorem Lexeme.map_lexeme_token (ls : List Lexeme) : (ls.map token).map Token.lexeme = ls := by
  simp [Function.comp_def]

namespace Plainly

variable {ahead text : List Char} {ls : List Lexeme}

/-- **A plain stretch is a run.** -/
theorem stands {run : List Token} {depth : Nat} (h : Plainly ahead text (run.map Token.lexeme))
    (hstarts : ∀ t ∈ run.head?, t.kind.startsStatement = true)
    (hdepth : Statement.depth? 0 (run.map Token.kind) = some depth)
    (hends : ∀ t ∈ run.getLast?, t.isSpace = false) : Statement.Stands run depth text ahead :=
  ⟨hstarts, hdepth, hends, .plain, by simp, h.lexes⟩

theorem text_eq_nil_iff (h : Plainly ahead text ls) : text = [] ↔ ls = [] := by
  constructor
  · rintro rfl
    cases h
    rfl
  · rintro rfl
    exact h.concat_eq.symm

/-- The first lexeme. -/
theorem exists_head {l : Lexeme} (h : Plainly ahead text (l :: ls)) :
    ∃ c cs, l.text = c :: cs ∧ text.head? = some c ∧ l.kind.Spells l.text ∧
      (l.kind ≠ .space → isBlank c = false) := by
  cases h with
  | @cons kind c text cs ls hscan =>
    refine ⟨c, text, rfl, rfl, ?_, isBlank_eq_false_of_scans hscan⟩
    simpa using hscan.spells

end Plainly

namespace Statement.Plain

variable {run : List Token} {text ahead : List Char} {last : Token.Mode}

/-- A run that starts with no at-word is read plainly. -/
theorem plainly (h : Plain run) (hfirst : ∀ t ∈ run.head?, t.kind ≠ .atWord)
    (hlexes : Lexes .plain text ahead (run.map Token.lexeme) last) :
    Plainly ahead text (run.map Token.lexeme) := by
  refine .of_lexes hlexes fun l hl => ?_
  obtain ⟨t, ht, rfl⟩ := List.mem_map.mp hl
  refine ⟨?_, h.urls t ht⟩
  cases run with
  | nil => cases ht
  | cons first others =>
    rcases List.mem_cons.mp ht with rfl | ht
    · exact hfirst _ rfl
    · exact h.atWords t ht

theorem white_concat (h : Plain run) :
    ∀ c ∈ Lexeme.concat (run.map Token.lexeme), Text.isWhiteSpace c = true → isBlank c = true := by
  intro c hc
  obtain ⟨l, hl, hc⟩ := List.mem_flatMap.mp hc
  obtain ⟨t, ht, rfl⟩ := List.mem_map.mp hl
  exact h.white t ht c hc

/-- A part of a run behind its first token. -/
theorem of_suffix {front back : List Token} (h : Plain (front ++ back)) (hfront : front ≠ []) :
    Plain back ∧ ∀ t ∈ back, t.kind ≠ .atWord := by
  have hback : ∀ t ∈ back, t.kind ≠ .atWord := by
    intro t ht
    refine h.atWords t ?_
    rw [List.tail_append_of_ne_nil hfront]
    exact List.mem_append_right _ ht
  exact ⟨⟨fun t ht => h.urls t (List.mem_append_right _ ht),
    fun t ht => h.white t (List.mem_append_right _ ht),
    fun t ht => hback t (List.mem_of_mem_tail ht)⟩, hback⟩

end Statement.Plain

/-- A run that starts a statement leads with its first token. -/
theorem Lexeme.lead?_of_starts {run : List Token}
    (hstarts : ∀ t ∈ run.head?, t.kind.startsStatement = true) :
    lead? (run.map Token.lexeme) = run.head?.map Token.kind := by
  cases run with
  | nil => rfl
  | cons first others =>
    have htrivia : first.kind.isTrivia = false := by
      have := hstarts first rfl
      cases hkind : first.kind <;> first | rfl | simp [hkind, Token.Kind.startsStatement] at this
    rw [lead?, List.map_cons, List.map_cons, List.find?_cons_of_pos]
    · rfl
    · simp [Token.lexeme, htrivia]

theorem Lexeme.isTrivia_of_lead? {ls : List Lexeme} {kind : Token.Kind} (h : lead? ls = some kind) :
    kind.isTrivia = false := by
  simpa using List.find?_some h

theorem Lexeme.marks_eq_nil {ls : List Lexeme} (h : ∀ l ∈ ls, l.kind.isMark = false) :
    marks ls = [] := by
  simpa [marks] using h

/-! ### Values -/

/-- The kept part of a marked value does not end in white space. -/
theorem splitImportant_kept {value : List Char} (h : (splitImportant value).2.isSome = true) :
    ∀ c ∈ (splitImportant value).1.getLast?, Text.isWhiteSpace c = false := by
  unfold splitImportant at h ⊢
  dsimp only at h ⊢
  split at h
  · next hcond =>
    rw [if_pos hcond]
    exact dropTrailing_eq_self_iff.mp (dropTrailing_dropTrailing _)
  · cases h

/-- What leads a compact form is no trivia. -/
private theorem Lexeme.isTrivia_head? {ls ls' : List Lexeme}
    (h : ls'.head?.map Lexeme.kind = Lexeme.lead? ls) : ∀ l ∈ ls'.head?, l.kind.isTrivia = false := by
  intro l hl
  rw [Option.mem_def.mp hl, Option.map_some] at h
  exact Lexeme.isTrivia_of_lead? h.symm

/-- The mark as the compact layout writes it. -/
def compactMark (important : Bool) : List Char := if important then "!important".toList else []

/-- **A value** is written with its mark, and read as the compacted value with a mark if it had
one. -/
theorem Plainly.exists_compact_value {value ahead ahead' : List Char} {ls : List Lexeme}
    (h : Plainly ahead value ls)
    (hwhite : ∀ c ∈ value, Text.isWhiteSpace c = true → isBlank c = true)
    (hcomment : ∀ l ∈ ls, l.kind ≠ .comment) (hahead : ahead ≠ []) (hahead' : WordEnds ahead') :
    ∃ ls', Plainly ahead' (Value.Compact.compact valueTightness (splitImportant value).1 ++
        compactMark (splitImportant value).2.isSome) ls' ∧
      Lexeme.marks ls' = Lexeme.marks ls ∧ (∀ l ∈ ls'.getLast?, l.kind ≠ .space) ∧
        (∀ l ∈ ls'.head?, l.kind.isTrivia = false) ∧
          (splitImportant (Lexeme.concat ls')).1 =
            Value.Compact.compact valueTightness (splitImportant value).1 ∧
          (splitImportant (Lexeme.concat ls')).2.isSome = (splitImportant value).2.isSome := by
  have hdangle := h.dangles_eq_false hahead
  have hcut := splitImportant_append value
  have hmark (mark) (h : (splitImportant value).2 = some mark) :=
    isMark_of_splitImportant (Prod.ext rfl h)
  have hkept := @splitImportant_kept value
  cases hsplit : splitImportant value with
  | mk kept mark =>
  rw [hsplit] at hcut hmark hkept
  dsimp only at hcut hmark hkept ⊢
  cases mark with
  | none =>
    obtain rfl : kept = value := by simpa using hcut
    obtain ⟨ls', hls', hcompacts, hhead⟩ := h.exists_compacts
      Value.Compact.valueTightness_harmless hdangle hahead' none false
    have hcompact := h.write_units hwhite valueTightness none false
    have hnone : (splitImportant (Lexeme.concat ls')).2 = none := by
      rw [hls'.concat_eq, ← Option.not_isSome_iff_eq_none]
      intro hsome
      have := exists_splitImportant_of_compact h.text_ne_nil (fun l hl htrivia c hc => ?_) hsome
      · rw [h.concat_eq, hsplit] at this
        cases this
      · have hspells := h.lexes.spells l hl
        have hkind := hcomment l hl
        cases hspace : l.kind <;> simp_all [Token.Kind.isTrivia]
        exact Text.isWhiteSpace_of_isBlank (hspells c hc)
    have hself := splitImportant_append (Lexeme.concat ls')
    rw [hnone, Option.getD_none, List.append_nil, hls'.concat_eq] at hself
    rw [← hcompact] at hls' hself
    change Plainly ahead' (Value.Compact.compact valueTightness kept) ls' at hls'
    refine ⟨ls', by rwa [compactMark, Option.isSome_none, if_neg (by simp), List.append_nil],
      hcompacts.marks, hcompacts.ends,
      Lexeme.isTrivia_head? (hhead rfl), ?_, by simp [hnone]⟩
    rw [hls'.concat_eq]
    exact hself
  | some mark =>
    obtain ⟨-, hismark⟩ := hmark mark rfl
    obtain rfl : kept ++ mark = value := by simpa using hcut
    obtain ⟨ls₂, hls₂, hmarks, hdangle₂, hcompact, hlast⟩ := h.exists_marked
      valueTightness (hkept rfl) hismark hwhite hcomment hdangle hahead'
    obtain ⟨ls', hls', hcompacts, hhead⟩ := hls₂.exists_compacts
      Value.Compact.valueTightness_harmless hdangle₂ hahead' none false
    rw [hcompact] at hls'
    have hown := @splitImportant_of_mark (Value.Compact.compact valueTightness kept) []
      "important".toList [] (by simp) (by unfold IsImportant; decide) (by simp)
    have hconcat : Lexeme.concat ls' = Value.Compact.compact valueTightness kept ++
        '!' :: ([] ++ ("important".toList ++ [])) := hls'.concat_eq
    refine ⟨ls', by simpa [compactMark] using hls', hcompacts.marks.trans hmarks, hcompacts.ends,
      Lexeme.isTrivia_head? (hhead rfl), ?_, by rw [hconcat]; exact hown.2⟩
    rw [hconcat, hown.1, Text.trimEnd, dropTrailing_eq_self_iff, hlast]
    exact hkept rfl

/-! ### The parts of a declaration -/

namespace Plainly

variable {text ahead : List Char}

/-- A colon is spelled as one. -/
private theorem lexeme_colon {ls : List Lexeme} (h : Plainly ahead text ls) {colon : Token}
    (hmem : colon.lexeme ∈ ls) (hcolon : colon.kind = .colon) : colon.lexeme = ⟨.colon, [':']⟩ := by
  have hspells := h.lexes.spells colon.lexeme hmem
  have hkind : colon.lexeme.kind = .colon := hcolon
  rw [hkind] at hspells
  exact congrArg₂ Lexeme.mk hkind hspells

/-- Neither the space in front of a colon nor the colon starts with a star, so what stands in front
of them does not end with the start of a comment. -/
private theorem exists_head_ne_star {gap trivia : List Token} {colon : Token}
    (h : Plainly ahead text ((gap ++ colon :: trivia).map Token.lexeme))
    (hgap : ∀ t ∈ gap, t.isSpace = true) (hcolon : colon.kind = .colon) :
    ∃ c, text.head? = some c ∧ c ≠ '*' := by
  cases gap with
  | nil =>
    rw [List.nil_append, List.map_cons, h.lexeme_colon (by simp) hcolon] at h
    obtain ⟨c, cs, htext, hc, -⟩ := h.exists_head
    obtain ⟨rfl, -⟩ := List.cons.inj htext
    exact ⟨_, hc, by decide⟩
  | cons t gap =>
    obtain ⟨c, cs, htext, hc, hspells, -⟩ := h.exists_head
    refine ⟨c, hc, ?_⟩
    rintro rfl
    have hspace := hgap t List.mem_cons_self
    rw [show t.lexeme.kind = .space from beq_iff_eq.mp hspace, htext] at hspells
    cases hspells '*' List.mem_cons_self

/-- **A property can stand in front of the colon**: it does not end in space, and no backslash at
its end takes the colon along. -/
private theorem before_colon {property : List Token}
    (h : Plainly ahead text (property.map Token.lexeme)) (hstar : ahead.head? ≠ some '*')
    (hends : ∀ t ∈ property.getLast?, t.isSpace = false)
    (hdangle : ∀ l ∈ property.map Token.lexeme, l.kind = .word → dangles l.text = false)
    (more : List Char) : Plainly (':' :: more) text (property.map Token.lexeme) := by
  refine h.change hstar (by simp) fun l hl => ?_
  have hmem := List.mem_of_getLast? hl
  have hat := h.kind_ne_atWord l hmem
  rw [List.getLast?_map] at hl
  obtain ⟨t, ht, rfl⟩ := Option.map_eq_some_iff.mp hl
  have hspace : t.lexeme.kind ≠ .space := beq_eq_false_iff_ne.mp (hends t ht)
  cases hkind : t.lexeme.kind with
  | space => contradiction
  | atWord => contradiction
  | word =>
    refine (Token.follows_word (by simp)).mpr ⟨fun c hc => ?_, ?_⟩
    · obtain rfl : ':' = c := by simpa using hc
      exact .inl rfl
    · simp [hdangle _ hmem hkind]
  | _ => trivial

end Plainly

/-- What stands between a property and a value opens and closes nothing. -/
private theorem marks_between {gap trivia : List Token} {colon : Token}
    (hgap : ∀ t ∈ gap, t.isSpace = true) (hcolon : colon.kind = .colon)
    (htrivia : ∀ t ∈ trivia, t.isTrivia = true) :
    Lexeme.marks ((gap ++ colon :: trivia).map Token.lexeme) = [] := by
  refine Lexeme.marks_eq_nil fun l hl => ?_
  obtain ⟨t, ht, rfl⟩ := List.mem_map.mp hl
  show t.kind.isMark = false
  simp only [List.mem_append, List.mem_cons] at ht
  rcases ht with ht | rfl | ht
  · rw [beq_iff_eq.mp (hgap t ht)]
    rfl
  · rw [hcolon]
    rfl
  · have := htrivia t ht
    rw [Token.isTrivia] at this
    cases hkind : t.kind <;> first | rfl | (rw [hkind] at this; cases this)

/-- No trivia is dropped where none leads. -/
private theorem Lexeme.dropWhile_isTrivia {ls : List Lexeme}
    (h : ∀ l ∈ ls.head?, l.kind.isTrivia = false) :
    (ls.map Lexeme.token).dropWhile Token.isTrivia = ls.map Lexeme.token := by
  cases ls with
  | nil => rfl
  | cons l ls =>
    rw [List.map_cons, List.dropWhile_cons_of_neg]
    simpa [Token.isTrivia, Lexeme.token] using h l rfl

/-- How the compact layout writes a declaration. -/
theorem Content.compactText_declaration (property value : String) (important : Bool) :
    (Content.declaration property value important).compactText =
      property.toList ++ ':' ::
        (Value.Compact.compact valueTightness value.toList ++ compactMark important) := by
  cases important <;> simp [compactText, Layout.compactHead, Value.compactValue, compactMark,
    Layout.semicolonIf]

/-- **A declaration** from its property and its value with the mark. -/
theorem Content.ReadFrom.of_value {property : List Token} {colon : Token} {ls : List Lexeme}
    (hne : property ≠ []) (hends : ∀ t ∈ property.getLast?, t.isSpace = false)
    (hfirst : ∀ t ∈ property.head?, t.kind ≠ .atWord) (hother : ∀ t ∈ property, t.kind ≠ .colon)
    (hcolon : colon.kind = .colon) (hhead : ∀ l ∈ ls.head?, l.kind.isTrivia = false) :
    (Content.declaration (Token.concat property)
      (String.ofList (splitImportant (Lexeme.concat ls)).1)
      (splitImportant (Lexeme.concat ls)).2.isSome).ReadFrom
        (property ++ colon :: ls.map Lexeme.token) := by
  have hcontent : Statement.content property = property := dropTrailing_eq_self_iff.mpr hends
  have hread : Content.ReadFrom (property ++ colon :: ls.map Lexeme.token) _ :=
    .declaration (by rwa [List.head?_append_of_ne_nil _ hne])
      (DeclarationParts.ofTokens_eq_ok_iff.mpr
        ⟨property, colon, ls.map Lexeme.token, rfl, hother, hcolon, by rwa [hcontent], rfl⟩)
  rw [DeclarationParts.ofHalves, Lexeme.dropWhile_isTrivia hhead, Token.toList_concat,
    Lexeme.map_lexeme_token] at hread
  simpa only [hcontent, Option.isSome_map] using hread

/-- Space opens and closes nothing. -/
private theorem Lexeme.marks_of_spaces {ls : List Lexeme} (h : ∀ l ∈ ls, l.kind = .space) :
    Lexeme.marks ls = [] :=
  Lexeme.marks_eq_nil fun l hl => by rw [h l hl]; rfl

/-! ### At-words and parameters -/

section AtRules

variable {text ahead : List Char} {first : Token} {name : List Char} {gap ls : List Lexeme}
  {last : Token.Mode}

/-- The characters of an at-word. -/
theorem Token.Scans.atWord_spec {c : Char} {text rest : List Char} {mode : Token.Mode}
    (h : Scans c (text ++ rest) mode .atWord text.length) :
    c = '@' ∧ ∀ d ∈ text, Token.endsAtWord d = false := by
  generalize hn : text.length = n at h
  cases h with
  | punctuation _ hpunctuation => exact absurd rfl (Token.kind_of_punctuation? hpunctuation).2.2.1
  | atWord _ hat =>
    refine ⟨hat, fun d hd => ?_⟩
    simpa using (Token.length_takeWhile_append_iff.mp hn.symm).1 d hd

/-- **An at-word is read again** in front of whatever ends it. -/
theorem Lexes.exists_atWord (hkind : first.kind = .atWord)
    (h : Lexes .plain text ahead (first.lexeme :: ls) last) :
    ∃ name, first.text.toList = '@' :: name ∧ (∀ c ∈ name, Token.endsAtWord c = false) ∧
      ∀ more ahead' ls' last', (∀ c ∈ (more ++ ahead').head?, Token.endsAtWord c = true) →
        Lexes .plain more ahead' ls' last' →
          Lexes .plain ('@' :: name ++ more) ahead' (first.lexeme :: ls') last' := by
  generalize hlexeme : first.lexeme = l at h
  cases h with
  | @cons _ _ kind c name cs _ _ hscan htail =>
    obtain rfl : first.kind = kind := congrArg Lexeme.kind hlexeme
    have htext : first.text.toList = c :: name := congrArg Lexeme.text hlexeme
    rw [hkind] at hscan ⊢
    obtain ⟨rfl, hname⟩ := hscan.atWord_spec
    refine ⟨name, htext, hname, fun more ahead' ls' last' hends hmore => .cons (hscan.change
      ((Token.follows_atWord (by simp)).mpr hends)) ?_⟩
    rwa [Token.Mode.after_eq_plain _ _ _ (by simp) (by simp)]

/-- **A space stands in front of the parameters** of an at-rule, if there are any. -/
def paramsText (params : List Char) : List Char := if params = [] then [] else ' ' :: params

/-- How the compact layout writes an at-rule. -/
theorem Content.compactText_atRule (name params : String) (hasBody : Bool) :
    (Content.atRule name params hasBody).compactText =
      '@' :: name.toList ++ paramsText (Value.Compact.compact valueTightness params.toList) := by
  rw [compactText, Layout.compactHead, paramsText]
  by_cases hnil : Value.Compact.compact valueTightness params.toList = [] <;>
    simp [Value.compactParams, Value.compactValue, Layout.semicolonIf, hnil]

/-- **Parameters are read behind the space.** -/
theorem Lexes.exists_gap {params closing : List Char}
    (h : Lexes .plain (params ++ closing) ahead ls last)
    (hhead : ∀ c ∈ params.head?, isBlank c = false)
    (hends : ∀ c ∈ (closing ++ ahead).head?, Token.endsAtWord c = true) :
    ∃ gap, (∀ l ∈ gap, l.kind = .space) ∧ (params = [] → gap = []) ∧
      Lexes .plain (paramsText params ++ closing) ahead (gap ++ ls) last ∧
        ∀ c ∈ (paramsText params ++ closing ++ ahead).head?, Token.endsAtWord c = true := by
  by_cases hnil : params = []
  · subst hnil
    exact ⟨[], by simp, fun _ => rfl, h, hends⟩
  · obtain ⟨c, params, rfl⟩ := List.exists_cons_of_ne_nil hnil
    have hblank : isBlank c = false := hhead c rfl
    have hscan : Scans ' ' ([] ++ (c :: params ++ closing ++ ahead)) .plain .space
        ([] : List Char).length := by
      have hreach : ((c :: params ++ closing ++ ahead).takeWhile isBlank).length = 0 := by
        simp [hblank]
      rw [List.length_nil, ← hreach]
      exact .space (by simp) rfl
    refine ⟨[⟨.space, [' ']⟩], by simp, by simp, ?_, ?_⟩
    · refine .cons hscan ?_
      rwa [Token.Mode.after_eq_plain _ _ _ (by simp) (by simp)]
    · simp [paramsText, Token.endsAtWord, isBlank]

/-- **The head of an at-rule** from its name and its parameters. -/
theorem Content.ReadFrom.of_params (hkind : first.kind = .atWord)
    (hname : first.text.toList = '@' :: name) (hgap : ∀ l ∈ gap, l.kind = .space)
    (hhead : ∀ l ∈ ls.head?, l.kind ≠ .space) (hasBody : Bool) :
    (Content.atRule (String.ofList name) (String.ofList (Lexeme.concat ls)) hasBody).ReadFrom
      (first :: (gap ++ ls).map Lexeme.token) := by
  have hread : Content.ReadFrom (first :: (gap ++ ls).map Lexeme.token) _ :=
    .atRule rfl hkind hasBody
  have hparams : (AtRuleHead.ofTokens (first :: (gap ++ ls).map Lexeme.token)).params =
      String.ofList (Lexeme.concat ls) := by
    show Token.concat (((gap ++ ls).map Lexeme.token).dropWhile Token.isSpace) = _
    have hspaces : ∀ t ∈ gap.map Lexeme.token, t.isSpace = true := by
      intro t ht
      obtain ⟨l, hl, rfl⟩ := List.mem_map.mp ht
      exact beq_iff_eq.mpr (hgap l hl)
    have hrest : (ls.map Lexeme.token).dropWhile Token.isSpace = ls.map Lexeme.token := by
      cases ls with
      | nil => rfl
      | cons l ls => exact List.dropWhile_cons_of_neg (by
        simpa [Token.isSpace, Lexeme.token] using hhead l rfl)
    rw [List.map_append, List.dropWhile_append_of_pos hspaces, hrest, ← String.toList_inj,
      Token.toList_concat, Lexeme.map_lexeme_token, String.toList_ofList]
  have hsame : (AtRuleHead.ofTokens (first :: (gap ++ ls).map Lexeme.token)).name =
      String.ofList name := by
    simp [AtRuleHead.ofTokens, hname]
  rwa [hparams, hsame] at hread

end AtRules

namespace Statement.Stands

variable {run : List Token} {depth : Nat} {text ahead ahead' : List Char}

/-- **The head of a rule.** -/
theorem compact_rule (h : Stands run depth text ahead) (hplain : Plain run)
    (hfirst : ∀ t ∈ run.head?, t.kind ≠ .atWord) (hahead : ahead ≠ []) (hahead' : Stops ahead') :
    ∃ run', Stands run' depth (Value.Compact.compact selectorTightness text) ahead' ∧
      (Content.rule (String.ofList (Value.Compact.compact selectorTightness text))).ReadFrom
        run' := by
  obtain ⟨last, -, hlexes⟩ := h.lexes
  have hls := hplain.plainly hfirst hlexes
  obtain ⟨ls', hls', hcompacts, hlead⟩ := hls.exists_compacts
    Value.Compact.selectorTightness_harmless (hls.dangles_eq_false hahead) hahead'.wordEnds none
      false
  replace hlead := (hlead rfl).trans (Lexeme.lead?_of_starts h.starts)
  have hwhite := hplain.white_concat
  rw [hls.concat_eq] at hwhite
  rw [← hls.write_units hwhite selectorTightness none false] at hls'
  have hhead : (ls'.map Lexeme.token).head?.map Token.kind = run.head?.map Token.kind := by
    rw [← hlead, List.head?_map, Option.map_map]
    rfl
  have hof (P : Token.Kind → Prop) (hP : ∀ t ∈ run.head?, P t.kind) :
      ∀ t ∈ (ls'.map Lexeme.token).head?, P t.kind := by
    intro t ht
    rw [Option.mem_def.mp ht, Option.map_some] at hhead
    obtain ⟨u, hu, hkind⟩ := Option.map_eq_some_iff.mp hhead.symm
    rw [← hkind]
    exact hP u hu
  have hstands : Stands (ls'.map Lexeme.token) depth (Value.Compact.compact selectorTightness text)
      ahead' := by
    refine Plainly.stands (by rwa [Lexeme.map_lexeme_token])
      (hof (·.startsStatement = true) h.starts) ?_ ?_
    · refine (Lexeme.depth?_eq ?_ 0).trans h.depth
      rw [Lexeme.map_lexeme_token, hcompacts.marks]
    · intro t ht
      rw [List.getLast?_map] at ht
      obtain ⟨l, hl, rfl⟩ := Option.map_eq_some_iff.mp ht
      exact beq_eq_false_iff_ne.mpr (hcompacts.ends l hl)
  refine ⟨_, hstands, ?_⟩
  have hcontent := Content.ReadFrom.rule (hof (· ≠ .atWord) hfirst)
  rwa [← String.ofList_toList (s := Token.concat _), hstands.text_eq] at hcontent

/-- **The head of an at-rule.** -/
theorem compact_atRule (h : Stands run depth text ahead) (hplain : Plain run) {first : Token}
    (hfirst : run.head? = some first) (hkind : first.kind = .atWord) (hasBody : Bool)
    (hahead : ahead ≠ []) (hahead' : Stops ahead') :
    ∃ run', Stands run' depth (Content.atRule (AtRuleHead.ofTokens run).name
        (AtRuleHead.ofTokens run).params hasBody).compactText ahead' ∧
      (Content.atRule (AtRuleHead.ofTokens run).name
        (AtRuleHead.ofTokens run).params hasBody).compacted.ReadFrom run' := by
  obtain ⟨rest, rfl⟩ := List.head?_eq_some_iff.mp hfirst
  obtain ⟨last, -, hlexes⟩ := h.lexes
  obtain ⟨cs, rfl, hspells, -, hrest⟩ := hlexes.of_cons
  replace hrest := hrest (by simp [hkind]) (by simp [hkind])
  obtain ⟨hplain', hat⟩ := @Plain.of_suffix [first] rest hplain (by simp)
  have hls := hplain'.plainly (fun t ht => hat t (List.mem_of_mem_head? ht)) hrest
  obtain ⟨name, hname, -, hfront⟩ := hlexes.exists_atWord hkind
  -- The parameters are what stands behind the blank space.
  obtain ⟨spaces, params, hspaces, hparams⟩ : ∃ spaces params,
      rest.takeWhile Token.isSpace = spaces ∧ rest.dropWhile Token.isSpace = params :=
    ⟨_, _, rfl, rfl⟩
  have hcut : rest = spaces ++ params := by
    rw [← hspaces, ← hparams, List.takeWhile_append_dropWhile]
  have hspace : ∀ t ∈ spaces, t.kind = .space := by
    intro t ht
    rw [← hspaces] at ht
    simpa [Token.isSpace] using List.mem_takeWhile_imp ht
  have hwhite := hplain'.white_concat
  rw [hcut, List.map_append] at hls hwhite
  obtain ⟨blank, text, rfl, -, hls⟩ := hls.exists_of_append
  obtain ⟨ls', hls', hcompacts, hlead⟩ := hls.exists_compacts
    Value.Compact.valueTightness_harmless (hls.dangles_eq_false hahead) hahead'.wordEnds none false
  rw [← hls.write_units (fun c hc => hwhite c (by
    rw [Lexeme.concat_append, hls.concat_eq]; exact List.mem_append_right _ hc))
    valueTightness none false] at hls'
  change Plainly ahead' (Value.Compact.compact valueTightness text) ls' at hls'
  -- A space stands in front of the parameters, if there are any.
  replace hlead := Lexeme.isTrivia_head? (hlead rfl)
  have hspaceless : ∀ l ∈ ls'.head?, l.kind ≠ .space := by
    rintro l hl hkind
    have htrivia := hlead l hl
    rw [hkind] at htrivia
    cases htrivia
  have hhead : ∀ c ∈ (Value.Compact.compact valueTightness text).head?, isBlank c = false := by
    intro c hc
    cases ls' with
    | nil => simp [hls'.text_eq_nil_iff.mpr rfl] at hc
    | cons l ls' =>
      obtain ⟨d, ds, -, hd, -, hblank⟩ := hls'.exists_head
      obtain rfl : d = c := Option.some.inj (hd.symm.trans hc)
      exact hblank (hspaceless l rfl)
  have hlexes' := hls'.lexes
  rw [← List.append_nil (Value.Compact.compact valueTightness text)] at hlexes'
  obtain ⟨gap, hgap, hnone, hmore, hends⟩ := hlexes'.exists_gap hhead hahead'.endsAtWord
  rw [List.append_nil] at hmore hends
  have hofName : (AtRuleHead.ofTokens (first :: rest)).name = String.ofList name := by
    simp [AtRuleHead.ofTokens, hname]
  have hofParams : (AtRuleHead.ofTokens (first :: rest)).params = String.ofList text := by
    rw [← String.toList_inj, String.toList_ofList, ← hls.concat_eq, ← Token.toList_concat,
      ← hparams]
    rfl
  rw [hofName, hofParams, Content.compactText_atRule, String.toList_ofList, String.toList_ofList]
  refine ⟨first :: (gap ++ ls').map Lexeme.token,
    ⟨by simpa using h.starts, ?_, ?_, .plain, by simp, ?_⟩, ?_⟩
  · refine (Lexeme.depth?_eq ?_ 0).trans h.depth
    have hspaces' : ∀ l ∈ spaces.map Token.lexeme, l.kind = .space := by
      intro l hl
      obtain ⟨t, ht, rfl⟩ := List.mem_map.mp hl
      exact hspace t ht
    have hmark : first.lexeme.kind.isMark = false := by
      rw [show first.lexeme.kind = .atWord from hkind]
      rfl
    rw [List.map_cons, List.map_cons, Lexeme.map_lexeme_token,
      Lexeme.marks_cons_of_not_isMark _ hmark, Lexeme.marks_cons_of_not_isMark _ hmark, hcut,
      List.map_append, Lexeme.marks_append, Lexeme.marks_append, hcompacts.marks,
      Lexeme.marks_of_spaces hgap, Lexeme.marks_of_spaces hspaces']
  · intro t ht
    rcases List.eq_nil_or_concat ls' with rfl | ⟨front, l, rfl⟩
    · obtain rfl : first = t := by simpa [hnone (hls'.text_eq_nil_iff.mpr rfl)] using ht
      simp [Token.isSpace, hkind]
    · obtain rfl : l.token = t := by simpa [List.getLast?_cons] using ht
      exact beq_eq_false_iff_ne.mpr (hcompacts.ends l (by simp))
  · rw [List.map_cons, Lexeme.map_lexeme_token]
    exact hfront _ _ _ _ hends hmore
  · have hread := Content.ReadFrom.of_params hkind hname hgap hspaceless hasBody
    rw [hls'.concat_eq] at hread
    simpa [Content.compacted, Value.compactParams, Value.compactValue] using hread

/-- **The head of a declaration.** -/
theorem compact_declaration (h : Stands run depth text ahead) (hplain : Plain run)
    (hfirst : ∀ t ∈ run.head?, t.kind ≠ .atWord) {parts : DeclarationParts}
    (hparts : DeclarationParts.ofTokens run = .ok parts)
    (hvalues : ∀ front colon back, run = front ++ colon :: back → (∀ t ∈ front, t.kind ≠ .colon) →
      colon.kind = .colon → ∀ t ∈ back.dropWhile Token.isTrivia, t.kind ≠ .comment)
    (hahead : ahead ≠ []) (hahead' : Stops ahead') :
    ∃ run', Stands run' depth (Content.declaration parts.property parts.value
        parts.important.isSome).compactText ahead' ∧
      (Content.declaration parts.property parts.value
        parts.important.isSome).compacted.ReadFrom run' := by
  obtain ⟨front, colon, back, rfl, hfront, hcolon, hne, rfl⟩ :=
    DeclarationParts.ofTokens_eq_ok_iff.mp hparts
  have hcomment := hvalues front colon back rfl hfront hcolon
  obtain ⟨last, -, hlexes⟩ := h.lexes
  have hls := hplain.plainly hfirst hlexes
  have hdangle := hls.dangles_eq_false hahead
  have hwhite := hplain.white_concat
  -- The property, what stands between it and the value, and the value.
  obtain ⟨property, gap, hproperty, hgap⟩ : ∃ property gap, content front = property ∧
      Statement.gap front = gap := ⟨_, _, rfl, rfl⟩
  obtain ⟨trivia, value, htrivia, hvalue⟩ : ∃ trivia value,
      back.takeWhile Token.isTrivia = trivia ∧ back.dropWhile Token.isTrivia = value :=
    ⟨_, _, rfl, rfl⟩
  have hfrontCut : front = property ++ gap := by
    rw [← hproperty, ← hgap, content, Statement.gap, dropTrailing_append_takeTrailing]
  have hbackCut : back = trivia ++ value := by
    rw [← htrivia, ← hvalue, List.takeWhile_append_dropWhile]
  have hpropertyEnds : ∀ t ∈ property.getLast?, t.isSpace = false := by
    rw [← hproperty]
    exact dropTrailing_eq_self_iff.mp (dropTrailing_dropTrailing _)
  rw [hproperty] at hne
  rw [hvalue] at hcomment
  have hlexemes : (front ++ colon :: back).map Token.lexeme = property.map Token.lexeme ++
      ((gap ++ colon :: trivia).map Token.lexeme ++ value.map Token.lexeme) := by
    rw [hfrontCut, hbackCut]
    simp
  rw [hlexemes] at hls hdangle hwhite
  rw [hls.concat_eq] at hwhite
  obtain ⟨propertyText, rest, rfl, hpropertyLs, hrest⟩ := hls.exists_of_append
  obtain ⟨betweenText, valueText, rfl, hbetweenLs, hvalueLs⟩ := hrest.exists_of_append
  have hvalueText : (Token.concat value).toList = valueText := by
    rw [Token.toList_concat, hvalueLs.concat_eq]
  have hpropertyText : (Token.concat property).toList = propertyText := by
    rw [Token.toList_concat, hpropertyLs.concat_eq]
  obtain ⟨ls', hls', hmarks, hends, hhead, hkept, hmark⟩ := hvalueLs.exists_compact_value
    (fun c hc => hwhite c (by simp [hc])) (fun l hl => by
      obtain ⟨t, ht, rfl⟩ := List.mem_map.mp hl
      exact hcomment t ht) hahead hahead'.wordEnds
  -- The property is read again in front of the colon.
  have hgapSpace : ∀ t ∈ gap, t.isSpace = true := by
    rw [← hgap]
    exact fun t => of_mem_takeTrailing
  have htriviaKind : ∀ t ∈ trivia, t.isTrivia = true := by
    rw [← htrivia]
    exact fun t => List.mem_takeWhile_imp
  have hcolonText := hbetweenLs.lexeme_colon (by simp) hcolon
  have hstar : (betweenText ++ valueText ++ ahead).head? ≠ some '*' := by
    obtain ⟨c, hc, hne⟩ := hbetweenLs.exists_head_ne_star hgapSpace hcolon
    simpa [hc] using hne
  generalize hwhole : Value.Compact.compact valueTightness (splitImportant valueText).1 ++
    compactMark (splitImportant valueText).2.isSome = whole at *
  have hback : Plainly ahead' (':' :: whole) (⟨.colon, [':']⟩ :: ls') :=
    @Plainly.cons ahead' .colon ':' [] whole ls' (.punctuation (by simp) rfl) (by simp) rfl hls'
  have hproperty' := hpropertyLs.before_colon hstar hpropertyEnds
    (fun l hl => hdangle l (List.mem_append_left _ hl)) (whole ++ ahead')
  have hall := hproperty'.append hback
  have hrun : (property ++ colon :: ls'.map Lexeme.token).map Token.lexeme =
      property.map Token.lexeme ++ ⟨.colon, [':']⟩ :: ls' := by
    rw [List.map_append, List.map_cons, Lexeme.map_lexeme_token, hcolonText]
  have hbetween := marks_between hgapSpace hcolon htriviaKind
  have hstart : property.head? = (front ++ colon :: back).head? := by
    rw [hfrontCut, List.append_assoc, List.head?_append_of_ne_nil _ hne]
  refine ⟨property ++ colon :: ls'.map Lexeme.token, ?_, ?_⟩
  · have htext : (Content.declaration (DeclarationParts.ofHalves front colon back).property
        (DeclarationParts.ofHalves front colon back).value
        (DeclarationParts.ofHalves front colon back).important.isSome).compactText =
          propertyText ++ ':' :: whole := by
      rw [← hwhole, ← hpropertyText, Content.compactText_declaration, DeclarationParts.ofHalves,
        hproperty, hvalue, hvalueText, String.toList_ofList, Option.isSome_map]
    rw [htext]
    refine Plainly.stands (by rw [hrun]; exact hall) ?_ ?_ ?_
    · rw [List.head?_append_of_ne_nil _ hne, hstart]
      exact h.starts
    · refine (Lexeme.depth?_eq ?_ 0).trans h.depth
      rw [hrun, hlexemes, Lexeme.marks_append, Lexeme.marks_append, Lexeme.marks_append,
        Lexeme.marks_cons_of_not_isMark _ rfl, hmarks, hbetween, List.nil_append]
    · intro t ht
      rcases List.eq_nil_or_concat ls' with rfl | ⟨ls'', l, rfl⟩
      · obtain rfl : colon = t := by
          rw [List.map_nil, List.getLast?_append_of_ne_nil _ (by simp)] at ht
          simpa using ht
        simp [Token.isSpace, hcolon]
      · obtain rfl : l.token = t := by simpa [List.getLast?_append, List.getLast?_cons] using ht
        exact beq_eq_false_iff_ne.mpr (hends l (by simp))
  · have hread := Content.ReadFrom.of_value hne hpropertyEnds (hstart ▸ hfirst)
      (fun t ht => hfront t (hfrontCut ▸ List.mem_append_left gap ht)) hcolon hhead
    rw [hkept, hmark] at hread
    simpa only [Content.compacted, DeclarationParts.ofHalves, hproperty, hvalue, hvalueText,
      Value.compactValue, String.toList_ofList, Option.isSome_map] using hread

/-- **The compact head of a node is read as the compacted node.** -/
theorem exists_compact {c : Content} (h : Stands run depth text ahead) (hplain : Plain run)
    (hcontent : c.ReadFrom run)
    (hvalues : c.opensBlock = false → (∀ t ∈ run.head?, t.kind ≠ .atWord) → ∀ front colon back,
      run = front ++ colon :: back → (∀ t ∈ front, t.kind ≠ .colon) → colon.kind = .colon →
        ∀ t ∈ back.dropWhile Token.isTrivia, t.kind ≠ .comment)
    (hahead : ahead ≠ []) (hahead' : Stops ahead') :
    ∃ run', Stands run' depth c.compactText ahead' ∧ c.compacted.ReadFrom run' := by
  cases hcontent with
  | rule hfirst =>
    have htext : (Content.rule (Token.concat run)).compactText =
        Value.Compact.compact selectorTightness text := by
      simp [Content.compactText, Layout.compactHead, Value.compactSelector, h.text_eq]
    have hcompacted : (Content.rule (Token.concat run)).compacted =
        .rule (String.ofList (Value.Compact.compact selectorTightness text)) := by
      simp [Content.compacted, Value.compactSelector, h.text_eq]
    rw [htext, hcompacted]
    exact h.compact_rule hplain hfirst hahead hahead'
  | atRule hfirst hkind hasBody =>
    exact h.compact_atRule hplain hfirst hkind hasBody hahead hahead'
  | declaration hfirst hparts =>
    exact h.compact_declaration hplain hfirst hparts (hvalues rfl hfirst) hahead hahead'

end Statement.Stands

end LosslessCss
