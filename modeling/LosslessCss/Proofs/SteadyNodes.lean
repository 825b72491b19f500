import LosslessCss.Proofs.ReadableHeads

/-!
# Nodes that are read as they were written

Where all addresses of a node close, what the compact layout writes of it can be read.  It is read as
the same node again, with its texts compacted, if in addition nothing at the borders of its parts is
mistaken (`Content.isSteady`): no white space that the lexical grammar knows as a part of a word is
dropped in front of a selector, no backslash takes along what the layout puts behind it, no at-word
runs into the colon, and a value has a mark exactly if it had one.

## Main Definitions

* `Content.isSteady`
* `Content.closesAll` : no parenthesis and no bracket is open behind a node

## Main Statements

* `Content.ReadFrom.compacts`
* `Forest.Standing.compactable`
-/

namespace LosslessCss

open Token (Mode Kind Scans Breaks isBlank)
open Watch (plain Readable)
open Value.Compact (Tightness selectorTightness valueTightness selectorTightness_harmless
  valueTightness_harmless)

/-! ### Where a text starts and where it ends -/

/-- **The kind of a token** that starts with the character and is no comment. -/
def Token.leadingKind (c : Char) : Kind :=
  if isBlank c then .space
  else (punctuation? c).getD
    (if Value.isQuote c then .string else if c = '@' then .atWord else .word)

namespace Token.Scans

variable {c : Char} {cs : List Char} {kind : Kind} {n : Nat}

theorem kind_eq_leadingKind (h : Scans c cs .plain kind n) (hkind : kind ≠ .comment) :
    kind = leadingKind c := by
  cases h with
  | space _ hblank => simp [leadingKind, hblank]
  | punctuation _ hpunctuation =>
    have hblank : isBlank c = false := by
      by_contra hblank
      simp only [Bool.not_eq_false, isBlank, Bool.or_eq_true, beq_iff_eq] at hblank
      rcases hblank with (((rfl | rfl) | rfl) | rfl) | rfl <;> cases hpunctuation
    simp [leadingKind, hblank, hpunctuation]
  | string _ hquote => rcases hquote with rfl | rfl <;> rfl
  | comment => contradiction
  | atWord _ hat => rw [hat]; rfl
  | word _ hstart =>
    obtain ⟨hblank, hpunctuation, hsingle, hdouble, hat, -⟩ := hstart
    simp [leadingKind, hblank, hpunctuation, Value.isQuote, hsingle, hdouble, hat]

/-- What is read at the start of a comment is a comment. -/
theorem not_isPrefix (h : Scans c cs .plain kind n) (hkind : kind ≠ .comment) :
    ¬['/', '*'] <+: c :: cs := by
  rintro ⟨more, hmore⟩
  obtain ⟨rfl, rfl⟩ := List.cons.inj hmore
  cases h with
  | space _ hblank => cases hblank
  | punctuation _ hpunctuation => cases hpunctuation
  | string _ hquote => rcases hquote with hquote | hquote <;> cases hquote
  | comment => contradiction
  | atWord _ hat => cases hat
  | word _ hstart => exact hstart.2.2.2.2.2 ⟨rfl, rfl⟩

end Token.Scans

namespace Lexes

variable {text ahead : List Char} {ls : List Lexeme} {last mode : Mode}

/-- **What starts with the same character** starts with the same kind of token, comments apart. -/
theorem head?_kind (h : Lexes .plain text ahead ls last)
    (hcomment : ∀ l ∈ ls.head?, l.kind ≠ .comment) :
    ls.head?.map Lexeme.kind = text.head?.map Token.leadingKind := by
  cases h with
  | nil => rfl
  | cons hscan _ => exact congrArg some (hscan.kind_eq_leadingKind (hcomment _ rfl))

/-- A text that starts with another token starts with no comment. -/
theorem not_isPrefix (h : Lexes .plain text ahead ls last)
    (hcomment : ∀ l ∈ ls.head?, l.kind ≠ .comment) : ¬['/', '*'] <+: text := by
  cases h with
  | nil => simp
  | cons hscan _ =>
    intro hstart
    refine hscan.not_isPrefix (hcomment _ rfl) (hstart.trans ?_)
    rw [← List.append_assoc]
    exact List.prefix_append _ ahead

/-- **A text that ends with space** ends with a blank character, in front of which it is read. -/
theorem exists_last_blank (h : Lexes mode text ahead ls last)
    (hurls : plain.urlsClose false text = true) (hexpects : mode.Expects text) {l : Lexeme}
    (hl : l ∈ ls.getLast?) (hspace : l.kind = .space) :
    ∃ front c, text = front ++ [c] ∧ isBlank c = true ∧ (plain.after front).isReading = true := by
  induction h with
  | nil => cases hl
  | @cons mode last kind c text cs rest ls hscan htail ih =>
    have hexpects' : mode.Expects (c :: text ++ (cs ++ rest)) := by
      rw [← List.append_assoc]
      exact hexpects.append rest
    have hready := hscan.ready hexpects'
    cases ls with
    | nil =>
      cases htail
      obtain rfl : Lexeme.mk kind (c :: text) = l := by simpa using hl
      obtain rfl : kind = .space := hspace
      have hspells := hscan.spells
      rw [List.take_left] at hspells
      obtain ⟨front, d, hcut⟩ : ∃ front d, c :: text = front ++ [d] :=
        ⟨_, _, (List.dropLast_append_getLast (List.cons_ne_nil c text)).symm⟩
      have hblank : Watch.marks.any isBlank = false := rfl
      have hpasses : Watch.Passes 0 front [d] := Watch.passes_of_forall fun e he =>
        Watch.not_mem_marks hblank (hspells e (hcut ▸ List.mem_append_left _ he))
      exact ⟨front, d, by rw [List.append_nil, hcut], hspells d (hcut ▸ by simp),
        hpasses.ready.isReading⟩
    | cons l' ls =>
      obtain ⟨front, d, rfl, hd, hreading⟩ := ih (hscan.urlsClose hready.of_append hurls)
        (hexpects.after hscan hurls) (by simpa using hl)
      refine ⟨c :: text ++ front, d, by simp, hd, ?_⟩
      rw [Watch.after_append]
      by_cases hnil : front = []
      · subst hnil
        exact hready.isReading
      · rwa [hready.of_append.of_append.eq_plain.1 hnil]

/-- **A text that does not start with white space** does not start with trivia, if it has no
comments. -/
theorem isTrivia_head? (h : Lexes .plain text ahead ls last)
    (hwhite : ∀ c ∈ text.head?, Text.isWhiteSpace c = false)
    (hcomment : ∀ l ∈ ls, l.kind ≠ .comment) : ∀ l ∈ ls.head?, l.kind.isTrivia = false := by
  cases h with
  | nil => simp
  | @cons _ _ kind c text cs _ ls hscan _ =>
    intro l hl
    obtain rfl : Lexeme.mk kind (c :: text) = l := Option.some.inj hl
    have hspells := hscan.spells
    rw [List.take_left] at hspells
    have hblank : isBlank c = false := Text.isBlank_eq_false (hwhite c rfl)
    have hnone := hcomment _ List.mem_cons_self
    cases kind with
    | space =>
      rw [hspells c List.mem_cons_self] at hblank
      cases hblank
    | comment => contradiction
    | _ => rfl

end Lexes

namespace Compacted

variable {tight : Tightness} {cs ds ahead : List Char} {ls : List Lexeme} {last : Mode}

/-- **The compact form starts as the text does**, if that starts with no white space and with no
comment. -/
theorem head?_eq (h : Compacted tight none cs ds)
    (hwhite : ∀ c ∈ cs.head?, Text.isWhiteSpace c = false) (hcomment : ¬['/', '*'] <+: cs) :
    ds.head? = cs.head? := by
  have hgap {behind gap : List Char} (hgap : Value.Compact.IsGap behind gap) (hcut : gap <+: cs) :
      gap = [] := by
    cases hgap with
    | nil => rfl
    | @white c _ hc =>
      obtain ⟨more, rfl⟩ := hcut
      rw [hwhite c rfl] at hc
      cases hc
    | comment => exact absurd ((List.prefix_append ['/', '*'] _).trans hcut) hcomment
    | unclosed => exact absurd ((List.prefix_append ['/', '*'] _).trans hcut) hcomment
  cases h with
  | last hgap' => rw [hgap hgap' (List.prefix_refl _)]
  | @cons _ gap space unit cs ds hgap' hspace hunit =>
    obtain rfl := hgap hgap' (List.prefix_append _ _)
    rw [hspace, if_neg (by simp), List.nil_append, List.nil_append,
      List.head?_append_of_ne_nil _ hunit.ne_nil, List.head?_append_of_ne_nil _ hunit.ne_nil]

/-- **The compact form does not end with space.** -/
theorem kind_ne_space (h : Compacted tight none cs ds) (hout : (plain.after cs).isOutside = true)
    (hurls : plain.urlsClose false ds = true) (hls : Lexes .plain ds ahead ls last) :
    ∀ l ∈ ls.getLast?, l.kind ≠ .space := by
  intro l hl hspace
  obtain ⟨front, c, hcut, hblank, hreading⟩ := hls.exists_last_blank hurls trivial hl hspace
  have hwhite := Text.isWhiteSpace_of_isBlank hblank
  rw [h.last_spec hout hcut hreading] at hwhite
  cases hwhite

/-! Values have a mark behind them. -/

variable {important : Bool}

/-- A compact value with its mark starts with no trivia. -/
theorem isTrivia_head?_mark (h : Compacted tight none cs ds)
    (hls : Lexes .plain (ds ++ compactMark important) ahead ls last)
    (hcomment : ∀ l ∈ ls, l.kind ≠ .comment) : ∀ l ∈ ls.head?, l.kind.isTrivia = false := by
  refine hls.isTrivia_head? (fun c hc => ?_) hcomment
  rw [List.head?_append, Option.mem_def, Option.or_eq_some_iff] at hc
  rcases hc with hc | ⟨-, hc⟩
  · exact h.head c hc
  · cases important with
    | false => cases hc
    | true =>
      obtain rfl : '!' = c := Option.some.inj hc
      rfl

/-- A compact value with its mark does not end with space. -/
theorem kind_ne_space_mark (h : Compacted tight none cs ds)
    (hout : (plain.after cs).isOutside = true)
    (hurls : plain.urlsClose false (ds ++ compactMark important) = true)
    (hls : Lexes .plain (ds ++ compactMark important) ahead ls last) :
    ∀ l ∈ ls.getLast?, l.kind ≠ .space := by
  cases important with
  | false =>
    rw [compactMark, if_neg (by simp), List.append_nil] at hls hurls
    exact h.kind_ne_space hout hurls hls
  | true =>
    intro l hl hspace
    obtain ⟨text, c, hcut, hblank, -⟩ := hls.exists_last_blank hurls trivial hl hspace
    have hlast := congrArg List.getLast? hcut
    rw [List.getLast?_append_of_ne_nil _ (by decide), List.getLast?_concat] at hlast
    obtain rfl : 't' = c := Option.some.inj hlast
    cases hblank

end Compacted

/-! ### Heads that are read again -/

/-- The mark has no punctuation of statements. -/
theorem punctuation_compactMark (w : Watch) (important : Bool) :
    w.punctuation (compactMark important) = [] := by
  refine Watch.punctuation_of_forall ?_
  cases important with
  | false => simp [compactMark]
  | true => simp [compactMark, Watch.mark?, Token.punctuation?]

/-- **A compact value is split** as it was written. -/
theorem splitImportant_compact {value : List Char} {important : Bool}
    (hmarked : important = true → ∀ c ∈ value.getLast?, Text.isWhiteSpace c = false)
    (hunmarked : important = false → (splitImportant value).2 = none) :
    (splitImportant (value ++ compactMark important)).1 = value ∧
      (splitImportant (value ++ compactMark important)).2.isSome = important := by
  cases important with
  | true =>
    have hown := @splitImportant_of_mark value [] "important".toList [] (by simp)
      (by unfold IsImportant; decide) (by simp)
    have hkept : Text.trimEnd value = value := dropTrailing_eq_self_iff.mpr (hmarked rfl)
    exact ⟨hown.1.trans hkept, hown.2⟩
  | false =>
    have hcut := splitImportant_append value
    rw [hunmarked rfl, Option.getD_none, List.append_nil] at hcut
    rw [compactMark, if_neg (by simp), List.append_nil, hunmarked rfl]
    exact ⟨hcut, rfl⟩

namespace Statement.Stands

variable {run : List Token} {depth : Nat} {text ahead behind : List Char}

/-- **The head of a rule** is read again as that of the compacted rule. -/
theorem rereads_rule (h : Stands run depth text ahead) (hfirst : ∀ t ∈ run.head?, t.kind ≠ .atWord)
    (hahead : ahead ≠ []) (hurls : plain.urlsClose false text = true)
    (hwhite : ∀ c ∈ text.head?, Text.isWhiteSpace c = false) (hbehind : Breaks behind) :
    ∃ run', Stands run' depth (Value.Compact.compact selectorTightness text) behind ∧
      (Content.rule (String.ofList (Value.Compact.compact selectorTightness text))).ReadFrom
        run' := by
  obtain ⟨last, -, hlexes⟩ := h.lexes
  obtain ⟨hout, hreading, hdepth⟩ := hlexes.stretch_spec hurls
  have hcompacted := compacted_compact selectorTightness_harmless text
  have hreadable := hcompacted.readable selectorTightness_harmless (by decide) (hreading hahead) hurls
  obtain ⟨ls, last', hlast, hls, hcomment, hdepth'⟩ := hreadable.lexes hbehind
  have hstarts : ∀ l ∈ (run.map Token.lexeme).head?, l.kind ≠ .comment := by
    intro l hl hkind
    rw [List.head?_map] at hl
    obtain ⟨t, ht, rfl⟩ := Option.map_eq_some_iff.mp hl
    have hstart := h.starts t ht
    rw [show t.kind = .comment from hkind] at hstart
    cases hstart
  -- The first characters are the same, and so are the first kinds.
  have hhead : (ls.map Lexeme.token).head?.map Token.kind = run.head?.map Token.kind := by
    have hsame := hls.head?_kind fun l hl => hcomment l (List.mem_of_mem_head? hl)
    rw [hcompacted.head?_eq hwhite (hlexes.not_isPrefix hstarts), ← hlexes.head?_kind hstarts] at hsame
    rw [List.head?_map, Option.map_map] at hsame ⊢
    exact hsame
  have hof (P : Kind → Prop) (hP : ∀ t ∈ run.head?, P t.kind) :
      ∀ t ∈ (ls.map Lexeme.token).head?, P t.kind := by
    intro t ht
    rw [Option.mem_def.mp ht, Option.map_some] at hhead
    obtain ⟨u, hu, hkind⟩ := Option.map_eq_some_iff.mp hhead.symm
    rw [← hkind]
    exact hP u hu
  have hstands : Stands (ls.map Lexeme.token) depth (Value.Compact.compact selectorTightness text)
      behind := by
    refine ⟨hof (·.startsStatement = true) h.starts, ?_, fun t ht => ?_, last', hlast, by
      rwa [Lexeme.map_lexeme_token]⟩
    · rw [← Token.map_kind_lexeme, Lexeme.map_lexeme_token, hdepth', hcompacted.punctuation_eq hout,
        ← hdepth, Token.map_kind_lexeme]
      exact h.depth
    · rw [List.getLast?_map] at ht
      obtain ⟨l, hl, rfl⟩ := Option.map_eq_some_iff.mp ht
      exact beq_eq_false_iff_ne.mpr (hcompacted.kind_ne_space hout hreadable.urls hls l hl)
  refine ⟨_, hstands, ?_⟩
  have hcontent := Content.ReadFrom.rule (hof (· ≠ .atWord) hfirst)
  rwa [← String.ofList_toList (s := Token.concat _), hstands.text_eq] at hcontent

/-- **The head of an at-rule** is read again as that of the compacted at-rule. -/
theorem rereads_atRule {first : Token} {rest : List Token}
    (h : Stands (first :: rest) depth text ahead) (hkind : first.kind = .atWord) (hasBody : Bool)
    (hurls : plain.urlsClose false (AtRuleHead.ofTokens (first :: rest)).params.toList = true)
    (hunescaped :
      (plain.after (AtRuleHead.ofTokens (first :: rest)).params.toList).isUnescaped = true)
    (hbehind : Breaks behind) :
    ∃ run', Stands run' depth (Content.atRule (AtRuleHead.ofTokens (first :: rest)).name
        (AtRuleHead.ofTokens (first :: rest)).params hasBody).compactText behind ∧
      (Content.atRule (AtRuleHead.ofTokens (first :: rest)).name
        (AtRuleHead.ofTokens (first :: rest)).params hasBody).compacted.ReadFrom run' := by
  obtain ⟨hout, -, hdepth⟩ := h.params_spec hkind hurls
  obtain ⟨last, -, hlexes⟩ := h.lexes
  obtain ⟨name, hname, -, hfront⟩ := hlexes.exists_atWord hkind
  have hofName : (AtRuleHead.ofTokens (first :: rest)).name = String.ofList name := by
    simp [AtRuleHead.ofTokens, hname]
  rw [Content.compactText_atRule, Content.compacted, hofName, String.toList_ofList]
  generalize (AtRuleHead.ofTokens (first :: rest)).params = params at *
  have hcompacted := compacted_compact valueTightness_harmless params.toList
  have hreadable := hcompacted.readable valueTightness_harmless (by decide)
    (Bool.and_eq_true_iff.mpr ⟨hout, hunescaped⟩) hurls
  obtain ⟨ls, last', hlast, hls, hcomment, hdepth'⟩ := hreadable.lexes hbehind
  generalize hparams : Value.Compact.compact valueTightness params.toList = compacted at *
  have hclosed : Lexes .plain (compacted ++ []) behind ls last' := by rwa [List.append_nil]
  obtain ⟨gap, hgap, hnil, hmore, hends⟩ := hclosed.exists_gap
    (fun c hc => Text.isBlank_eq_false (hcompacted.head c hc)) hbehind.stops.endsAtWord
  rw [List.append_nil] at hmore hends
  have hrun := hfront _ _ _ _ hends hmore
  have htrivia := hls.isTrivia_head? hcompacted.head hcomment
  refine ⟨first :: (gap ++ ls).map Lexeme.token, ⟨?_, ?_, fun t ht => ?_, last', hlast, ?_⟩, ?_⟩
  · intro t ht
    obtain rfl : first = t := by simpa using ht
    rw [hkind]
    rfl
  · have hunmarked : ∀ k ∈ Kind.atWord :: gap.map Lexeme.kind, k.isMark = false := by
      refine List.forall_mem_cons.mpr ⟨rfl, fun k hk => ?_⟩
      obtain ⟨l, hl, rfl⟩ := List.mem_map.mp hk
      rw [hgap l hl]
      rfl
    have hkinds : (first :: (gap ++ ls).map Lexeme.token).map Token.kind =
        (Kind.atWord :: gap.map Lexeme.kind) ++ ls.map Lexeme.kind := by
      rw [List.map_cons, hkind, ← Token.map_kind_lexeme, Lexeme.map_lexeme_token, List.map_append,
        List.cons_append]
    rw [hkinds, depth?_append_of_unmarked hunmarked, hdepth', hcompacted.punctuation_eq hout]
    exact hdepth
  · by_cases hls' : ls = []
    · obtain rfl : gap = [] := hnil (by simpa [hls'] using hls.concat_eq.symm)
      subst hls'
      obtain rfl : first = t := by simpa using ht
      rw [Token.isSpace, hkind]
      rfl
    · rw [List.getLast?_cons, List.getLast?_map, List.getLast?_append_of_ne_nil _ hls'] at ht
      obtain ⟨l, hl⟩ := Option.isSome_iff_exists.mp (List.getLast?_isSome.mpr hls')
      rw [hl] at ht
      obtain rfl : l.token = t := by simpa using ht
      exact beq_eq_false_iff_ne.mpr (hcompacted.kind_ne_space hout hreadable.urls hls l hl)
  · rwa [List.map_cons, Lexeme.map_lexeme_token]
  · have hread := Content.ReadFrom.of_params hkind hname hgap
      (fun l hl hspace => by simpa [hspace, Kind.isTrivia] using htrivia l hl) hasBody
    rw [hls.concat_eq] at hread
    rwa [Value.compactParams, Value.compactValue, hparams]

/-- **A declaration** is read again as the compacted declaration. -/
theorem rereads_declaration {front back : List Token} {colon : Token}
    (h : Stands (front ++ colon :: back) depth text ahead)
    (hfirst : ∀ t ∈ (front ++ colon :: back).head?, t.kind ≠ .atWord)
    (hfront : ∀ t ∈ front, t.kind ≠ .colon) (hcolon : colon.kind = .colon)
    (hne : content front ≠ []) {value : List Char} {important : Bool}
    (hvalue : (splitImportant (Token.concat (back.dropWhile Token.isTrivia)).toList).1 = value)
    (hurls : plain.urlsClose false (Token.concat (content front)).toList = true)
    (hurls' : plain.urlsClose false value = true)
    (hat : ∀ t ∈ (content front).getLast?, t.kind ≠ .atWord)
    (hmarked : important = true →
      ∀ c ∈ (Value.Compact.compact valueTightness value).getLast?, Text.isWhiteSpace c = false)
    (hunmarked : important = false → (plain.after value).isUnescaped = true ∧
      (splitImportant (Value.Compact.compact valueTightness value)).2 = none)
    (hbehind : Breaks behind) :
    ∃ run', Stands run' depth ((Token.concat (content front)).toList ++ ':' ::
        (Value.Compact.compact valueTightness value ++ compactMark important)) behind ∧
      (Content.declaration (Token.concat (content front))
        (String.ofList (Value.Compact.compact valueTightness value)) important).ReadFrom run' := by
  obtain ⟨hout, -, hdepth⟩ := h.value_spec hcolon rfl (by rwa [hvalue])
  rw [hvalue] at hout hdepth
  have hcompacted := compacted_compact valueTightness_harmless value
  have hreadable := @Value.Compact.readable_value value [] important hout hurls' (.inr ⟨rfl,
    fun hnone => Bool.and_eq_true_iff.mpr ⟨hout, (hunmarked hnone).1⟩⟩)
  rw [List.append_nil] at hreadable
  obtain ⟨ls, last', hlast, hls, hcomment, hdepth'⟩ := hreadable.lexes hbehind
  obtain ⟨last, -, hlexes⟩ := h.lexes
  obtain ⟨ahead', middle, hahead', hproperty⟩ := hlexes.property_spec hcolon
  have hends : ∀ t ∈ (content front).getLast?, t.isSpace = false :=
    dropTrailing_eq_self_iff.mp (dropTrailing_dropTrailing _)
  have hcolons : Lexes .plain ((Token.concat (content front)).toList ++ [':'])
      (Value.Compact.compact valueTightness value ++ compactMark important ++ behind)
      ((content front).map Token.lexeme ++ [⟨.colon, [':']⟩]) .plain := by
    obtain ⟨ts, t, hts⟩ := (List.eq_nil_or_concat' _).resolve_left hne
    rw [hts] at hproperty hends hat hurls ⊢
    rw [List.map_append, List.map_singleton] at hproperty ⊢
    exact hproperty.before_colon hurls hahead' (beq_eq_false_iff_ne.mp (hends t (by simp)))
      (hat t (by simp)) _
  have hall := hcolons.append hls
  have hkept : front = content front ++ gap front := by
    rw [content, gap, dropTrailing_append_takeTrailing]
  have hstart : (content front).head? = (front ++ colon :: back).head? := by
    conv_rhs => rw [hkept, List.append_assoc, List.head?_append_of_ne_nil _ hne]
  have hsplit := splitImportant_compact hmarked fun hnone => (hunmarked hnone).2
  have htrivia := hcompacted.isTrivia_head?_mark hls hcomment
  refine ⟨content front ++ (⟨.colon, [':']⟩ : Lexeme).token :: ls.map Lexeme.token,
    ⟨?_, ?_, ?_, last', hlast, ?_⟩, ?_⟩
  · rw [List.head?_append_of_ne_nil _ hne, hstart]
    exact h.starts
  · rw [List.map_append, depth?_append, ← hdepth]
    congr 1
    funext d
    have hkinds : ((⟨.colon, [':']⟩ : Lexeme).token :: ls.map Lexeme.token).map Token.kind =
        [Kind.colon] ++ ls.map Lexeme.kind := by
      rw [List.map_cons, ← Token.map_kind_lexeme (ls.map _), Lexeme.map_lexeme_token]
      rfl
    rw [hkinds, depth?_append_of_unmarked (by simp [Kind.isMark]), hdepth', Watch.punctuation_append,
      hcompacted.punctuation_eq hout, punctuation_compactMark, List.append_nil]
  · intro t ht
    rw [List.getLast?_append_of_ne_nil _ (by simp), List.getLast?_cons, List.getLast?_map] at ht
    cases hl : ls.getLast? with
    | none =>
      obtain rfl : (⟨.colon, [':']⟩ : Lexeme).token = t := by simpa [hl] using ht
      rfl
    | some l =>
      obtain rfl : l.token = t := by simpa [hl] using ht
      exact beq_eq_false_iff_ne.mpr (hcompacted.kind_ne_space_mark hout hreadable.urls hls l hl)
  · rw [List.map_append, List.map_cons, Lexeme.map_lexeme_token]
    simpa using hall
  · have hread := Content.ReadFrom.of_value hne hends (hstart ▸ hfirst)
      (fun t ht => hfront t (hkept ▸ List.mem_append_left _ ht))
      (show (⟨.colon, [':']⟩ : Lexeme).token.kind = .colon from rfl) htrivia
    rwa [hls.concat_eq, hsplit.1, hsplit.2] at hread

end Statement.Stands

/-! ### Steady nodes -/

/-- **Nothing is mistaken at the borders of the parts of a node.**  A selector starts with no white
space, a property does not end with an at-word, no backslash is left open by parameters and by values
without a mark, and the compact form of a value has no mark that the value did not have. -/
def Content.keepsBorders : Content → Bool
  | .rule selector => !selector.toList.head?.any Text.isWhiteSpace
  | .atRule _ params _ => (plain.after params.toList).isUnescaped
  | .declaration property value important =>
    !(tokenize { text := property } false).tokens.getLast?.any (·.kind == .atWord) &&
      if important then !(Value.compactValue value).toList.getLast?.any Text.isWhiteSpace
      else (plain.after value.toList).isUnescaped &&
        (splitImportant (Value.compactValue value).toList).2.isNone
  | .root | .comment _ => true

/-- **A node that is read as it was written**, but for what compaction leaves out. -/
def Content.isSteady (c : Content) : Bool := c.urlsClose && c.keepsBorders

/-- What the compact layout writes of a node opens nothing that it does not close. -/
def Content.closesAll (c : Content) : Bool :=
  Statement.depth? 0
    ((tokenize { text := String.ofList c.compactText } false).tokens.map Token.kind) == some 0

variable {run : List Token} {depth : Nat} {text ahead : List Char}

/-- **A steady node is read again**, compacted. -/
theorem Content.ReadFrom.compacts {c : Content} (hread : c.ReadFrom run)
    (h : Statement.Stands run depth text ahead) (hahead : ahead = [] → c.opensBlock = false)
    (hsteady : c.isSteady = true) : c.Compacts depth := by
  intro behind hbehind
  obtain ⟨hurls, hborders⟩ := Bool.and_eq_true_iff.mp hsteady
  cases hread with
  | rule hfirst =>
    have htext : (Content.rule (Token.concat run)).compactText =
        Value.Compact.compact selectorTightness text := by
      simp [Content.compactText, Layout.compactHead, Value.compactSelector, h.text_eq]
    have hcompacted : (Content.rule (Token.concat run)).compacted =
        .rule (String.ofList (Value.Compact.compact selectorTightness text)) := by
      simp [Content.compacted, Value.compactSelector, h.text_eq]
    rw [Content.urlsClose, h.text_eq] at hurls
    rw [Content.keepsBorders, h.text_eq] at hborders
    rw [htext, hcompacted]
    refine h.rereads_rule hfirst (fun hnil => by cases hahead hnil) hurls (fun c hc => ?_) hbehind
    rw [Option.mem_def.mp hc] at hborders
    simpa using hborders
  | atRule hfirst hkind hasBody =>
    obtain ⟨rest, rfl⟩ := List.head?_eq_some_iff.mp hfirst
    exact h.rereads_atRule hkind hasBody hurls hborders hbehind
  | declaration hfirst hparts =>
    obtain ⟨front, colon, back, rfl, hfront, hcolon, hne, rfl⟩ :=
      DeclarationParts.ofTokens_eq_ok_iff.mp hparts
    obtain ⟨last, -, hlexes⟩ := h.lexes
    have halone := hlexes.tokenize_property hcolon
    obtain ⟨hurls, hurls'⟩ := Bool.and_eq_true_iff.mp hurls
    obtain ⟨hat, hvalue⟩ := Bool.and_eq_true_iff.mp hborders
    have htext : (DeclarationParts.ofHalves front colon back).value.toList =
        (splitImportant (Token.concat (back.dropWhile Token.isTrivia)).toList).1 := by
      simp [DeclarationParts.ofHalves]
    have hproperty : (DeclarationParts.ofHalves front colon back).property =
        Token.concat (Statement.content front) := rfl
    rw [Content.compactText_declaration, Content.compacted, Value.compactValue]
    rw [Value.compactValue, String.toList_ofList] at hvalue
    rw [hproperty] at hat hurls ⊢
    refine h.rereads_declaration hfirst hfront hcolon hne htext.symm hurls hurls' (fun t ht hkind => ?_)
      (fun himportant c hc => ?_) (fun hunmarked => ?_) hbehind
    · have hkinds := congrArg (fun ls : List Lexeme => ls.getLast?.map Lexeme.kind) halone
      simp only [List.getLast?_map, Option.map_map] at hkinds
      rw [Option.mem_def.mp ht, Option.map_some] at hkinds
      obtain ⟨u, hu, hkind'⟩ := Option.map_eq_some_iff.mp hkinds
      have huKind : u.kind = .atWord := hkind'.trans hkind
      simp [hu, huKind] at hat
    · rw [himportant, if_pos rfl, Option.mem_def.mp hc] at hvalue
      simpa using hvalue
    · rw [hunmarked, if_neg (by simp)] at hvalue
      simpa using hvalue

/-- **Where all nodes are steady, all can be printed compactly**, if the last statement of the sheet
closes what it opens. -/
theorem Forest.Standing.compactable {f : Forest Node} {closed : Bool}
    (h : (f.map Node.content).Standing closed)
    (hsteady : ∀ n ∈ f.preorder, n.content.isSteady = true)
    (hcloses : closed = true → ∀ n ∈ f.tops, n.content.opensBlock = false →
      n.content.isComment = false → n.content.closesAll = true) : f.Compactable closed := by
  induction f generalizing closed with
  | nil => trivial
  | cons n children next ihChildren ihNext =>
    obtain ⟨hsteadyNode, hsteadyRest⟩ := List.forall_mem_cons.mp hsteady
    obtain ⟨hsteadyChildren, hsteadyNext⟩ := List.forall_mem_append.mp hsteadyRest
    obtain ⟨hnode, hleaf, hchildren, hnext⟩ := h
    refine ⟨fun hcomment => ?_, ihChildren hchildren hsteadyChildren nofun,
      ihNext hnext hsteadyNext fun hclosed m hm => hcloses hclosed m (List.mem_cons_of_mem _ hm)⟩
    obtain ⟨run, depth, text, ahead, hstands, hread, hend, hdepth⟩ := hnode hcomment
    have hcompacts := hread.compacts hstands (fun hnil => (hend hnil).2.1) hsteadyNode
    refine ⟨depth, hcompacts, fun hblock => ⟨Forest.map_eq_nil_iff.mp (hleaf hblock), ?_⟩⟩
    rintro hfollowed
    by_cases hnil : next.map Node.content = .nil
    · -- The last statement of the sheet has to close what it opens itself.
      obtain rfl := Forest.map_eq_nil_iff.mp hnil
      have hclosed : closed = true := hfollowed.resolve_right (by simp [hasStatement])
      have hcloses := hcloses hclosed n List.mem_cons_self hblock hcomment
      obtain ⟨run', hstands', -⟩ := hcompacts [] (by simp [Breaks])
      obtain ⟨last, -, hlexes⟩ := hstands'.lexes
      have hfresh := Reader.ofSource_fresh { text := String.ofList n.content.compactText } false
      have hkinds := congrArg (List.map Lexeme.kind) (hfresh.drain_of_lexes
        (show Lexes .plain (String.ofList n.content.compactText).toList [] _ last by
          rwa [String.toList_ofList])).2
      rw [Token.map_kind_lexeme, Token.map_kind_lexeme] at hkinds
      have hzero := beq_iff_eq.mp hcloses
      rw [show (tokenize _ false).tokens.map Token.kind = run'.map Token.kind from hkinds,
        hstands'.depth] at hzero
      exact Option.some.inj hzero
    · exact hdepth hblock hnil

end LosslessCss
