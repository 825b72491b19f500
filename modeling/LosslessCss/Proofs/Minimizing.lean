import LosslessCss.Proofs.Addresses
import LosslessCss.Proofs.CompactHeads
import LosslessCss.Proofs.RoundTrip
import LosslessCss.Proofs.Violations

/-!
# Minimizing keeps the structure

The compact layout leaves out comments and nearly all blank space, and what it prints is read as the
same tree, without its comments and with each selector, value and list of parameters compacted.

## Main Definitions

* `Forest.compacted`
* `Minimizable` : the sources for which this holds

## Main Statements

* `Forest.Compactable.reads_print` : what the compact layout prints is read as the compacted forest
* `exists_parse_print_minimized`
-/

namespace LosslessCss

open Token (Breaks isBlank EndsBlock)
open Statement (IsRun Between Stands Plain Terminates)

/-! ### Printing compactly -/

/-- **What the compact layout keeps of a forest**: all but the comments. -/
def Forest.compacted : Forest Content → Forest Content
  | .nil => .nil
  | .cons c children next =>
    if c.isComment then next.compacted
    else .cons c.compacted children.compacted next.compacted

/-- **The compact head is read as the compacted node** in front of everything that the compact layout
puts behind it; `depth` parentheses and brackets are open there. -/
def Content.Compacts (c : Content) (depth : Nat) : Prop :=
  ∀ ahead, Breaks ahead →
    ∃ run, Stands run depth c.compactText ahead ∧ c.compacted.ReadFrom run

/-- **Each node of a forest can be printed compactly.**  Where a semicolon is printed behind a node,
no parenthesis and no bracket is open. -/
def Forest.Compactable (closed : Bool) : Forest Node → Prop
  | .nil => True
  | .cons n children next =>
    (n.content.isComment = false → ∃ depth, n.content.Compacts depth ∧
      (n.content.opensBlock = false →
        children = .nil ∧ (closed = true ∨ next.hasStatement = true → depth = 0))) ∧
      children.Compactable false ∧ next.Compactable closed

theorem Style.layout_minimize : ({ minimize := true } : Style).layout = .compact id := rfl

/-- The head of a node that is no comment depends on its content only. -/
theorem Layout.toList_compactHead (n : Node) (hcomment : n.content.isComment = false) :
    (compactHead id false n).toList = n.content.compactText := by
  rw [Content.compactText, compactHead, compactHead]
  generalize n.content = c at hcomment
  cases c with
  | comment => cases hcomment
  | _ => rfl

/-- The text of a node that is kept: its head, and then its block or its semicolon. -/
theorem Layout.toList_compact (value : String → String) (semicolon first isEmpty : Bool)
    (depth : Nat) (inner : String) (n : Node) (hcomment : n.content.isComment = false)
    (hroot : n.content ≠ .root) :
    ((compact value).leading first depth n ++
        (compact value).wrap semicolon depth n isEmpty inner).toList =
      (compactHead value false n).toList ++
        if n.content.opensBlock then '\x7b' :: (inner.toList ++ ['\x7d'])
        else if semicolon then [';'] else [] := by
  have hhead : (compactHead value semicolon n).toList = (compactHead value false n).toList ++
      if semicolon && !n.content.opensBlock then [';'] else [] := by
    rw [compactHead, compactHead]
    generalize n.content = c at hcomment hroot
    cases c with
    | root => contradiction
    | comment => cases hcomment
    | rule => simp [Content.opensBlock]
    | atRule name params hasBody =>
      cases hasBody <;> cases semicolon <;> simp [Content.opensBlock, semicolonIf]
    | declaration => cases semicolon <;> simp [Content.opensBlock, semicolonIf]
  have hleading : (compact value).leading first depth n = "" := rfl
  have hfoot : (compact value).foot isEmpty depth n = "" := rfl
  have hown : (compact value).head semicolon n = compactHead value semicolon n := rfl
  rw [wrap, hleading, hfoot, hown, String.toList_append, String.toList_append, hhead]
  cases n.content.opensBlock <;> simp

/-- Comments are printed as nothing. -/
theorem Forest.print_of_comments {f : Forest Node} (h : f.hasStatement = false)
    (value : String → String) (closed first : Bool) (depth : Nat) :
    f.print (.compact value) closed first depth = "" := by
  induction f generalizing first with
  | nil => rfl
  | cons n children next _ ih =>
    rw [hasStatement, Bool.or_eq_false_iff, Bool.not_eq_false'] at h
    have hkeeps : (Layout.compact value).keeps n = false := by simp [Layout.compact, h.1]
    rw [Forest.print, ih h.2 false, hkeeps]
    rfl

/-- **What the compact layout prints is read as the compacted forest.** -/
theorem Forest.Compactable.reads_print {f : Forest Node} {closed : Bool} (hf : f.Compactable closed)
    (first : Bool) (depth : Nat) {behind rest : List Char}
    (hends : ∀ c ∈ behind.head?, c = '\x7d') (hbehind : Reads behind .nil rest) :
    Reads ((f.print (.compact id) closed first depth).toList ++ behind)
      (f.map Node.content).compacted rest := by
  induction f generalizing closed first depth behind rest with
  | nil => simpa [Forest.print, Forest.map, compacted] using hbehind
  | cons n children next ihChildren ihNext =>
    obtain ⟨hnode, hchildren, hnext⟩ := hf
    have hafter := ihNext hnext false depth hends hbehind
    rw [Forest.map, compacted, Forest.print]
    cases hcomment : n.content.isComment with
    | true =>
      rw [show (Layout.compact id).keeps n = false by simp [Layout.compact, hcomment]]
      simpa using hafter
    | false =>
      obtain ⟨d, hcompacts, hleaf⟩ := hnode hcomment
      have hroot : n.content ≠ .root := by
        intro hroot
        obtain ⟨run, -, hread⟩ := hcompacts [] (by simp [Breaks])
        rw [hroot] at hread
        cases hread
      have hkeeps : (Layout.compact id).keeps n = true := by simp [Layout.compact, hcomment]
      rw [hkeeps, if_pos rfl, if_neg (by simp), String.toList_append,
        Layout.toList_compact _ _ _ _ _ _ _ hcomment hroot, Layout.toList_compactHead n hcomment]
      cases hblock : n.content.opensBlock with
      | false =>
        obtain ⟨rfl, hdepth⟩ := hleaf hblock
        rw [if_neg (by simp), List.append_assoc, List.append_assoc]
        cases hsemicolon : closed || next.hasStatement with
        | true =>
          obtain rfl := hdepth (by simpa using hsemicolon)
          obtain ⟨run, hstands, hread⟩ := hcompacts (';' :: ((next.print (.compact id) closed false
            depth).toList ++ behind)) (by simp [Breaks])
          exact @Reads.closed run n.content.compactText [] _ rest _ _ hstands (by simp) hread
            (by simpa using hblock) hafter
        | false =>
          obtain ⟨rfl, hnone⟩ := Bool.or_eq_false_iff.mp hsemicolon
          have hprint := Forest.print_of_comments hnone id false false depth
          rw [hprint] at hafter ⊢
          obtain ⟨run, hstands, hread⟩ := hcompacts behind fun c hc => .inr (.inr (hends c hc))
          have hbrace : EndsBlock ([] ++ behind) := Token.endsBlock_append (by simp) hends
          exact .last hstands hbrace hread (by simpa using hblock) (by simpa using hafter)
      | true =>
        rw [if_pos rfl]
        have hinner := ihChildren hchildren false (depth + 1) (by simp)
          (.nil ('\x7d' :: ((next.print (.compact id) closed false depth).toList ++ behind)))
        obtain ⟨run, hstands, hread⟩ := hcompacts _ (show Breaks ('\x7b' :: _) by simp [Breaks])
        have hall := @Reads.block run d n.content.compactText [] _ _ rest _ _ _ hstands (by simp)
          hread (by simpa using hblock) hinner hafter
        simpa [Layout.compact] using hall

/-! ### Lexemes of a text that is read in two ways -/

/-- Blank space. -/
def Lexeme.isSpace (l : Lexeme) : Bool := l.kind == .space

namespace Lexes

variable {mode middle last : Token.Mode} {text ahead cs : List Char} {ls ls' : List Lexeme}

/-- **A text is read in one way**: what stands at its start is. -/
theorem exists_rest (h : Lexes mode text ahead ls middle)
    (h' : Lexes mode (text ++ ahead) [] ls' last) :
    ∃ ls₁, ls' = ls ++ ls₁ ∧ Lexes middle ahead [] ls₁ last := by
  induction h generalizing ls' with
  | nil => exact ⟨ls', rfl, h'⟩
  | @cons mode _ kind c text cs rest ls hscan _ ih =>
    generalize hall : c :: text ++ cs ++ rest = whole at h'
    cases h' with
    | nil => cases hall
    | @cons _ _ kind' c' text' cs' _ ls₁ hscan' htail' =>
      obtain ⟨rfl, hrest⟩ := List.cons.inj hall
      have hrest' : text ++ (cs ++ rest) = text' ++ (cs' ++ []) := by simpa using hrest
      rw [← hrest'] at hscan'
      obtain ⟨rfl, hlength⟩ := hscan.unique hscan'
      obtain ⟨rfl, hcs⟩ := List.append_inj hrest' hlength
      rw [← hcs] at htail'
      obtain rfl : cs ++ rest = cs' := by simpa using hcs
      obtain ⟨ls₂, rfl, hls₂⟩ := ih htail'
      exact ⟨ls₂, rfl, hls₂⟩

/-- A blank character in front changes only the blank space at the start. -/
theorem exists_of_blank {c : Char} (h : Lexes .plain (c :: cs) [] ls last) (hc : isBlank c = true) :
    ∃ ls', Lexes .plain cs [] ls' last ∧
      ls'.dropWhile Lexeme.isSpace = ls.dropWhile Lexeme.isSpace := by
  generalize hall : c :: cs = whole at h
  cases h with
  | nil => cases hall
  | @cons _ _ kind c' text cs' _ ls hscan htail =>
    obtain ⟨rfl, rfl⟩ := List.cons.inj hall
    obtain ⟨rfl, hlength⟩ := hscan.unique (.space (by simp) hc)
    rw [Token.Mode.after_eq_plain _ _ _ (by simp) (by simp)] at htail
    cases text with
    | nil => exact ⟨ls, htail, by simp [Lexeme.isSpace]⟩
    | cons d text =>
      have hspells := hscan.spells
      rw [List.take_left] at hspells
      have hd : isBlank d = true := hspells d (by simp)
      have hscan' : Token.Scans d (text ++ (cs' ++ [])) .plain .space text.length := by
        have hlength' : text.length = ((text ++ (cs' ++ [])).takeWhile isBlank).length := by
          simpa [hd] using hlength
        rw [hlength']
        exact .space (by simp) hd
      refine ⟨⟨.space, d :: text⟩ :: ls, .cons hscan' ?_, by simp [Lexeme.isSpace]⟩
      rwa [Token.Mode.after_eq_plain _ _ _ (by simp) (by simp)]

/-- The same for a gap. -/
theorem exists_of_blanks {gap : List Char} (h : Lexes .plain (gap ++ cs) [] ls last)
    (hgap : ∀ c ∈ gap, isBlank c = true) :
    ∃ ls', Lexes .plain cs [] ls' last ∧
      ls'.dropWhile Lexeme.isSpace = ls.dropWhile Lexeme.isSpace := by
  induction gap generalizing ls with
  | nil => exact ⟨ls, h, rfl⟩
  | cons c gap ih =>
    obtain ⟨hc, hgap⟩ := List.forall_mem_cons.mp hgap
    obtain ⟨ls₁, hls₁, hdrop₁⟩ := exists_of_blank h hc
    obtain ⟨ls₂, hls₂, hdrop₂⟩ := ih hls₁ hgap
    exact ⟨ls₂, hls₂, hdrop₂.trans hdrop₁⟩

/-- A token at the start that is neither a word nor an opening parenthesis. -/
theorem exists_tail {c : Char} {kind : Token.Kind} (h : Lexes .plain (c :: text ++ cs) [] ls last)
    (hscan : Token.Scans c (text ++ cs) .plain kind text.length) (hword : kind ≠ .word)
    (hparen : kind ≠ .parenOpen) :
    ∃ ls₁, ls = ⟨kind, c :: text⟩ :: ls₁ ∧ Lexes .plain cs [] ls₁ last := by
  have hone : Lexes .plain (c :: text ++ []) cs [⟨kind, c :: text⟩] .plain := by
    refine .cons (by simpa using hscan) ?_
    rw [Token.Mode.after_eq_plain _ _ _ hparen hword]
    exact .nil _ _
  rw [List.append_nil] at hone
  obtain ⟨ls₁, rfl, hls₁⟩ := hone.exists_rest h
  exact ⟨ls₁, rfl, hls₁⟩

end Lexes

/-! ### Places between statements -/

namespace Statement

/-- **A statement may be going on** behind these tokens. -/
def Pending (before : List Token) (depth : Nat) : Prop :=
  ∃ outside run, before = outside ++ run ∧ Between outside ∧ IsRun run depth

variable {before run spaces : List Token} {depth : Nat} {t : Token}

theorem Between.append_spaces (h : Between before) (hspaces : ∀ t ∈ spaces, t.isSpace = true) :
    Between (before ++ spaces) := by
  induction spaces using List.reverseRecOn with
  | nil => simpa using h
  | append_singleton spaces t ih =>
    rw [← List.append_assoc]
    refine .trivia (ih fun u hu => hspaces u (List.mem_append_left _ hu)) ?_
    have ht : t.kind = .space := beq_iff_eq.mp (hspaces t (by simp))
    rw [Token.isTrivia, ht]
    rfl

theorem IsRun.append_spaces (h : IsRun run depth) (hrun : run ≠ [])
    (hspaces : ∀ t ∈ spaces, t.isSpace = true) : IsRun (run ++ spaces) depth := by
  refine ⟨?_, ?_⟩
  · rw [List.head?_append_of_ne_nil _ hrun]
    exact h.starts
  · rw [List.map_append, depth?_append, h.depth]
    exact Parse.State.depth?_of_isSpace depth hspaces

theorem Between.pending (h : Between before) : Pending before 0 :=
  ⟨before, [], by simp, h, by simp, rfl⟩

theorem Pending.append_spaces (h : Pending before depth)
    (hspaces : ∀ t ∈ spaces, t.isSpace = true) :
    Pending (before ++ spaces) depth := by
  obtain ⟨outside, run, rfl, houtside, hrun⟩ := h
  cases run with
  | nil => exact ⟨outside ++ spaces, [], by simp, houtside.append_spaces hspaces, hrun⟩
  | cons first others =>
    exact ⟨outside, _, by simp, houtside, hrun.append_spaces (by simp) hspaces⟩

theorem Pending.ended (h : Pending before depth) (ht : t.kind.continuesStatement depth = false) :
    Between (before ++ [t]) := by
  obtain ⟨outside, run, rfl, houtside, hrun⟩ := h
  exact .ended houtside hrun ht

/-- **Inside a statement no other one can start.** -/
theorem Between.eq_nil {s : Parse.State} {more : List Token} (h : Between before)
    (hrun : IsRun run depth) (hboth : Between (before ++ run))
    (hruns : Parse.State.Runs false .start (before ++ run ++ more) s) : run = [] := by
  obtain ⟨s₁, hfirst, -⟩ := Parse.State.runs_append.mp hruns
  have hbuffer := (hfirst.collected h hrun).1
  rw [(hfirst.idle_of_between hboth).buffer] at hbuffer
  simpa using hbuffer.symm

end Statement

/-- **The end of a block** has nothing in front but blank space. -/
theorem Reads.eq_nil_of_endsBlock {text rest : List Char} {f : Forest Content}
    (h : Reads text f rest)
    (hends : EndsBlock text) : f = .nil ∧ ∃ blank, text = blank ++ rest ∧
      ∀ c ∈ blank, isBlank c = true := by
  have hstart {run : List Token} {depth : Nat} {body ahead : List Char}
      (hstands : Stands run depth body ahead) (hrun : run ≠ [])
      (hends : EndsBlock (body ++ ahead)) :
      False := by
    obtain ⟨c, cs, rfl⟩ := List.exists_cons_of_ne_nil (hstands.text_ne_nil hrun)
    obtain ⟨hgap, hclose⟩ := hstands.head c rfl
    have hblank : isBlank c = false := by
      cases hblank : isBlank c
      · rfl
      · simp [Token.isGap, hblank] at hgap
    exact hclose (hends c (by simp [hblank]))
  induction h with
  | nil rest => exact ⟨rfl, [], rfl, by simp⟩
  | @gap c cs rest f hgap _ ih =>
    cases hblank : isBlank c with
    | true =>
      obtain ⟨hnil, blank, rfl, hall⟩ := ih (by simpa [EndsBlock, hblank] using hends)
      exact ⟨hnil, c :: blank, rfl, List.forall_mem_cons.mpr ⟨hblank, hall⟩⟩
    | false =>
      obtain rfl : c = ';' := by simpa [Token.isGap, hblank] using hgap
      cases hends ';' (by simp [hblank])
  | comment => cases hends '/' (by simp [isBlank])
  | closed hstands _ hcontent hblock => exact (hstart hstands (hcontent.ne_nil hblock) hends).elim
  | last hstands _ hcontent hblock => exact (hstart hstands (hcontent.ne_nil hblock) hends).elim
  | @block run depth text gap inner cs rest c children f hstands hgap =>
    cases run with
    | cons first others => exact (hstart hstands (by simp) hends).elim
    | nil =>
      have htext : text = [] := by simpa using hstands.text_eq.symm
      subst htext
      unfold EndsBlock at hends
      rw [List.nil_append, List.dropWhile_append_of_pos hgap] at hends
      cases hends '\x7b' (by simp [isBlank])

/-! ### Minimizable sources -/

/-- **The sources that minimizing keeps the structure of.** -/
structure Minimizable (source : Source) : Prop where
  /-- No word is `url`. -/
  urls : ∀ t ∈ (tokenize source false).tokens, t.kind = .word →
    Text.eqIgnoringCase t.text.toList "url".toList = false
  /-- White space is blank. -/
  white : ∀ c ∈ source.text.toList, Text.isWhiteSpace c = true → isBlank c = true
  /-- At-words are only where a statement can start. -/
  atWords : ∀ {before after : List Token} {t : Token},
    (tokenize source false).tokens = before ++ t :: after → t.kind = .atWord → Between before
  /-- The value of a declaration has no comment: a statement without a block that starts with no
  at-word is cut at its first colon, and its value starts behind the trivia there. -/
  values : ∀ {before front back after : List Token} {colon : Token} {depth : Nat},
    (tokenize source false).tokens = before ++ (front ++ colon :: back) ++ after →
      Between before → IsRun (front ++ colon :: back) depth →
        (∀ t ∈ after.head?, Terminates t depth) → (∀ t ∈ front.head?, t.kind ≠ .atWord) →
          (∀ t ∈ front, t.kind ≠ .colon) → colon.kind = .colon →
            ∀ t ∈ back.dropWhile Token.isTrivia, t.kind ≠ .comment
  /-- The end of the source ends no statement. -/
  ended : Between (tokenize source false).tokens

/-- Lexemes and tokens are the same but for blank space at their start. -/
def SameLead (ls : List Lexeme) (ts : List Token) : Prop :=
  ls.dropWhile Lexeme.isSpace = (ts.map Token.lexeme).dropWhile Lexeme.isSpace

namespace SameLead

variable {ls : List Lexeme} {ts : List Token} {l : Lexeme}

theorem of_eq (h : ts.map Token.lexeme = ls) : SameLead ls ts := by
  rw [SameLead, h]

/-- Behind blank space the tokens are those of the lexemes. -/
theorem exists_spaces (h : SameLead (l :: ls) ts) (hl : l.isSpace = false) :
    ∃ spaces t ts', ts = spaces ++ t :: ts' ∧ (∀ t ∈ spaces, t.isSpace = true) ∧ t.lexeme = l ∧
      ts'.map Token.lexeme = ls := by
  rw [SameLead, List.dropWhile_cons_of_neg (by simp [hl]), List.dropWhile_map] at h
  obtain ⟨t, ts', hts, ht, hts'⟩ := List.map_eq_cons_iff.mp h.symm
  refine ⟨ts.takeWhile (Lexeme.isSpace ∘ Token.lexeme), t, ts', ?_, fun u hu => ?_, ht, hts'⟩
  · rw [← hts, List.takeWhile_append_dropWhile]
  · exact List.mem_takeWhile_imp hu

/-- The tokens of a gap and of the punctuation behind it. -/
theorem exists_punctuation {gap cs : List Char} {d : Char} {kind : Token.Kind} {last : Token.Mode}
    (hlexes : Lexes .plain (gap ++ d :: cs) [] ls last)
    (hgap : ∀ c ∈ gap, isBlank c = true) (hkind : Token.punctuation? d = some kind)
    (hparen : kind ≠ .parenOpen) (hlead : SameLead ls ts) :
    ∃ spaces t ts' ls', ts = spaces ++ t :: ts' ∧ (∀ t ∈ spaces, t.isSpace = true) ∧
      t.kind = kind ∧ Lexes .plain cs [] ls' last ∧ SameLead ls' ts' := by
  obtain ⟨ls₁, hls₁, hdrop⟩ := hlexes.exists_of_blanks hgap
  have hother : kind ≠ .word ∧ kind ≠ .space := by
    obtain ⟨hword, -, -, htrivia⟩ := Token.kind_of_punctuation? hkind
    exact ⟨hword, by rintro rfl; cases htrivia⟩
  obtain ⟨ls₂, rfl, hls₂⟩ :=
    Lexes.exists_tail (show Lexes .plain (d :: [] ++ cs) [] ls₁ last from hls₁)
    (.punctuation (by simp) hkind) hother.1 hparen
  obtain ⟨spaces, t, ts', hts, hspaces, ht, hts'⟩ := SameLead.exists_spaces (hdrop.trans hlead)
    (beq_eq_false_iff_ne.mpr hother.2)
  exact ⟨spaces, t, ts', ls₂, hts, hspaces, congrArg Lexeme.kind ht, hls₂, .of_eq hts'⟩

end SameLead

namespace Minimizable

variable {source : Source} {state : Parse.State} (hsource : Minimizable source)
  (hfailure : (tokenize source false).failure = none)
  (hruns : Parse.State.Runs false .start (tokenize source false).tokens state)

include hsource

theorem isUrl_eq_false {t : Token} (ht : t ∈ (tokenize source false).tokens) :
    t.lexeme.isUrl = false := by
  rw [Lexeme.isUrl, Bool.and_eq_false_iff]
  by_cases hkind : t.kind = .word
  · exact .inr (hsource.urls t ht hkind)
  · exact .inl (beq_eq_false_iff_ne.mpr hkind)

/-- **The tokens of a run** that stands at a place where a statement can start. -/
theorem exists_run {before ts run₀ : List Token} {text ahead : List Char} {ls : List Lexeme}
    {last : Token.Mode} {depth : Nat} (htokens : (tokenize source false).tokens = before ++ ts)
    (hbefore : Between before) (hlexes : Lexes .plain (text ++ ahead) [] ls last)
    (hlead : SameLead ls ts) (hstands : Stands run₀ depth text ahead) :
    ∃ before' run ts' ls', (tokenize source false).tokens = before' ++ (run ++ ts') ∧
      Between before' ∧ run.map Token.lexeme = run₀.map Token.lexeme ∧
        Lexes .plain ahead [] ls' last ∧ SameLead ls' ts' := by
  obtain ⟨middle, hmiddle, hrun⟩ := hstands.lexes
  obtain ⟨ls', rfl, hrest⟩ := hrun.exists_rest hlexes
  cases run₀ with
  | nil =>
    cases hrun
    exact ⟨before, [], ts, ls', htokens, hbefore, rfl, hrest, hlead⟩
  | cons first others =>
    have hfirst : first.lexeme.isSpace = false := by
      have hstarts := hstands.starts first rfl
      refine beq_eq_false_iff_ne.mpr fun hkind => ?_
      rw [show first.kind = .space from hkind] at hstarts
      cases hstarts
    obtain ⟨spaces, t, ts', rfl, hspaces, ht, hts'⟩ := SameLead.exists_spaces
      (show SameLead (first.lexeme :: (others.map Token.lexeme ++ ls')) ts from hlead) hfirst
    obtain ⟨us, vs, rfl, hus, hvs⟩ := List.map_eq_append_iff.mp hts'
    -- Behind a run without addresses the past is forgotten.
    have hplain : middle = .plain := by
      have hurl := (hrun.last_eq_behindUrl_iff (by simp)).not
      cases middle with
      | plain => rfl
      | address => contradiction
      | behindUrl =>
        refine (hurl.mpr ?_ rfl).elim
        intro hany
        obtain ⟨l, hl, hl'⟩ := (Option.any_eq_true _ _).mp hany
        rw [List.map_cons, ← ht, ← hus, ← List.map_cons] at hl
        obtain ⟨u, hu, rfl⟩ := List.mem_map.mp (List.mem_of_getLast? hl)
        rw [hsource.isUrl_eq_false (by rw [htokens]; simp at hu ⊢; tauto)] at hl'
        cases hl'
    subst hplain
    refine ⟨before ++ spaces, t :: us, vs, ls', by simp [htokens], hbefore.append_spaces hspaces,
      by simp [ht, hus], hrest, .of_eq hvs⟩

include hruns

/-- **Something stands behind each statement** of the source. -/
theorem rest_ne_nil {before run ts : List Token} {depth : Nat} {rest : List Char}
    {ls : List Lexeme} {last : Token.Mode}
    (htokens : (tokenize source false).tokens = before ++ (run ++ ts)) (hbefore : Between before)
    (hrun : IsRun run depth) (hne : run ≠ []) (hlexes : Lexes .plain rest [] ls last)
    (hlead : SameLead ls ts) : rest ≠ [] := by
  rintro rfl
  -- The statement would be ended by the end of the source.
  obtain rfl := hlexes.eq_nil
  have hspaces : ∀ t ∈ ts, t.isSpace = true := by
    have hnil : (ts.map Token.lexeme).dropWhile Lexeme.isSpace = [] := hlead.symm
    rw [List.dropWhile_eq_nil_iff] at hnil
    exact fun t ht => hnil t.lexeme (List.mem_map_of_mem ht)
  have hboth : Between (before ++ (run ++ ts)) := htokens ▸ hsource.ended
  have hnil := hbefore.eq_nil (hrun.append_spaces hne hspaces) hboth
    (by rw [List.append_nil, ← htokens]; exact hruns)
  exact hne (List.append_eq_nil_iff.mp hnil).1

include hfailure

/-- **A run of the source is plain.** -/
theorem plain {before run more : List Token} {depth : Nat}
    (htokens : (tokenize source false).tokens = before ++ run ++ more) (hbefore : Between before)
    (hrun : IsRun run depth) : Plain run := by
  have hmem : ∀ t ∈ run, t ∈ (tokenize source false).tokens := fun t ht => by
    rw [htokens]
    simp [ht]
  refine ⟨fun t ht => hsource.isUrl_eq_false (hmem t ht), fun t ht c hc => ?_, fun t ht hkind => ?_⟩
  · refine hsource.white c ?_
    rw [← (tokenize_covers hfailure).1, Token.toList_concat]
    exact List.mem_flatMap.mpr ⟨t.lexeme, List.mem_map_of_mem (hmem t ht), hc⟩
  · -- Another statement would start inside the run.
    cases run with
    | nil => cases ht
    | cons first others =>
      obtain ⟨front, back, rfl⟩ := List.append_of_mem ht
      have hcut : (tokenize source false).tokens =
          before ++ (first :: front) ++ (t :: (back ++ more)) := by
        rw [htokens]
        simp
      obtain ⟨d, hd⟩ : ∃ d, Statement.depth? 0 ((first :: front).map Token.kind) = some d := by
        have hdepth := hrun.depth
        rw [← List.cons_append, List.map_append, Statement.depth?_append] at hdepth
        cases hd : Statement.depth? 0 ((first :: front).map Token.kind) with
        | none =>
          rw [hd] at hdepth
          cases hdepth
        | some d => exact ⟨d, rfl⟩
      have hfront : IsRun (first :: front) d := ⟨hrun.starts, hd⟩
      have hboth : Between (before ++ first :: front) := hsource.atWords hcut hkind
      have hnil := hbefore.eq_nil hfront hboth (hcut ▸ hruns)
      cases hnil

/-- **A node of the source can be printed compactly.** -/
theorem compacts {before run spaces after : List Token} {run₀ : List Token} {depth : Nat}
    {text ahead : List Char} {c : Content}
    (htokens : (tokenize source false).tokens = before ++ run ++ (spaces ++ after))
    (hbefore : Between before) (hrun : run.map Token.lexeme = run₀.map Token.lexeme)
    (hstands : Stands run₀ depth text ahead) (hcontent : c.ReadFrom run₀) (hahead : ahead ≠ [])
    (hspaces : ∀ t ∈ spaces, t.isSpace = true)
    (hafter : c.opensBlock = false → ∀ t ∈ after.head?, Terminates t depth) : c.Compacts depth := by
  intro ahead' hahead'
  have hstands' := hstands.congr hrun
  have hisRun : IsRun run depth := ⟨hstands'.starts, hstands'.depth⟩
  refine hstands'.exists_compact (hsource.plain hfailure hruns htokens hbefore hisRun)
    (hcontent.congr hrun) ?_ hahead hahead'.stops
  rintro hblock hfirst front colon back rfl hfront hcolon t ht
  have htokens' : (tokenize source false).tokens =
      before ++ (front ++ colon :: (back ++ spaces)) ++ after := by
    rw [htokens]
    simp
  have hlonger : IsRun (front ++ colon :: (back ++ spaces)) depth := by
    simpa using hisRun.append_spaces (by simp) hspaces
  refine hsource.values htokens' hbefore hlonger (hafter hblock) (fun u hu => ?_) hfront hcolon t ?_
  · exact hfirst u (by rw [List.head?_append, Option.mem_def.mp hu]; rfl)
  · rw [List.dropWhile_append]
    split
    · next hnil => simp [List.isEmpty_iff.mp hnil] at ht
    · exact List.mem_append_left _ ht

/-- **What is read of a minimizable source can be printed compactly.**  The induction follows the
grammar and keeps the tokens behind with it; `closed` tells the sheet from its blocks. -/
theorem compactable {text rest : List Char} {f : Forest Content} (h : Reads text f rest)
    {before ts : List Token} {ls : List Lexeme} {last : Token.Mode}
    (htokens : (tokenize source false).tokens = before ++ ts) (hbefore : Between before)
    (hlexes : Lexes .plain text [] ls last) (hlead : SameLead ls ts) {g : Forest Node}
    {closed : Bool}
    (hg : g.map Node.content = f) (hclosed : closed = true → rest = [])
    (hend : ∀ c ∈ rest.head?, c = '\x7d') :
    g.Compactable closed ∧ ∃ before' ts' ls' depth,
      (tokenize source false).tokens = before' ++ ts' ∧ Statement.Pending before' depth ∧
        Lexes .plain rest [] ls' last ∧ SameLead ls' ts' := by
  induction h generalizing before ts ls g closed with
  | nil rest =>
    cases g with
    | nil => exact ⟨trivial, before, ts, ls, 0, htokens, hbefore.pending, hlexes, hlead⟩
    | cons => cases hg
  | @gap c cs rest f hgap hreads ih =>
    cases hblank : isBlank c with
    | true =>
      obtain ⟨ls', hls', hdrop⟩ := hlexes.exists_of_blank hblank
      exact ih htokens hbefore hls' (hdrop.trans hlead) hg hclosed hend
    | false =>
      obtain rfl : c = ';' := by simpa [Token.isGap, hblank] using hgap
      obtain ⟨spaces, t, ts', ls', rfl, hspaces, ht, hls', hlead'⟩ :=
        hlead.exists_punctuation (show Lexes .plain ([] ++ ';' :: cs) [] ls last from hlexes)
          (by simp) rfl (by simp)
      refine @ih (before ++ spaces ++ [t]) _ _ (by simp [htokens]) ?_ hls' hlead' _ _ hg hclosed
        hend
      refine (hbefore.append_spaces hspaces).pending.ended ?_
      rw [ht]
      rfl
  | @comment inner cs rest f hinner hreads ih =>
    have hscan : Token.Scans '/' ('*' :: (inner ++ ['*', '/']) ++ cs) .plain .comment
        ('*' :: (inner ++ ['*', '/'])).length := by
      have hreach : Token.commentTail (inner ++ ['*', '/'] ++ cs) = some (inner.length + 2) :=
        (Token.commentTail_append_iff (by simp)).mpr hinner
      have hcomment : Token.Scans '/' ('*' :: (inner ++ ['*', '/'] ++ cs)) .plain .comment _ :=
        .comment (by simp) rfl rfl hreach
      simpa using hcomment
    obtain ⟨ls', rfl, hls'⟩ := Lexes.exists_tail hlexes hscan (by simp) (by simp)
    obtain ⟨spaces, t, ts', rfl, hspaces, ht, hts'⟩ := hlead.exists_spaces rfl
    cases g with
    | nil => cases hg
    | cons n children next =>
      injection hg with hn hchildren hnext
      obtain rfl := Forest.map_eq_nil_iff.mp hchildren
      obtain ⟨hcompactable, hrest⟩ := @ih (before ++ spaces ++ [t]) ts' ls' (by simp [htokens])
        (.trivia (hbefore.append_spaces hspaces) (by
          rw [Token.isTrivia, show t.kind = .comment from congrArg Lexeme.kind ht]
          rfl)) hls' (.of_eq hts') next closed hnext hclosed hend
      refine ⟨⟨fun hcomment => ?_, trivial, hcompactable⟩, hrest⟩
      rw [hn] at hcomment
      cases hcomment
  | @closed run text gap cs rest c f hstands hgap hcontent hblock hreads ih =>
    obtain ⟨before', run', ts', ls', htokens', hbefore', hrun, hls', hlead'⟩ :=
      hsource.exists_run htokens hbefore hlexes hlead hstands
    obtain ⟨spaces, t, ts', ls'', rfl, hspaces, ht, hls'', hlead''⟩ :=
      hlead'.exists_punctuation hls' hgap rfl (by simp)
    have hstands' := hstands.congr hrun
    have hpending : Statement.Pending (before' ++ run') 0 :=
      ⟨before', run', rfl, hbefore', hstands'.starts, hstands'.depth⟩
    have hcompacts := hsource.compacts hfailure hruns (by simpa using htokens') hbefore' hrun
      hstands hcontent (by simp) hspaces (by simp [Terminates, ht])
    cases g with
    | nil => cases hg
    | cons n children next =>
      injection hg with hn hchildren hnext
      obtain rfl := Forest.map_eq_nil_iff.mp hchildren
      obtain ⟨hcompactable, hrest⟩ := @ih (before' ++ run' ++ spaces ++ [t]) ts' ls''
        (by simp [htokens']) ((hpending.append_spaces hspaces).ended (by rw [ht]; rfl)) hls''
        hlead'' next closed hnext hclosed hend
      subst hn
      exact ⟨⟨fun _ => ⟨0, hcompacts, fun _ => ⟨rfl, fun _ => rfl⟩⟩, trivial, hcompactable⟩, hrest⟩
  | @last run depth text cs rest c f hstands hends hcontent hblock hreads ih =>
    obtain ⟨rfl, blank, rfl, hblank⟩ := hreads.eq_nil_of_endsBlock hends
    obtain ⟨before', run', ts', ls', htokens', hbefore', hrun, hls', hlead'⟩ :=
      hsource.exists_run htokens hbefore hlexes hlead hstands
    have hstands' := hstands.congr hrun
    have hisRun : IsRun run' depth := ⟨hstands'.starts, hstands'.depth⟩
    have hne : run' ≠ [] := by
      rintro rfl
      exact hcontent.ne_nil hblock (List.map_eq_nil_iff.mp hrun.symm)
    obtain ⟨ls'', hls'', hdrop⟩ := hls'.exists_of_blanks hblank
    have hlast := hsource.rest_ne_nil hruns htokens' hbefore' hisRun hne hls'' (hdrop.trans hlead')
    cases g with
    | nil => cases hg
    | cons n children next =>
      injection hg with hn hchildren hnext
      obtain rfl := Forest.map_eq_nil_iff.mp hchildren
      obtain rfl := Forest.map_eq_nil_iff.mp hnext
      obtain ⟨d, rest, rfl⟩ := List.exists_cons_of_ne_nil hlast
      obtain rfl := hend d rfl
      obtain ⟨spaces, t, after, -, hts, hspaces, ht, -⟩ :=
        hlead'.exists_punctuation hls' hblank rfl (by simp)
      have hcompacts := hsource.compacts hfailure hruns (by rw [htokens', hts, List.append_assoc])
        hbefore' hrun hstands hcontent (by simp) hspaces (by simp [Terminates, ht])
      subst hn
      refine ⟨⟨fun _ => ⟨depth, hcompacts, fun _ => ⟨rfl, ?_⟩⟩, trivial, trivial⟩, before' ++ run',
        ts', ls'', depth, by simp [htokens'], ⟨before', run', rfl, hbefore', hisRun⟩, hls'',
        hdrop.trans hlead'⟩
      rintro (hroot | hnone)
      · cases hclosed hroot
      · cases hnone
  | @block run depth text gap inner cs rest c children f hstands hgap hcontent hblock hinner hreads
      ihInner ih =>
    obtain ⟨before', run', ts', ls', htokens', hbefore', hrun, hls', hlead'⟩ :=
      hsource.exists_run htokens hbefore hlexes hlead hstands
    obtain ⟨spaces, t, ts', ls'', rfl, hspaces, ht, hls'', hlead''⟩ :=
      hlead'.exists_punctuation hls' hgap rfl (by simp)
    have hstands' := hstands.congr hrun
    have hpending : Statement.Pending (before' ++ run') depth :=
      ⟨before', run', rfl, hbefore', hstands'.starts, hstands'.depth⟩
    have hcompacts := hsource.compacts hfailure hruns (by simpa using htokens') hbefore' hrun
      hstands hcontent (by simp) hspaces (by simp [hblock])
    cases g with
    | nil => cases hg
    | cons n children next =>
      injection hg with hn hchildren hnext
      obtain ⟨hcompactable, before₂, ts₂, ls₂, depth₂, htokens₂, hpending₂, hls₂, hlead₂⟩ :=
        @ihInner (before' ++ run' ++ spaces ++ [t]) ts' ls'' (by simp [htokens'])
          ((hpending.append_spaces hspaces).ended (by rw [ht]; rfl)) hls'' hlead'' children false
          hchildren (by simp) (by simp)
      obtain ⟨spaces₂, t₂, ts₃, ls₃, rfl, hspaces₂, ht₂, hls₃, hlead₃⟩ :=
        hlead₂.exists_punctuation (show Lexes .plain ([] ++ '\x7d' :: cs) [] ls₂ last from hls₂)
          (by simp) rfl (by simp)
      obtain ⟨hcompactable', hrest⟩ := @ih (before₂ ++ spaces₂ ++ [t₂]) ts₃ ls₃ (by simp [htokens₂])
        ((hpending₂.append_spaces hspaces₂).ended (by rw [ht₂]; rfl)) hls₃ hlead₃ next closed hnext
        hclosed hend
      subst hn
      refine ⟨⟨fun _ => ⟨depth, hcompacts, fun hleaf => ?_⟩, hcompactable, hcompactable'⟩, hrest⟩
      rw [hblock] at hleaf
      cases hleaf

end Minimizable

/-- **What the compact layout prints** of a minimizable source is in the grammar. -/
theorem Minimizable.reads_print {source : Source} {t : Tree Node} (hsource : Minimizable source)
    (h : parse source false = .ok t) :
    Reads (t.print (.compact id)).toList (t.children.map Node.content).compacted [] := by
  obtain ⟨hfailure, state, hruns, -⟩ := parse_eq_ok_iff.mp h
  obtain ⟨last, hlexes⟩ := (Reader.ofSource_fresh source false).lexes_of_drain rfl hfailure
  have hcompactable : t.children.Compactable true :=
    (hsource.compactable hfailure hruns (reads_of_parse h).1 rfl .nil hlexes (.of_eq rfl) rfl
      (fun _ => rfl) (by simp)).1
  have hreads := hcompactable.reads_print true 0 (by simp) (.nil [])
  simpa [Tree.print, Layout.compact] using hreads

/-- **Minimizing keeps the structure.**  What the compact layout prints of a minimizable source is
accepted, and its tree is the one of the source without comments, with each selector, value and list
of parameters compacted. -/
theorem exists_parse_print_minimized {source source' : Source} {t : Tree Node}
    (h : parse source false = .ok t) (hsource : Minimizable source)
    (htext : source'.text = t.print ({ minimize := true } : Style).layout) :
    ∃ t', parse source' false = .ok t' ∧
      t'.map Node.content = ⟨.root, (t.children.map Node.content).compacted⟩ := by
  refine parse_of_reads ?_
  rw [htext, Style.layout_minimize]
  exact hsource.reads_print h

/-- **Sources of which it can be computed** that they are minimizable: the only at-word, if any, is
the first token, and comments are only in front of the first colon. -/
theorem Minimizable.of_all {source : Source}
    (hurls : (tokenize source false).tokens.all (fun t => t.kind != .word ||
      !Text.eqIgnoringCase t.text.toList "url".toList) = true)
    (hwhite : source.text.toList.all (fun c => !Text.isWhiteSpace c || isBlank c) = true)
    (hat : (tokenize source false).tokens.tail.all (·.kind != .atWord) = true)
    (hcomment : ((tokenize source false).tokens.dropWhile (·.kind != .colon)).all
      (·.kind != .comment) = true)
    (hended : ((tokenize source false).tokens.foldlM (Parse.State.step false) .start).toOption.any
      (·.buffer.isEmpty) = true) : Minimizable source where
  urls t ht hkind := by
    have := List.all_eq_true.mp hurls t ht
    simpa [hkind] using this
  white c hc hspace := by
    have := List.all_eq_true.mp hwhite c hc
    simpa [hspace] using this
  atWords {before after t} htokens hkind := by
    cases before with
    | nil => exact .nil
    | cons first before =>
      rw [htokens] at hat
      have := List.all_eq_true.mp hat t (by simp)
      simp [hkind] at this
  values {before front back after colon depth} htokens _ _ _ _ _ hcolon t ht hkind := by
    have hdrop (xs ys : List Token) : ∀ u ∈ ys,
        u ∈ (xs ++ colon :: ys).dropWhile (·.kind != .colon) := by
      intro u hu
      induction xs with
      | nil => simp [hcolon, hu]
      | cons x xs ih =>
        rw [List.cons_append, List.dropWhile_cons]
        split
        · exact ih
        · simp [hu]
    have hcut : (tokenize source false).tokens = (before ++ front) ++ colon :: (back ++ after) := by
      simp [htokens]
    rw [hcut] at hcomment
    have hmem := hdrop (before ++ front) (back ++ after) t
      (List.mem_append_left _ ((List.dropWhile_suffix _).subset ht))
    have := List.all_eq_true.mp hcomment t hmem
    simp [hkind] at this
  ended := by
    cases hrun : (tokenize source false).tokens.foldlM (Parse.State.step false) .start with
    | error e =>
      rw [hrun] at hended
      cases hended
    | ok s =>
      rw [hrun] at hended
      obtain ⟨before, hcut, hbefore⟩ := (Parse.State.Runs.at hrun).cut
      have hbuffer : s.buffer = [] := by simpa [Except.toOption] using hended
      rw [hcut, hbuffer]
      simpa using hbefore

/-- An at-rule, a rule with a comment in its selector, and declarations. -/
def spacedSheet : Source where
  text := "@m ( x ) ; /* */ a /*k*/ , b \x7b c : d , e ! important ; f : ( g ) \x7d"

theorem exists_parse_print_minimized_spacedSheet :
    ∃ t t', parse spacedSheet false = .ok t ∧ Minimizable spacedSheet ∧
      parse { text := t.print ({ minimize := true } : Style).layout } false = .ok t' ∧
        t'.map Node.content = ⟨.root, (t.children.map Node.content).compacted⟩ := by
  obtain ⟨t, ht⟩ := exists_ok_of_isOk (by decide +kernel : (parse spacedSheet false).isOk = true)
  have hsource : Minimizable spacedSheet := .of_all (by decide +kernel) (by decide +kernel)
    (by decide +kernel) (by decide +kernel) (by decide +kernel)
  obtain ⟨t', ht', hshape⟩ := exists_parse_print_minimized ht hsource
    (show ({ text := t.print ({ minimize := true } : Style).layout } : Source).text = _ from rfl)
  exact ⟨t, t', ht, hsource, ht', hshape⟩

end LosslessCss
