import LosslessCss.Proofs.Rewriting
import LosslessCss.Proofs.CompactHeads
import LosslessCss.Proofs.EditedSheets

/-!
# Sheets in which values were rewritten

Rewriting lengths in the values of a sheet that was read changes the values and nothing else: each
statement is read as it was, up to its value, and ends where it ended (`Forest.Settled.mapValue`).
A statement is cut into the part up to its value and the rest, and each part is read alike for its
own reason: the first one because it ends in no word, the second one because lengths end nothing.
The mark of a value stays too (`splitImportant_rewritten`): neither can it be hidden by a length nor
can a length bring it about.

## Main Definitions

* `Content.mapValue`, `Node.mapValue` : another value for a declaration
* `Token.SameEnd` : two texts that end a statement alike

## Main Statements

* `Statement.Stands.rewritten` : a declaration with a rewritten value
* `Forest.Legible.mapValue`, `Forest.Settled.mapValue`
-/

namespace LosslessCss

open Value.Length
open Token (Mode Stops)

/-! ### Another value -/

/-- Another value for a declaration. -/
def Content.mapValue (g : String → String) : Content → Content
  | .declaration property value important => .declaration property (g value) important
  | c => c

/-- Another value for a declaration; the gaps stay. -/
def Node.mapValue (g : String → String) (n : Node) : Node :=
  { n with content := n.content.mapValue g }

section MapValue

variable (g : String → String)

@[simp]
theorem Content.isComment_mapValue (c : Content) : (c.mapValue g).isComment = c.isComment := by
  cases c <;> rfl

@[simp]
theorem Content.opensBlock_mapValue (c : Content) : (c.mapValue g).opensBlock = c.opensBlock := by
  cases c <;> rfl

/-- Only declarations have a value. -/
theorem Content.mapValue_eq_self {c : Content} (h : c.isDeclaration = false) : c.mapValue g = c := by
  cases c <;> first | rfl | cases h

theorem Node.mapValue_eq_self {n : Node} (h : n.content.isDeclaration = false) :
    n.mapValue g = n := by
  rw [mapValue, Content.mapValue_eq_self g h]

@[simp]
theorem Node.trail_mapValue (semicolon : Bool) (n : Node) :
    (n.mapValue g).trail semicolon = n.trail semicolon := by
  obtain ⟨content, raws, span⟩ := n
  cases content <;> rfl

@[simp]
theorem Forest.hasStatement_mapValue (f : Forest Node) :
    (f.map (Node.mapValue g)).hasStatement = f.hasStatement := by
  induction f with
  | nil => rfl
  | cons n children next _ ih =>
    rw [map, hasStatement, hasStatement, ih]
    simp [Node.mapValue]

end MapValue

/-! ### Marks -/

/-- The word of a mark has no digit. -/
theorem IsImportant.isDigit {word : List Char} (h : IsImportant word) {c : Char} (hc : c ∈ word) :
    c.isDigit = false := by
  by_contra hdigit
  have hletters : ∀ d ∈ "important".toList, isLead d.toLower = false := by
    simp only [show "important".toList = ['i', 'm', 'p', 'o', 'r', 't', 'a', 'n', 't'] from rfl,
      List.forall_mem_cons]
    exact ⟨rfl, rfl, rfl, rfl, rfl, rfl, rfl, rfl, rfl, by simp⟩
  have hne := eqIgnoringCase_of_isLead hc (isLead_of_isDigit (by simpa using hdigit)) hletters
  rw [h] at hne
  cases hne

/-- White space is no digit. -/
theorem isDigit_of_isWhiteSpace {c : Char} (h : Text.isWhiteSpace c = true) :
    c.isDigit = false := by
  by_contra hdigit
  have hplain := isPlain_of_isLead (isLead_of_isDigit (by simpa using hdigit))
  rw [isPlain_of_isWhiteSpace h] at hplain
  cases hplain

/-- A rewritten value ends in no white space if the value does not. -/
theorem Rewritten.getLast?_isWhiteSpace {previous : Option Char} {cs ds : List Char}
    (h : Rewritten previous cs ds) (hcs : ∀ c ∈ cs.getLast?, Text.isWhiteSpace c = false) :
    ∀ d ∈ ds.getLast?, Text.isWhiteSpace d = false := by
  intro d hd
  rcases h.getLast?_cases with hlast | hplain
  · exact hcs d (hlast ▸ hd)
  · by_contra hwhite
    have hother := isPlain_of_isWhiteSpace (by simpa using hwhite)
    rw [hplain d hd] at hother
    cases hother

/-- **A mark stays** behind a rewritten value. -/
theorem splitImportant_of_kept {value v mark : List Char}
    (hmark : (splitImportant value).2 = some mark) (hv : ∀ c ∈ v.getLast?, Text.isWhiteSpace c = false) :
    splitImportant (v ++ mark) = (v, some mark) := by
  obtain ⟨-, before, behind, word, after, rfl, hbefore, hbehind, hafter, hword⟩ :=
    isMark_of_splitImportant (Prod.ext rfl hmark)
  obtain ⟨hkept, hsome⟩ := @splitImportant_of_mark (v ++ before) _ _ _ hbehind hword hafter
  rw [Text.trimEnd, dropTrailing_append_of_all _ hbefore, dropTrailing_eq_self_iff.mpr hv,
    List.append_assoc] at hkept
  rw [List.append_assoc] at hsome
  obtain ⟨mark, hmark'⟩ := Option.isSome_iff_exists.mp hsome
  have hboth := splitImportant_append (v ++ (before ++ '!' :: (behind ++ (word ++ after))))
  rw [hkept, hmark', Option.getD_some] at hboth
  obtain rfl := List.append_cancel_left hboth
  exact Prod.ext hkept hmark'

/-- **No mark comes about** by rewriting a value: behind the last `!` something would have been
rewritten, and so there would be a digit. -/
theorem splitImportant_eq_none_of_rewritten {value v : List Char}
    (hmark : (splitImportant value).2 = none) (hr : Rewritten none value v) :
    (splitImportant v).2 = none := by
  by_contra hsome
  obtain ⟨mark, hsome⟩ := Option.ne_none_iff_exists'.mp hsome
  obtain ⟨hv, before, behind, word, after, rfl, -, hbehind, hafter, hword⟩ :=
    isMark_of_splitImportant (Prod.ext rfl hsome)
  rw [← List.append_assoc] at hv
  rw [hv] at hr
  obtain ⟨front, rest, rfl, hrest⟩ := hr.exists_of_append_cons (by decide)
  rcases hrest.eq_or_digit with rfl | ⟨-, d, hd, hdigit⟩
  · have hmark' := (@splitImportant_of_mark front _ _ _ hbehind hword hafter).2
    rw [hmark] at hmark'
    cases hmark'
  · have hother : d.isDigit = false := by
      simp only [List.mem_append] at hd
      rcases hd with hd | hd | hd
      · exact isDigit_of_isWhiteSpace (hbehind d hd)
      · exact IsImportant.isDigit hword hd
      · exact isDigit_of_isWhiteSpace (hafter d hd)
    rw [hdigit] at hother
    cases hother

/-- **The mark of a rewritten value** is the mark that it had. -/
theorem splitImportant_rewritten {value v : List Char}
    (hr : Rewritten none (splitImportant value).1 v) :
    splitImportant (v ++ (splitImportant value).2.getD []) = (v, (splitImportant value).2) := by
  have hvalue := splitImportant_append value
  cases hmark : (splitImportant value).2 with
  | some mark =>
    refine splitImportant_of_kept hmark (hr.getLast?_isWhiteSpace ?_)
    exact splitImportant_kept (by rw [hmark]; rfl)
  | none =>
    rw [hmark, Option.getD_none, List.append_nil] at hvalue
    rw [hvalue] at hr
    have hnone := splitImportant_eq_none_of_rewritten hmark hr
    have hboth := splitImportant_append v
    rw [hnone, Option.getD_none, List.append_nil] at hboth
    rw [Option.getD_none, List.append_nil]
    exact Prod.ext hboth hnone

/-! ### A declaration with a rewritten value -/

/-- **A colon, blank space or a comment** ends in no character of a name. -/
theorem Lexes.getLast?_isNameChar {mode last : Mode} {cs rest : List Char} {ls : List Lexeme}
    {l : Lexeme} (h : Lexes mode cs rest (ls ++ [l]) last)
    (hl : l.kind = .colon ∨ l.kind.isTrivia = true) : cs.getLast?.any isNameChar = false := by
  obtain ⟨cs₁, cs₂, middle, rfl, -, hlast⟩ := h.exists_of_append
  cases hlast with
  | @cons _ _ kind c text _ _ _ hscan htail =>
    cases htail
    rw [List.append_nil, List.getLast?_append_of_ne_nil _ (by simp)]
    refine hscan.getLast?_isNameChar ?_ ?_ <;> rintro rfl <;> rcases hl with hl | hl <;> cases hl

/-- **The front of a declaration** is read alike in front of a rewritten value. -/
theorem Lexes.front_of_rewritten {mode middle : Mode} {head rest rest' : List Char}
    {front gap : List Token} {colon : Token}
    (h : Lexes mode head rest ((front ++ colon :: gap).map Token.lexeme) middle)
    (hcolon : colon.kind = .colon) (hgap : ∀ t ∈ gap, t.isTrivia = true)
    (hr : Rewritten none rest rest') :
    Lexes mode head rest' ((front ++ colon :: gap).map Token.lexeme) middle := by
  obtain ⟨ls, l, hls, hl⟩ : ∃ ls l, (front ++ colon :: gap).map Token.lexeme = ls ++ [l] ∧
      (l.kind = .colon ∨ l.kind.isTrivia = true) := by
    rcases List.eq_nil_or_concat gap with rfl | ⟨gap, t, rfl⟩
    · exact ⟨front.map Token.lexeme, colon.lexeme, by simp, .inl hcolon⟩
    · exact ⟨(front ++ colon :: gap).map Token.lexeme, t.lexeme, by simp,
        .inr (hgap t (by simp))⟩
  rw [hls] at h ⊢
  have hbehind : Rewritten (head.getLast?.or none) rest rest' := hr.of_previous (by
    rw [Option.or_none]
    exact h.getLast?_isNameChar hl)
  refine h.rewritten_behind hbehind ?_
  rw [List.getLast?_concat]
  rintro _ ⟨⟩ hword
  rw [hword] at hl
  rcases hl with hl | hl <;> cases hl

/-- A run starts with all its trivia. -/
theorem exists_trivia_append (ts : List Token) :
    ∃ gap body, ts = gap ++ body ∧ (∀ t ∈ gap, t.isTrivia = true) ∧
      ∀ t ∈ body.head?, t.isTrivia = false := by
  refine ⟨ts.takeWhile Token.isTrivia, ts.dropWhile Token.isTrivia,
    List.takeWhile_append_dropWhile.symm, fun t ht => List.mem_takeWhile_imp ht, fun t ht => ?_⟩
  have hhead := List.head?_dropWhile_not Token.isTrivia ts
  rw [Option.mem_def.mp ht] at hhead
  simpa using hhead

namespace Statement.Stands

variable {run : List Token} {depth : Nat} {text ahead : List Char}

/-- **A run of merged tokens** stands where the run stood. -/
theorem merged {front body body' : List Token} {text' : List Char} {last : Mode}
    (h : Stands (front ++ body) depth text ahead) (hfront : front ≠ [])
    (hmerged : Token.Kind.Merged (body.map Token.kind) (body'.map Token.kind))
    (hlast : last ≠ .address)
    (hlexes : Lexes .plain text' ahead ((front ++ body').map Token.lexeme) last) :
    Stands (front ++ body') depth text' ahead := by
  refine ⟨fun t ht => ?_, ?_, fun t ht => ?_, last, hlast, hlexes⟩
  · rw [List.head?_append_of_ne_nil _ hfront] at ht
    exact h.starts t (by rwa [List.head?_append_of_ne_nil _ hfront])
  · have hdepth := h.depth
    rw [List.map_append, depth?_append] at hdepth ⊢
    rw [← hdepth]
    exact congrArg _ (funext fun d => hmerged.depth?_eq d)
  · have hkinds : ((front ++ body').map Token.kind).getLast? =
        ((front ++ body).map Token.kind).getLast? := by
      rw [List.map_append, List.map_append, List.getLast?_append, List.getLast?_append,
        hmerged.getLast?_eq]
    rw [List.getLast?_map, List.getLast?_map, Option.mem_def.mp ht, Option.map_some] at hkinds
    obtain ⟨u, hu, hkind⟩ := Option.map_eq_some_iff.mp hkinds.symm
    rw [Token.isSpace, ← hkind]
    exact h.ends u hu

/-- **A declaration with a rewritten value** is read as the declaration with that value. -/
theorem rewritten (h : Stands run depth text ahead) {parts : DeclarationParts}
    (hparts : DeclarationParts.ofTokens run = .ok parts) {v : List Char}
    (hr : Rewritten none parts.value.toList v) :
    ∃ run', Stands run' depth (Token.concat run').toList ahead ∧ run'.head? = run.head? ∧
      DeclarationParts.ofTokens run' = .ok { parts with value := String.ofList v } := by
  obtain ⟨front, colon, back, rfl, hfront, hcolon, hne, rfl⟩ :=
    DeclarationParts.ofTokens_eq_ok_iff.mp hparts
  rw [DeclarationParts.ofHalves, String.toList_ofList] at hr
  obtain ⟨gap, body, rfl, hgap, hbody⟩ := exists_trivia_append back
  rw [dropWhile_append_of_head hgap hbody] at hr
  have hcut (body : List Token) : front ++ colon :: (gap ++ body) = front ++ colon :: gap ++ body := by
    simp
  rw [hcut] at h
  obtain ⟨last, hlast, hlexes⟩ := h.lexes
  rw [List.map_append] at hlexes
  obtain ⟨head, value, middle, rfl, hhead, hvalue⟩ := hlexes.exists_of_append
  have hvalueText : (Token.concat body).toList = value := by
    rw [Token.toList_concat, hvalue.concat_eq]
  rw [hvalueText] at hr
  have hmark := splitImportant_rewritten hr
  have hr' := hr.append_right ((splitImportant value).2.getD [])
  rw [splitImportant_append] at hr'
  generalize v ++ (splitImportant value).2.getD [] = value' at hmark hr'
  obtain ⟨ls', hls', hmerged⟩ := hvalue.rewritten hr'
  have hhead' := hhead.front_of_rewritten hcolon hgap (hr'.append_right ahead)
  generalize hbody' : ls'.map Lexeme.token = body'
  obtain rfl : body'.map Token.lexeme = ls' := by rw [← hbody', Lexeme.map_lexeme_token]
  rw [List.map_map, List.map_map] at hmerged
  have hlexes' := hhead'.append hls'
  rw [← List.map_append] at hlexes'
  refine ⟨front ++ colon :: gap ++ body', ?_, ?_, ?_⟩
  · rw [Token.toList_concat, hlexes'.concat_eq]
    exact h.merged (by simp) hmerged hlast hlexes'
  · cases front <;> rfl
  · have hbodyHead : ∀ t ∈ body'.head?, t.isTrivia = false := by
      have hkind := hmerged.head? fun k hk => by
        obtain ⟨t, ht, rfl⟩ := Option.map_eq_some_iff.mp (List.head?_map ▸ hk)
        exact hbody t ht
      exact fun t ht => hkind t.kind (List.head?_map ▸ congrArg (Option.map Token.kind) ht)
    have hvalueText' : (Token.concat body').toList = value' := by
      rw [Token.toList_concat, hls'.concat_eq]
    refine DeclarationParts.ofTokens_eq_ok_iff.mpr
      ⟨front, colon, gap ++ body', (hcut body').symm, hfront, hcolon, hne, ?_⟩
    simp only [DeclarationParts.ofHalves, takeWhile_append_of_head hgap hbody,
      takeWhile_append_of_head hgap hbodyHead, dropWhile_append_of_head hgap hbody,
      dropWhile_append_of_head hgap hbodyHead, hvalueText, hvalueText', hmark]

end Statement.Stands

/-! ### Texts that end a statement alike -/

/-- **Two texts end a statement alike**: they start with the same character, also behind blank
space. -/
structure Token.SameEnd (cs ds : List Char) : Prop where
  head : cs.head? = ds.head?
  behind : (cs.dropWhile isBlank).head? = (ds.dropWhile isBlank).head?

namespace Token.SameEnd

variable {cs ds : List Char}

theorem refl (cs : List Char) : SameEnd cs cs := ⟨rfl, rfl⟩

/-- The same text in front makes no difference. -/
theorem append (h : SameEnd cs ds) (text : List Char) : SameEnd (text ++ cs) (text ++ ds) := by
  refine ⟨by rw [List.head?_append, List.head?_append, h.head], ?_⟩
  rw [List.dropWhile_append, List.dropWhile_append]
  split
  · exact h.behind
  · rw [List.head?_append, List.head?_append, h.head]

/-- A text that is not blank decides. -/
theorem of_append {text : List Char} {c : Char} (hmem : c ∈ text) (hc : isBlank c = false)
    (cs ds : List Char) : SameEnd (text ++ cs) (text ++ ds) := by
  have hne : text.dropWhile isBlank ≠ [] := fun hnil => by
    rw [List.dropWhile_eq_nil_iff.mp hnil c hmem] at hc
    cases hc
  refine ⟨?_, ?_⟩
  · rw [List.head?_append_of_ne_nil _ (List.ne_nil_of_mem hmem),
      List.head?_append_of_ne_nil _ (List.ne_nil_of_mem hmem)]
  · rw [List.dropWhile_append, List.dropWhile_append, if_neg (by simpa using hne),
      if_neg (by simpa using hne), List.head?_append_of_ne_nil _ hne,
      List.head?_append_of_ne_nil _ hne]

end Token.SameEnd

/-- **A node ends in front of texts that end it alike.** -/
theorem Node.EndsBefore.change {n : Node} {behind behind' : List Char} (h : n.EndsBefore behind)
    (hsame : Token.SameEnd behind behind') : n.EndsBefore behind' := by
  refine ⟨fun hescape => ?_, fun haddress => ?_, fun hblock => ?_⟩
  · rw [← List.head?_eq_none_iff, ← hsame.head, h.escape hescape]
    rfl
  · rw [← hsame.head]
    exact h.address haddress
  · rw [← hsame.behind]
    exact h.ended hblock

/-! ### Nodes with rewritten values -/

/-- The colon of a declaration is in front of its value. -/
theorem DeclarationParts.colon_mem_between {run : List Token} {parts : DeclarationParts}
    (h : ofTokens run = .ok parts) (hspells : ∀ t ∈ run, t.kind.Spells t.text.toList) :
    ':' ∈ parts.between.toList := by
  obtain ⟨front, colon, back, rfl, -, hcolon, -, rfl⟩ := ofTokens_eq_ok_iff.mp h
  have hspell := hspells colon (by simp)
  rw [hcolon] at hspell
  have htext : colon.text.toList = [':'] := hspell
  simp [ofHalves, htext]

section Front

variable (g : String → String)

/-- **Up to its value** the text of a leaf stays, and that is not blank. -/
theorem Node.Written.exists_front {n : Node} (h : n.Written)
    (hblock : n.content.opensBlock = false) :
    ∃ front back back' c, n.ownText.toList = front ++ back ∧
      (n.mapValue g).ownText.toList = front ++ back' ∧ c ∈ front ∧ Token.isBlank c = false := by
  obtain ⟨content, raws, span⟩ := n
  cases content with
  | root => exact absurd rfl h.content_ne_root
  | rule => cases hblock
  | comment text =>
    exact ⟨_, [], [], '/', (List.append_nil _).symm, (List.append_nil _).symm,
      by simp [Node.ownText], rfl⟩
  | atRule name params hasBody =>
    exact ⟨_, [], [], '@', (List.append_nil _).symm, (List.append_nil _).symm,
      by simp [Node.ownText], rfl⟩
  | declaration property value important =>
    obtain ⟨run, depth, ahead, hstands, -, -, ⟨parts, hparts, hbetween, -⟩, -⟩ := h.exists_run rfl
    obtain ⟨last, -, hlexes⟩ := hstands.lexes
    have hcolon := DeclarationParts.colon_mem_between hparts hlexes.spells_tokens
    have hbetween' : raws.between = some parts.between := hbetween
    let mark := if important then raws.important.getD " !important" else ""
    refine ⟨(property ++ parts.between).toList, (value ++ mark).toList, (g value ++ mark).toList, ':',
      ?_, ?_, by simp [hcolon], rfl⟩
    · simp [Node.ownText, hbetween', mark]
    · simp [Node.ownText, Node.mapValue, Content.mapValue, hbetween', mark]

/-- **Forests with other values** start alike. -/
theorem Forest.sameEnd_print {f : Forest Node} (hf : f.Legible) (closed first : Bool) (depth : Nat)
    {behind behind' : List Char} (hsame : Token.SameEnd behind behind') :
    Token.SameEnd ((f.print (.faithful id) closed first depth).toList ++ behind)
      (((f.map (Node.mapValue g)).print (.faithful id) closed first depth).toList ++ behind') := by
  cases f with
  | nil => exact hsame
  | cons n children next =>
    obtain ⟨⟨hwritten, -, -⟩, -, -⟩ := hf
    rw [Forest.map, Forest.toList_print_cons, Forest.toList_print_cons]
    refine Token.SameEnd.append ?_ _
    cases hblock : n.content.opensBlock with
    | false =>
      obtain ⟨front, back, back', c, htext, htext', hmem, hc⟩ := hwritten.exists_front g hblock
      rw [htext, htext', List.append_assoc, List.append_assoc]
      exact .of_append hmem hc _ _
    | true =>
      have hself : n.mapValue g = n := Node.mapValue_eq_self g (by
        cases hcontent : n.content <;> rw [hcontent] at hblock <;> first | rfl | cases hblock)
      rw [hself, Forest.hasStatement_mapValue]
      simp only [hblock, if_true]
      refine Token.SameEnd.append (Token.SameEnd.append ?_ _) _
      exact .of_append (List.mem_singleton_self '\x7b') rfl _ _

end Front

section Nodes

variable {g : String → String} (hg : ∀ value, Rewritten none value.toList (g value).toList)

include hg

/-- **What a run means, with a rewritten value**, is what another run means. -/
theorem Content.exists_run_mapValue {c : Content} {run : List Token} {depth : Nat}
    {text ahead : List Char} {raws : Raws} (hstands : Statement.Stands run depth text ahead)
    (hcontent : c.ReadFrom run) (hrecords : c.Records run raws) :
    ∃ run', Statement.Stands run' depth (Token.concat run').toList ahead ∧
      (c.mapValue g).ReadFrom run' ∧ (c.mapValue g).Records run' raws := by
  cases hcontent with
  | rule hfirst => exact ⟨run, by rwa [hstands.text_eq], .rule hfirst, hrecords⟩
  | atRule hfirst hkind hasBody =>
    exact ⟨run, by rwa [hstands.text_eq], .atRule hfirst hkind hasBody, hrecords⟩
  | @declaration parts hfirst hparts =>
    obtain ⟨parts', hparts', hbetween, himportant, hgap⟩ := hrecords
    obtain rfl : parts = parts' := Except.ok.inj (hparts.symm.trans hparts')
    obtain ⟨run', hstands', hhead, hrun'⟩ := hstands.rewritten hparts (hg parts.value)
    rw [String.ofList_toList] at hrun'
    rw [← hhead] at hfirst
    exact ⟨run', hstands', .declaration hfirst hrun', _, hrun', hbetween, himportant, hgap⟩

theorem Node.Written.mapValue {n : Node} (h : n.Written) : (n.mapValue g).Written := by
  cases h with
  | comment hinner hcontent hleft hright =>
    refine .comment hinner ?_ hleft hright
    rw [Node.mapValue, hcontent]
    rfl
  | run hstands hstops hcontent hrecords =>
    obtain ⟨run', hstands', hcontent', hrecords'⟩ :=
      Content.exists_run_mapValue hg hstands hcontent hrecords
    exact .run hstands' hstops hcontent' hrecords'

/-- **With a rewritten value a node ends where it ended.** -/
theorem Node.EndsBefore.mapValue {n : Node} {behind : List Char} (hends : n.EndsBefore behind)
    (h : n.Written) : (n.mapValue g).EndsBefore behind := by
  cases hdeclaration : n.content.isDeclaration with
  | false => rwa [Node.mapValue_eq_self g hdeclaration]
  | true =>
    obtain ⟨hcomment, hblock⟩ : n.content.isComment = false ∧ n.content.opensBlock = false := by
      cases hcontent : n.content <;> rw [hcontent] at hdeclaration <;> first
        | exact ⟨rfl, rfl⟩
        | cases hdeclaration
    have hstops := hends.stops hblock
    obtain ⟨run, depth, hstands, hcontent, hrecords, hlexemes⟩ := h.stands hcomment hends hstops
    obtain ⟨run', hstands', hcontent', hrecords'⟩ :=
      Content.exists_run_mapValue hg hstands hcontent hrecords
    obtain ⟨last, -, hlexes⟩ := hstands'.lexes
    have htext : (n.mapValue g).ownText = Token.concat run' :=
      Node.ownText_eq_concat hcontent' hrecords' hlexes.spells_tokens
    rw [← htext] at hstands'
    refine hstands'.endsBefore hstops fun _ c hc => ?_
    refine (hends.ended hblock c hc).imp_right fun ⟨hsemi, hdepth⟩ => ⟨hsemi, ?_⟩
    rw [hlexemes, List.map_map] at hdepth
    exact Option.some.inj (hstands.depth.symm.trans hdepth)

theorem Forest.Legible.mapValue {f : Forest Node} (hf : f.Legible) :
    (f.map (Node.mapValue g)).Legible := by
  induction f with
  | nil => trivial
  | cons n children next ihChildren ihNext =>
    obtain ⟨⟨hwritten, hspaced, hleaf⟩, hchildren, hnext⟩ := hf
    refine ⟨⟨hwritten.mapValue hg, ⟨hspaced.before, hspaced.after⟩, fun hblock => ?_⟩,
      ihChildren hchildren, ihNext hnext⟩
    rw [Forest.map_eq_nil_iff]
    refine hleaf ?_
    rwa [← Content.opensBlock_mapValue g]

/-- **With rewritten values a forest is settled** as it was. -/
theorem Forest.Settled.mapValue {f : Forest Node} (hf : f.Legible) {closed : Bool} {depth : Nat}
    {behind behind' : List Char} (h : f.Settled closed depth behind)
    (hsame : Token.SameEnd behind behind') :
    (f.map (Node.mapValue g)).Settled closed depth behind' := by
  induction f generalizing closed depth behind behind' with
  | nil => trivial
  | cons n children next ihChildren ihNext =>
    obtain ⟨⟨hwritten, -, hleaf⟩, hchildren, hnext⟩ := hf
    obtain ⟨hends, hinner, hlater⟩ := h
    have hafter := Forest.sameEnd_print g hnext closed false depth hsame
    refine ⟨fun hcomment => ?_, fun hblock => ?_, ihNext hnext hlater hsame⟩
    · have hends' := (hends (by simpa [Node.mapValue] using hcomment)).mapValue hg hwritten
      rw [Node.trail_mapValue, Forest.hasStatement_mapValue, show (n.mapValue g).content.opensBlock =
        n.content.opensBlock from Content.opensBlock_mapValue g _]
      cases hblock : n.content.opensBlock with
      | false =>
        rw [hblock] at hends'
        exact hends'.change (hafter.append _)
      | true =>
        rw [hblock] at hends'
        refine hends'.change (Token.SameEnd.append ?_ _)
        exact .of_append (List.mem_singleton_self '\x7b') rfl _ _
    · refine ihChildren hchildren (hinner (by simpa [Node.mapValue] using hblock)) ?_
      have hempty : (children.map (Node.mapValue g)).isEmpty = children.isEmpty := by
        cases children <;> rfl
      rw [hempty]
      refine Token.SameEnd.append ?_ _
      exact .of_append (List.mem_singleton_self '\x7d') rfl _ _

end Nodes

end LosslessCss
