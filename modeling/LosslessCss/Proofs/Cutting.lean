import LosslessCss.Proofs.Settling

/-!
# Where a node ends is determined by what it means

The converse of `Forest.Legible.reads_print`: a text that is read as what it was printed from was
printed from a settled forest.  A run that means the same as the node it was printed from takes up
the same text, because the parts of a node that mean something show where the gaps between them end.

There is one exception.  A declaration without a value can take comments behind it into its own gap
and still mean the same.  But then the comments are missed where they should be nodes.

## Main Definitions

* `Trivia` : a text of gaps and comments, with the number of comments
* `IsMark` : a text that marks a declaration as important

## Main Statements

* `Node.Written.cut` : runs that mean the same end at the same place
* `Forest.settled_of_reads`
-/

namespace LosslessCss

open Token (Mode Scans Stops)

/-! ### Gaps and comments -/

/-- **A stretch of one class is determined** by the text that it starts. -/
theorem append_inj_of_all {p : Char → Bool} {cs cs' rest rest' : List Char}
    (hcs : ∀ c ∈ cs, p c = true) (hcs' : ∀ c ∈ cs', p c = true)
    (hrest : ∀ c ∈ rest.head?, p c = false) (hrest' : ∀ c ∈ rest'.head?, p c = false)
    (h : cs ++ rest = cs' ++ rest') : cs = cs' ∧ rest = rest' := by
  obtain rfl : cs = cs' := by
    rw [← takeWhile_append_of_head hcs hrest, h, takeWhile_append_of_head hcs' hrest']
  exact ⟨rfl, List.append_cancel_left h⟩

/-- **A text of gaps and comments**, with the number of comments.  The class says which characters
make up gaps. -/
inductive Trivia (p : Char → Bool) : List Char → Nat → Prop
  | nil : Trivia p [] 0
  | gap {c : Char} {cs : List Char} {k : Nat} (hc : p c = true) (h : Trivia p cs k) :
      Trivia p (c :: cs) k
  | comment {inner cs : List Char} {k : Nat}
      (hinner : Token.commentTail (inner ++ ['*', '/']) = some (inner.length + 2))
      (h : Trivia p cs k) : Trivia p ('/' :: '*' :: (inner ++ ['*', '/'] ++ cs)) (k + 1)

namespace Trivia

variable {p : Char → Bool} {cs ds rest rest' : List Char} {k m : Nat}

theorem of_all (h : ∀ c ∈ cs, p c = true) : Trivia p cs 0 := by
  induction cs with
  | nil => exact .nil
  | cons c cs ih =>
    exact .gap (h c List.mem_cons_self) (ih fun d hd => h d (List.mem_cons_of_mem c hd))

theorem append (h : Trivia p cs k) (h' : Trivia p ds m) : Trivia p (cs ++ ds) (k + m) := by
  induction h with
  | nil => simpa using h'
  | gap hc _ ih => exact .gap hc ih
  | comment hinner _ ih =>
    have hall := Trivia.comment hinner ih
    rw [Nat.add_right_comm]
    simpa using hall

theorem mono {q : Char → Bool} (h : Trivia p cs k) (hpq : ∀ c, p c = true → q c = true) :
    Trivia q cs k := by
  induction h with
  | nil => exact .nil
  | gap hc _ ih => exact .gap (hpq _ hc) ih
  | comment hinner _ ih => exact .comment hinner ih

/-- Without a comment there are gaps only. -/
theorem all_of_zero (h : Trivia p cs 0) : ∀ c ∈ cs, p c = true := by
  generalize hk : 0 = k at h
  induction h with
  | nil => simp
  | gap hc _ ih =>
    intro d hd
    rcases List.mem_cons.mp hd with rfl | hd
    · exact hc
    · exact ih hk d hd
  | comment => cases hk

/-- Where comments end is determined by the text. -/
theorem inner_unique {inner inner' : List Char}
    (hinner : Token.commentTail (inner ++ ['*', '/']) = some (inner.length + 2))
    (hinner' : Token.commentTail (inner' ++ ['*', '/']) = some (inner'.length + 2))
    (h : inner ++ ['*', '/'] ++ rest = inner' ++ ['*', '/'] ++ rest') :
    inner = inner' ∧ rest = rest' := by
  have hreach : Token.commentTail (inner ++ ['*', '/'] ++ rest) = some (inner.length + 2) :=
    (Token.commentTail_append_iff (by simp)).mpr hinner
  rw [h, (Token.commentTail_append_iff (by simp)).mpr hinner'] at hreach
  obtain ⟨htext, hrest⟩ := List.append_inj h (by simpa using (Option.some.inj hreach).symm)
  exact ⟨List.append_cancel_right htext, hrest⟩

/-- **Of two texts of gaps and comments** at the same place one starts with the other. -/
theorem split (hp : p '/' = false) (h : Trivia p cs k) (h' : Trivia p ds m)
    (htext : cs ++ rest = ds ++ rest') :
    (∃ more j, Trivia p more j ∧ ds = cs ++ more ∧ m = k + j) ∨
      ∃ more j, Trivia p more j ∧ cs = ds ++ more ∧ k = m + j := by
  induction h generalizing ds m with
  | nil => exact .inl ⟨ds, m, h', rfl, (Nat.zero_add m).symm⟩
  | @gap c cs k hc h ih =>
    cases h' with
    | nil => exact .inr ⟨c :: cs, k, .gap hc h, rfl, (Nat.zero_add k).symm⟩
    | gap hc' h' =>
      obtain ⟨rfl, hbehind⟩ := List.cons.inj htext
      refine (ih h' hbehind).imp ?_ ?_
      all_goals
        rintro ⟨more, j, hmore, rfl, rfl⟩
        exact ⟨more, j, hmore, rfl, rfl⟩
    | comment =>
      obtain ⟨rfl, -⟩ := List.cons.inj htext
      rw [hp] at hc
      cases hc
  | @comment inner cs k hinner h ih =>
    cases h' with
    | nil => exact .inr ⟨_, k + 1, .comment hinner h, rfl, (Nat.zero_add _).symm⟩
    | gap hc' =>
      obtain ⟨rfl, -⟩ := List.cons.inj htext
      rw [hp] at hc'
      cases hc'
    | comment hinner' h' =>
      obtain ⟨rfl, hbehind⟩ := inner_unique hinner hinner' (by simpa using htext)
      refine (ih h' hbehind).imp ?_ ?_
      all_goals
        rintro ⟨more, j, hmore, rfl, rfl⟩
        exact ⟨more, j, hmore, by simp, Nat.add_right_comm _ _ _⟩

/-- **Neither a gap nor a comment** starts the text. -/
def Ended (p : Char → Bool) (cs : List Char) : Prop :=
  (∀ c ∈ cs.head?, p c = false) ∧ ∀ ds, cs ≠ '/' :: '*' :: ds

/-- A text of gaps and comments in front of something else is empty. -/
theorem eq_nil_of_ended (h : Trivia p cs k) (hended : Ended p (cs ++ rest)) : cs = [] ∧ k = 0 := by
  cases h with
  | nil => exact ⟨rfl, rfl⟩
  | gap hc =>
    rw [hended.1 _ rfl] at hc
    cases hc
  | comment => exact absurd rfl (hended.2 _)

/-- **Gaps and comments are determined** by the text that they start. -/
theorem unique (hp : p '/' = false) (h : Trivia p cs k) (h' : Trivia p ds m)
    (hrest : Ended p rest) (hrest' : Ended p rest') (htext : cs ++ rest = ds ++ rest') :
    cs = ds ∧ k = m ∧ rest = rest' := by
  rcases split hp h h' htext with ⟨more, j, hmore, rfl, rfl⟩ | ⟨more, j, hmore, rfl, rfl⟩
  · obtain rfl : rest = more ++ rest' := by simpa using htext
    obtain ⟨rfl, rfl⟩ := hmore.eq_nil_of_ended hrest
    simp
  · obtain rfl : more ++ rest = rest' := by simpa using htext
    obtain ⟨rfl, rfl⟩ := hmore.eq_nil_of_ended hrest'
    simp

/-- A text of blank space and comments does not end in a backslash. -/
theorem getLast?_ne (h : Trivia Token.isBlank cs k) : ∀ c ∈ cs.getLast?, c ≠ '\\' := by
  induction h with
  | nil => simp
  | @gap c cs k hc _ ih =>
    intro d hd
    rcases List.eq_nil_or_concat cs with rfl | ⟨cs, e, rfl⟩
    · obtain rfl : c = d := by simpa using hd
      rintro rfl
      cases hc
    · exact ih d (by simpa [List.getLast?_cons] using hd)
  | @comment inner cs k _ _ ih =>
    intro d hd
    rcases List.eq_nil_or_concat cs with rfl | ⟨cs, e, rfl⟩
    · obtain rfl : '/' = d := by simpa [List.getLast?_cons, List.getLast?_append] using hd
      decide
    · exact ih d (by simpa [List.getLast?_cons, List.getLast?_append] using hd)

/-- In front of a comment there are gaps. -/
theorem exists_comment (h : Trivia p cs (k + 1)) (hp : p '/' = false) :
    ∃ ds, cs.dropWhile p = '/' :: '*' :: ds := by
  generalize hm : k + 1 = m at h
  induction h with
  | nil => cases hm
  | gap hc _ ih =>
    rw [List.dropWhile_cons_of_pos hc]
    exact ih hm
  | comment => exact ⟨_, List.dropWhile_cons_of_neg (by simp [hp])⟩

end Trivia

/-! ### Blank characters at the end of a token -/

namespace Token

/-- A word ends in a blank character only behind a backslash. -/
theorem getLast?_of_wordTail {z : List Char} {b : Char} (hb : isBlank b = true)
    (h : wordTail (z ++ [b]) = (z ++ [b]).length) : z.getLast? = some '\\' := by
  have hne : b ≠ '\\' := by
    rintro rfl
    cases hb
  fun_induction dangles z with
  | case1 => simp [wordTail_cons_of_ne _ hne, endsWord, hb] at h
  | case2 => rfl
  | case3 c cs ih =>
    have hlast := ih (by simpa [wordTail_escape] using h)
    cases cs with
    | nil => cases hlast
    | cons d ds => simpa using hlast
  | case4 c cs hne₁ hne₂ ih =>
    have hc : c ≠ '\\' := Token.ne_backslash hne₁ hne₂
    rw [List.cons_append, wordTail_cons_of_ne _ hc] at h
    split at h
    · simp at h
    · have hlast := ih (by simpa using h)
      cases cs with
      | nil => cases hlast
      | cons d ds => simpa using hlast

/-- A string ends in its quote. -/
theorem getLast?_of_stringTail {quote : Char} {cs : List Char}
    (h : stringTail quote cs = some cs.length) : cs.getLast? = some quote := by
  have hpos (cs : List Char) : stringTail quote cs ≠ some 0 := by
    fun_induction stringTail quote cs <;> simp_all
  fun_induction stringTail quote cs with
  | case1 => cases h
  | case2 => cases h
  | case3 c cs ih =>
    have hcs : stringTail quote cs = some cs.length := by simpa using h
    cases cs with
    | nil => exact absurd hcs (hpos [])
    | cons d ds => simpa using ih hcs
  | case4 cs =>
    obtain rfl : cs = [] := by simpa using h
    rfl
  | case5 c cs _ _ _ ih =>
    have hcs : stringTail quote cs = some cs.length := by simpa using h
    cases cs with
    | nil => exact absurd hcs (hpos [])
    | cons d ds => simpa using ih hcs

/-- **A token that is no blank space ends in a blank character** only behind a backslash. -/
theorem Scans.getLast?_of_isBlank {c b : Char} {text ahead z : List Char} {mode : Mode} {kind : Kind}
    (h : Scans c (text ++ ahead) mode kind text.length) (hmode : mode ≠ .address)
    (hspace : kind ≠ .space) (htext : c :: text = z ++ [b]) (hb : isBlank b = true) :
    z.getLast? = some '\\' := by
  have hlast : (c :: text).getLast? = some b := by rw [htext, List.getLast?_concat]
  generalize hn : text.length = n at h
  cases h with
  | address => contradiction
  | space => contradiction
  | punctuation _ hkind =>
    obtain rfl := List.length_eq_zero_iff.mp hn
    obtain rfl : c = b := by simpa using hlast
    rw [isBlank_of_punctuation? hkind] at hb
    cases hb
  | string _ hquote hreach =>
    subst hn
    have hreach' := getLast?_of_stringTail ((stringTail_append_iff le_rfl).mp hreach)
    cases text with
    | nil => cases hreach'
    | cons d ds =>
      obtain rfl : b = c := by
        rw [List.getLast?_cons_cons, hreach'] at hlast
        exact (Option.some.inj hlast).symm
      rcases hquote with rfl | rfl <;> cases hb
  | atWord _ hat =>
    have hall := (length_takeWhile_append_iff.mp hn.symm).1
    rcases List.mem_cons.mp (List.mem_of_getLast? hlast) with rfl | hmem
    · subst hat
      cases hb
    · simpa [endsAtWord, hb] using hall b hmem
  | comment hm hslash hstar hreach =>
    have hscan : Scans c (text ++ ahead) mode .comment _ := .comment hm hslash hstar hreach
    rw [← hn] at hscan
    obtain ⟨inner, hinner, -⟩ := hscan.exists_inner
    rw [hinner, show '/' :: '*' :: (inner ++ ['*', '/']) = ('/' :: '*' :: inner ++ ['*']) ++ ['/'] by
      simp, List.getLast?_concat] at hlast
    obtain rfl : '/' = b := Option.some.inj hlast
    cases hb
  | word _ hstart =>
    have hreach := (scanWord_append_eq_length_iff.mp hn.symm).1
    cases z with
    | nil =>
      obtain ⟨rfl, -⟩ := List.cons.inj htext
      rw [hstart.1] at hb
      cases hb
    | cons d z =>
      obtain ⟨rfl, rfl⟩ := List.cons.inj htext
      by_cases hc : c = '\\'
      · subst hc
        cases z with
        | nil => rfl
        | cons e z =>
          have htail := getLast?_of_wordTail (z := z) hb (by simpa [scanWord] using hreach)
          cases z with
          | nil => cases htail
          | cons f z => simpa using htail
      · have hscan := Token.scanWord_of_ne hc
        rw [hscan] at hreach
        have htail := getLast?_of_wordTail hb hreach
        cases z with
        | nil => cases htail
        | cons f z => simpa using htail

/-- What starts neither blank space nor a comment. -/
theorem Scans.ended {c : Char} {text ahead behind : List Char} {kind : Kind} {mode : Mode}
    (h : Scans c (text ++ ahead) mode kind text.length) (hmode : mode ≠ .address)
    (htrivia : kind.isTrivia = false) (hahead : ahead.head? = some '*' ↔ behind.head? = some '*') :
    Trivia.Ended isBlank (c :: text ++ behind) := by
  refine ⟨fun d hd => ?_, fun ds hds => ?_⟩
  · obtain rfl : c = d := by simpa using hd
    by_contra hblank
    rw [(h.unique (.space hmode (by simpa using hblank))).1] at htrivia
    cases htrivia
  · obtain ⟨rfl, hstar⟩ := List.cons.inj hds
    have hhead : (text ++ ahead).head? = some '*' := by
      cases text with
      | nil =>
        have hbehind : behind = '*' :: ds := hstar
        exact hahead.mpr (by rw [hbehind]; rfl)
      | cons d text => rw [List.cons_append, (List.cons.inj hstar).1]; rfl
    generalize text.length = n at h
    cases h with
    | address => contradiction
    | space _ hblank => cases hblank
    | punctuation _ hkind => cases hkind
    | string _ hquote => rcases hquote with h | h <;> cases h
    | atWord _ hat => cases hat
    | comment => cases htrivia
    | word _ hstart => exact hstart.2.2.2.2.2 ⟨rfl, hhead⟩

end Token

namespace Statement.Stands

variable {run : List Token} {depth : Nat} {text ahead : List Char}

/-- **The text of a run ends in a blank character** only behind a backslash. -/
theorem eq_nil_of_isBlank (h : Stands run depth text ahead) (hstops : Stops ahead)
    {front blank : List Char} (htext : text = front ++ blank)
    (hfront : ∃ a ∈ front.getLast?, a ≠ '\\') (hblank : ∀ c ∈ blank, Token.isBlank c = true) :
    blank = [] := by
  obtain ⟨a, ha, hne⟩ := hfront
  by_contra hnil
  obtain ⟨blank, b, rfl⟩ := (List.eq_nil_or_concat blank).resolve_left hnil
  rw [List.concat_eq_append] at htext hblank
  have hb : Token.isBlank b = true := hblank b (by simp)
  have hrun : run ≠ [] := by
    rintro rfl
    have hnil := h.text_eq
    simp [htext] at hnil
  obtain ⟨run, t, rfl⟩ := (List.eq_nil_or_concat run).resolve_left hrun
  rw [List.concat_eq_append] at h
  obtain ⟨last, -, hlexes⟩ := h.lexes
  have hspace := h.ends t (by simp)
  rw [List.map_append, List.map_singleton] at hlexes
  obtain ⟨cs₁, cs₂, middle, hcut, -, hlast⟩ := hlexes.exists_of_append
  generalize hlexeme : t.lexeme = l at hlast
  cases hlast with
  | @cons _ _ kind c word cs _ _ hscan htail =>
    cases htail
    rw [List.append_nil] at hcut
    have hmode : middle ≠ .address := by
      rintro rfl
      exact hstops.head_ne_paren hscan.follows
    have hkind : kind ≠ .space := by
      rintro rfl
      rw [Token.isSpace, show t.kind = .space from congrArg Lexeme.kind hlexeme] at hspace
      cases hspace
    obtain ⟨z, b', hz⟩ := (List.eq_nil_or_concat (c :: word)).resolve_left (by simp)
    rw [List.concat_eq_append] at hz
    have hsame : (cs₁ ++ z) ++ [b'] = (front ++ blank) ++ [b] := by
      rw [List.append_assoc, ← hz, ← hcut, htext]
      simp
    obtain ⟨hfront, hb'⟩ := List.append_inj' hsame rfl
    obtain rfl : b' = b := by simpa using hb'
    have hback := hscan.getLast?_of_isBlank hmode hkind hz hb
    have hlast : (front ++ blank).getLast? = some '\\' := by
      rw [← hfront, List.getLast?_append, hback, Option.some_or]
    rcases List.eq_nil_or_concat blank with rfl | ⟨blank, d, rfl⟩
    · rw [List.append_nil, Option.mem_def.mp ha] at hlast
      exact hne (Option.some.inj hlast)
    · rw [List.concat_eq_append, ← List.append_assoc, List.getLast?_concat] at hlast
      cases hlast
      cases hblank '\\' (by simp)

end Statement.Stands

/-! ### The parts of a run in its text -/

namespace Lexes

variable {mode last : Mode} {text rest behind : List Char} {ts : List Token} {t : Token}

/-- **Tokens of trivia** are a text of gaps and comments. -/
theorem exists_trivia (h : Lexes .plain text rest (ts.map Token.lexeme) last)
    (hts : ∀ t ∈ ts, t.isTrivia = true) :
    last = .plain ∧ ∃ k, Trivia Token.isBlank text k := by
  induction ts generalizing text with
  | nil =>
    cases h
    exact ⟨rfl, 0, .nil⟩
  | cons t ts ih =>
    have ht := hts t List.mem_cons_self
    rw [List.map_cons] at h
    generalize hlexeme : t.lexeme = l at h
    cases h with
    | @cons _ _ kind c word cs _ _ hscan htail =>
      obtain rfl : t.kind = kind := congrArg Lexeme.kind hlexeme
      have hkind : t.kind = .space ∨ t.kind = .comment := by
        revert ht
        rw [Token.isTrivia]
        cases t.kind <;> simp [Token.Kind.isTrivia]
      rw [Mode.after_eq_plain _ _ _ (by rcases hkind with h | h <;> simp [h])
        (by rcases hkind with h | h <;> simp [h])] at htail
      obtain ⟨hlast, k, htrivia⟩ := ih htail fun u hu => hts u (List.mem_cons_of_mem t hu)
      refine ⟨hlast, ?_⟩
      rcases hkind with hkind | hkind <;> rw [hkind] at hscan
      · have hblank : ∀ d ∈ c :: word, Token.isBlank d = true := by
          simpa [Token.Kind.Spells] using hscan.spells
        exact ⟨0 + k, (Trivia.of_all hblank).append htrivia⟩
      · obtain ⟨inner, hinner, hreach⟩ := hscan.exists_inner
        refine ⟨k + 1, ?_⟩
        rw [hinner]
        simpa using htrivia.comment hreach

/-- No text has no lexemes. -/
theorem eq_nil {ls : List Lexeme} (h : Lexes mode [] rest ls last) : ls = [] := by
  cases h
  rfl

/-- A text whose first token is no blank space starts with no blank character. -/
theorem exists_head (h : Lexes mode text rest ((t :: ts).map Token.lexeme) last)
    (hmode : mode ≠ .address) (ht : t.isSpace = false) :
    ∃ c cs, text = c :: cs ∧ Token.isBlank c = false := by
  rw [List.map_cons] at h
  generalize hlexeme : t.lexeme = l at h
  cases h with
  | @cons _ _ kind c word cs _ _ hscan htail =>
    refine ⟨c, word ++ cs, rfl, ?_⟩
    by_contra hblank
    obtain ⟨rfl, -⟩ := hscan.unique (.space hmode (by simpa using hblank))
    rw [Token.isSpace, show t.kind = .space from congrArg Lexeme.kind hlexeme] at ht
    cases ht

/-- **A token that is no trivia** shows where the trivia in front of it ends. -/
theorem ended (h : Lexes mode text rest ((t :: ts).map Token.lexeme) last) (hmode : mode ≠ .address)
    (ht : t.isTrivia = false) (hrest : rest.head? ≠ some '*') (hbehind : behind.head? ≠ some '*') :
    Trivia.Ended Token.isBlank (text ++ behind) := by
  rw [List.map_cons] at h
  generalize hlexeme : t.lexeme = l at h
  cases h with
  | @cons _ _ kind c word cs _ _ hscan htail =>
    obtain rfl : t.kind = kind := congrArg Lexeme.kind hlexeme
    have hstar : (cs ++ rest).head? = some '*' ↔ (cs ++ behind).head? = some '*' := by
      cases cs <;> simp [hrest, hbehind]
    simpa using hscan.ended hmode ht hstar

end Lexes

theorem Token.Stops.head_ne_star {cs : List Char} (h : Stops cs) : cs.head? ≠ some '*' :=
  h.wordEnds.head_ne_star

namespace Statement.Stands

variable {run : List Token} {depth : Nat} {text ahead : List Char}

/-- **The parts of the head of an at-rule** in its text. -/
theorem exists_head (h : Stands run depth text ahead) {first : Token} (hfirst : run.head? = some first)
    (hkind : first.kind = .atWord) :
    ∃ blank, text = '@' :: ((AtRuleHead.ofTokens run).name.toList ++
        (blank ++ (AtRuleHead.ofTokens run).params.toList)) ∧
      (∀ c ∈ blank, Token.isBlank c = true) ∧
      (∀ c ∈ (AtRuleHead.ofTokens run).params.toList.head?, Token.isBlank c = false) ∧
      ((AtRuleHead.ofTokens run).params = "" → blank = []) := by
  obtain ⟨others, rfl⟩ := List.head?_eq_some_iff.mp hfirst
  obtain ⟨last, -, hlexes⟩ := h.lexes
  have hspells := hlexes.spells_tokens
  obtain ⟨name, hname⟩ : ∃ name, first.text.toList = '@' :: name := by
    simpa [hkind, Token.Kind.Spells] using hspells first List.mem_cons_self
  have htext := h.text_eq
  rw [← AtRuleHead.ofTokens_text others hname] at htext
  obtain ⟨cs, -, -, -, hothers⟩ := hlexes.of_cons
  replace hothers := hothers (by simp [hkind]) (by simp [hkind])
  rw [← List.takeWhile_append_dropWhile (p := Token.isSpace) (l := others), List.map_append]
    at hothers
  obtain ⟨blank, params, middle, -, hblank, hparams⟩ := hothers.exists_of_append
  obtain ⟨rfl, -⟩ := hblank.exists_trivia fun t ht => by
    have hspace := List.mem_takeWhile_imp ht
    rw [Token.isSpace, beq_iff_eq] at hspace
    rw [Token.isTrivia, hspace]
    rfl
  have hafterName : (AtRuleHead.ofTokens (first :: others)).afterName.toList = blank := by
    rw [← hblank.concat_eq, ← Token.toList_concat]
    rfl
  have hparamsText : (AtRuleHead.ofTokens (first :: others)).params.toList = params := by
    rw [← hparams.concat_eq, ← Token.toList_concat]
    rfl
  refine ⟨blank, ?_, ?_, ?_, ?_⟩
  · rw [← htext, ← hafterName]
    simp
  · rw [← hafterName]
    exact isBlankText_concat (fun t ht => List.mem_takeWhile_imp ht) fun t ht =>
      hspells t (List.mem_cons_of_mem _ ((List.takeWhile_subset _) ht))
  · rw [hparamsText]
    cases hrest : others.dropWhile Token.isSpace with
    | nil =>
      rw [hrest] at hparams
      cases hparams
      simp
    | cons t ts =>
      have hspace : t.isSpace = false := by
        have := List.head?_dropWhile_not Token.isSpace others
        simpa [hrest] using this
      rw [hrest] at hparams
      obtain ⟨c, cs, rfl, hc⟩ := hparams.exists_head (by simp) hspace
      simpa using hc
  · intro hempty
    rw [← String.toList_inj, hparamsText] at hempty
    subst hempty
    have hrest : others.dropWhile Token.isSpace = [] := by
      generalize others.dropWhile Token.isSpace = ts at hparams
      exact List.map_eq_nil_iff.mp hparams.eq_nil
    have hall : ∀ t ∈ others, t.isSpace = true := List.dropWhile_eq_nil_iff.mp hrest
    cases others with
    | nil =>
      cases hblank
      rfl
    | cons t ts =>
      have hlast := List.getLast_mem (l := t :: ts) (by simp)
      have hspace := h.ends _ (List.getLast?_eq_some_getLast (l := first :: t :: ts) (by simp))
      rw [List.getLast_cons (by simp), hall _ hlast] at hspace
      cases hspace

/-- **The parts of a declaration** in its text. -/
theorem exists_parts (h : Stands run depth text ahead) (hstops : Stops ahead)
    {parts : DeclarationParts} (hparts : DeclarationParts.ofTokens run = .ok parts) :
    ∃ blank trivia value k,
      text = parts.property.toList ++ (blank ++ ':' :: (trivia ++ value)) ∧
      (∀ c ∈ blank, Token.isBlank c = true) ∧ Trivia Token.isBlank trivia k ∧
      splitImportant value = (parts.value.toList, parts.important.map String.toList) ∧
      (value ≠ [] → ∀ behind, Stops behind → Trivia.Ended Token.isBlank (value ++ behind)) := by
  obtain ⟨last, -, hlexes⟩ := h.lexes
  have hspells := hlexes.spells_tokens
  unfold DeclarationParts.ofTokens at hparts
  dsimp only at hparts
  split at hparts
  · cases hparts
  · next colon rest hrest =>
    split at hparts
    · cases hparts
    · cases hparts
      generalize hother : (fun t : Token => t.kind != .colon) = isOther at hrest ⊢
      have hrun := List.takeWhile_append_dropWhile (p := isOther) (l := run)
      have hgap : ∀ t ∈ gap (run.takeWhile isOther), t.isSpace = true :=
        fun t ht => of_mem_takeTrailing ht
      have hmem : ∀ t ∈ gap (run.takeWhile isOther), t ∈ run := fun t ht =>
        List.takeWhile_subset _ ((takeTrailing_isSuffix _ _).subset ht)
      have hcolon : colon.kind = .colon := by
        have := List.head?_dropWhile_not isOther run
        rw [hrest, ← hother] at this
        simpa using this
      rw [hrest, ← dropTrailing_append_takeTrailing Token.isSpace (run.takeWhile isOther), ← content,
        ← gap] at hrun
      have hcolonText : colon.text.toList = [':'] := by
        have hspell := hspells colon (by rw [← hrun]; simp)
        rwa [hcolon] at hspell
      rw [← hrun, List.map_append] at hlexes
      obtain ⟨front, back, middle, rfl, hfront, hback⟩ := hlexes.exists_of_append
      obtain ⟨cs, rfl, -, -, hrestLexes⟩ := hback.of_cons
      replace hrestLexes := hrestLexes (by simp [hcolon]) (by simp [hcolon])
      rw [← List.takeWhile_append_dropWhile (p := Token.isTrivia) (l := rest), List.map_append]
        at hrestLexes
      obtain ⟨trivia, value, middle', rfl, htrivia, hvalue⟩ := hrestLexes.exists_of_append
      obtain ⟨rfl, k, hk⟩ := htrivia.exists_trivia fun t ht => List.mem_takeWhile_imp ht
      have hvalueText : (Token.concat (rest.dropWhile Token.isTrivia)).toList = value := by
        rw [Token.toList_concat, hvalue.concat_eq]
      refine ⟨(Token.concat (gap (run.takeWhile isOther))).toList, trivia, value, k, ?_, ?_, hk, ?_,
        ?_⟩
      · rw [hcolonText, ← hfront.concat_eq, ← Token.toList_concat, Token.concat_append]
        simp
      · exact isBlankText_concat hgap fun t ht => hspells t (hmem t ht)
      · rw [hvalueText, String.toList_ofList, Option.map_map]
        simp [Function.comp_def]
      · intro hne behind hbehind
        cases hts : rest.dropWhile Token.isTrivia with
        | nil =>
          rw [hts] at hvalue
          cases hvalue
          contradiction
        | cons t ts =>
          have ht : t.isTrivia = false := by
            have := List.head?_dropWhile_not Token.isTrivia rest
            simpa [hts] using this
          rw [hts] at hvalue
          exact hvalue.ended (by simp) ht hstops.head_ne_star hbehind.head_ne_star

end Statement.Stands

/-! ### Marks -/

/-- Blank characters are white space. -/
theorem Text.isWhiteSpace_of_isBlank {c : Char} (h : Token.isBlank c = true) :
    isWhiteSpace c = true := by
  simp only [Token.isBlank, Bool.or_eq_true, beq_iff_eq] at h
  rcases h with (((rfl | rfl) | rfl) | rfl) | rfl <;> rfl

/-- What comes before the small letters is the small form of itself alone. -/
theorem Text.eq_of_toLower {c d : Char} (h : c.toLower = d) (hd : d.toNat < 97) : c = d := by
  rw [Char.toLower] at h
  split at h
  · next hupper =>
    have hge : 65 ≤ c.toNat := UInt32.le_iff_toNat_le.mp hupper.1
    have hle : c.toNat ≤ 90 := UInt32.le_iff_toNat_le.mp hupper.2
    have hval : (c.val + 32).toNat = d.toNat := congrArg (fun e : Char => e.val.toNat) h
    rw [UInt32.toNat_add, show (32 : UInt32).toNat = 32 from rfl] at hval
    change (c.toNat + 32) % 2 ^ 32 = d.toNat at hval
    omega
  · exact h

/-- White space has no case. -/
theorem Text.toLower_of_isWhiteSpace {c : Char} (h : isWhiteSpace c = true) : c.toLower = c := by
  rw [Char.toLower, dif_neg]
  rintro ⟨hge, hle⟩
  have hge' : 65 ≤ c.toNat := UInt32.le_iff_toNat_le.mp hge
  have hle' : c.toNat ≤ 90 := UInt32.le_iff_toNat_le.mp hle
  simp only [isWhiteSpace, Bool.or_eq_true, Bool.and_eq_true, decide_eq_true_eq, beq_iff_eq] at h
  omega

/-- **A text that marks a declaration as important**: the word behind a `!`, with white space around
both. -/
def IsMark (cs : List Char) : Prop :=
  ∃ before behind word after, cs = before ++ '!' :: (behind ++ (word ++ after)) ∧
    (∀ c ∈ before, Text.isWhiteSpace c = true) ∧ (∀ c ∈ behind, Text.isWhiteSpace c = true) ∧
    (∀ c ∈ after, Text.isWhiteSpace c = true) ∧
    Text.eqIgnoringCase word "important".toList = true

/-- **What is split from a value is a mark.** -/
theorem isMark_of_splitImportant {value kept mark : List Char}
    (h : splitImportant value = (kept, some mark)) : value = kept ++ mark ∧ IsMark mark := by
  have hvalue : kept ++ mark = value := by
    simpa [h] using splitImportant_append value
  refine ⟨hvalue.symm, ?_⟩
  unfold splitImportant at h
  dsimp only at h
  split at h
  · next hcond =>
    obtain ⟨hbang, hword⟩ := Bool.and_eq_true_iff.mp hcond
    obtain ⟨hkept, hmark⟩ := Prod.mk.inj h
    replace hbang : dropTrailing (· != '!') value ≠ [] := by simpa using hbang
    obtain ⟨front, a, hfront⟩ := (List.eq_nil_or_concat _).resolve_left hbang
    rw [List.concat_eq_append] at hfront
    obtain rfl : a = '!' := by
      have hlast := dropTrailing_eq_self_iff.mp
        (dropTrailing_dropTrailing (p := (· != '!')) value) a (by rw [hfront]; simp)
      simpa using hlast
    have htrim : Text.trim (takeTrailing (· != '!') value) ≠ [] := by
      intro hnil
      rw [hnil] at hword
      cases hword
    have hcut := dropTrailing_append_takeTrailing (· != '!') value
    rw [hfront] at hcut hkept
    rw [List.dropLast_concat] at hkept
    have hspace := Text.trimEnd_append_trailingSpace front
    refine ⟨Text.trailingSpace front, Text.leadingSpace (takeTrailing (· != '!') value),
      Text.trim (takeTrailing (· != '!') value),
      Text.trailingSpace (takeTrailing (· != '!') value), ?_, fun c hc => of_mem_takeTrailing hc,
      fun c hc => List.mem_takeWhile_imp hc, fun c hc => of_mem_takeTrailing hc, hword⟩
    rw [Text.leadingSpace_append_trim_append_trailingSpace htrim]
    refine List.append_cancel_left (show kept ++ mark = kept ++ _ from ?_)
    calc kept ++ mark = front ++ ['!'] ++ takeTrailing (· != '!') value := hvalue.trans hcut.symm
      _ = kept ++ (Text.trailingSpace front ++ '!' :: takeTrailing (· != '!') value) := by
        rw [← hkept, ← List.append_assoc, hspace, List.append_assoc]
        rfl
  · cases h

/-- The word of a mark starts and ends with no white space. -/
private theorem important_ends {word : List Char}
    (h : Text.eqIgnoringCase word "important".toList = true) :
    word.length = 9 ∧ (∃ a ∈ word.getLast?, a ≠ '\\') ∧
      ∀ rest : List Char, ∀ c ∈ (word ++ rest).head?, Text.isWhiteSpace c = false := by
  have hmap : word.map Char.toLower = "important".toList := by
    simpa [Text.eqIgnoringCase] using h
  have hlength : word.length = 9 := by simpa using congrArg List.length hmap
  refine ⟨hlength, ?_, fun rest c hc => ?_⟩
  · have hlast : word.getLast?.map Char.toLower = some 't' := by
      rw [← List.getLast?_map, hmap]
      rfl
    obtain ⟨a, ha, hlower⟩ := Option.map_eq_some_iff.mp hlast
    refine ⟨a, ha, ?_⟩
    rintro rfl
    cases hlower
  · have hhead : word.head?.map Char.toLower = some 'i' := by
      rw [← List.head?_map, hmap]
      rfl
    obtain ⟨a, ha, hlower⟩ := Option.map_eq_some_iff.mp hhead
    obtain ⟨word', rfl⟩ := List.head?_eq_some_iff.mp ha
    obtain rfl : a = c := by simpa using hc
    by_contra hwhite
    rw [Text.toLower_of_isWhiteSpace (by simpa using hwhite)] at hlower
    subst hlower
    exact hwhite rfl

/-- A value is empty if its kept part is and there is no mark. -/
theorem eq_nil_iff_splitImportant (value : List Char) :
    value = [] ↔ (splitImportant value).1 = [] ∧ (splitImportant value).2.isSome = false := by
  constructor
  · rintro rfl
    exact ⟨rfl, rfl⟩
  · rintro ⟨hkept, hmark⟩
    have hvalue := splitImportant_append value
    rw [hkept, Option.isNone_iff_eq_none.mp (Option.isSome_eq_false_iff.mp hmark)] at hvalue
    exact hvalue.symm

/-- **Two marks at the same place** differ in the white space at their ends at most. -/
theorem IsMark.exists_common {cs ds rest rest' : List Char} (h : IsMark cs) (h' : IsMark ds)
    (htext : cs ++ rest = ds ++ rest') :
    ∃ front after after', cs = front ++ after ∧ ds = front ++ after' ∧
      (∃ a ∈ front.getLast?, a ≠ '\\') ∧ (∀ c ∈ after, Text.isWhiteSpace c = true) ∧
        (∀ c ∈ after', Text.isWhiteSpace c = true) := by
  obtain ⟨before, behind, word, after, rfl, hbefore, hbehind, hafter, hword⟩ := h
  obtain ⟨before', behind', word', after', rfl, hbefore', hbehind', hafter', hword'⟩ := h'
  obtain ⟨hlength, ⟨a, ha, hne⟩, hhead⟩ := important_ends hword
  obtain ⟨hlength', -, hhead'⟩ := important_ends hword'
  have hbang {cs : List Char} : ∀ c ∈ ('!' :: cs).head?, Text.isWhiteSpace c = false := by
    simp [Text.isWhiteSpace]
  obtain ⟨rfl, hmark⟩ := append_inj_of_all (p := Text.isWhiteSpace) hbefore hbefore' hbang hbang
    (by simpa using htext)
  obtain ⟨rfl, hwords⟩ := append_inj_of_all (p := Text.isWhiteSpace) hbehind hbehind' (hhead _)
    (hhead' _) (List.cons.inj hmark).2
  obtain ⟨rfl, -⟩ := List.append_inj hwords (hlength.trans hlength'.symm)
  refine ⟨before ++ '!' :: (behind ++ word), after, after', by simp, by simp, ⟨a, ?_, hne⟩, hafter,
    hafter'⟩
  rw [List.getLast?_append, List.getLast?_cons, List.getLast?_append, Option.mem_def.mp ha]
  rfl
/-! ### Runs that mean the same -/

/-- **The text is the end of a statement**: behind its blank space no white space follows. -/
structure Token.Clear (cs : List Char) : Prop where
  stops : Stops cs
  white : ∀ c ∈ (cs.dropWhile isBlank).head?, Text.isWhiteSpace c = false

namespace Token.Clear

variable {cs blank white : List Char}

/-- Blank space in front of the end of a statement. -/
theorem append (h : Clear cs) (hblank : ∀ c ∈ blank, isBlank c = true) : Clear (blank ++ cs) where
  stops := by
    cases blank with
    | nil => exact h.stops
    | cons c blank => exact stops_cons_of_isBlank _ (hblank c List.mem_cons_self)
  white := by
    rw [List.dropWhile_append_of_pos hblank]
    exact h.white

/-- White space at the end of a statement is blank. -/
theorem all_blank (h : Clear (white ++ cs)) (hwhite : ∀ c ∈ white, Text.isWhiteSpace c = true) :
    ∀ c ∈ white, isBlank c = true := by
  replace h := h.white
  induction white with
  | nil => simp
  | cons c white ih =>
    have hc : isBlank c = true := by
      by_contra hc
      rw [List.cons_append, List.dropWhile_cons_of_neg hc] at h
      have hwhite := hwhite c List.mem_cons_self
      rw [h c rfl] at hwhite
      cases hwhite
    rw [List.cons_append, List.dropWhile_cons_of_pos hc] at h
    intro d hd
    rcases List.mem_cons.mp hd with rfl | hd
    · exact hc
    · exact ih (fun e he => hwhite e (List.mem_cons_of_mem c he)) h d hd

end Token.Clear

namespace Statement.Stands

open Token (Clear)

variable {run run' : List Token} {depth depth' : Nat} {text text' ahead ahead' behind behind' :
  List Char}

/-- Two runs in the same text are the same text if they differ in white space at their ends only. -/
theorem eq_of_white (h : Stands run depth text ahead) (hstops : Stops ahead)
    (h' : Stands run' depth' text' ahead') (hstops' : Stops ahead') (hbehind : Clear behind)
    (hbehind' : Clear behind') (hsame : text ++ behind = text' ++ behind')
    (front white white' : List Char) (htext : text = front ++ white)
    (htext' : text' = front ++ white') (hfront : ∃ a ∈ front.getLast?, a ≠ '\\')
    (hwhite : ∀ c ∈ white, Text.isWhiteSpace c = true)
    (hwhite' : ∀ c ∈ white', Text.isWhiteSpace c = true) : text' = text := by
  have hlast {white : List Char} (hwhite : ∀ c ∈ white, Text.isWhiteSpace c = true) :
      ∃ a ∈ (front ++ white).getLast?, a ≠ '\\' := by
    rcases List.eq_nil_or_concat white with rfl | ⟨white, c, rfl⟩
    · simpa using hfront
    · refine ⟨c, by simp [List.getLast?_append], ?_⟩
      rintro rfl
      cases hwhite '\\' (by simp)
  subst htext htext'
  have hrest : white ++ behind = white' ++ behind' := by simpa using hsame
  rcases List.append_eq_append_iff.mp hrest with ⟨more, rfl, rfl⟩ | ⟨more, rfl, rfl⟩
  · have hblank := hbehind.all_blank fun c hc => hwhite' c (List.mem_append_right _ hc)
    obtain rfl := h'.eq_nil_of_isBlank hstops' (List.append_assoc front white more).symm (hlast hwhite)
      hblank
    rw [List.append_nil]
  · have hblank := hbehind'.all_blank fun c hc => hwhite c (List.mem_append_right _ hc)
    obtain rfl := h.eq_nil_of_isBlank hstops (List.append_assoc front white' more).symm
      (hlast hwhite') hblank
    rw [List.append_nil]

/-- A run that goes on with gaps and comments only goes on with a comment, or not at all. -/
theorem eq_or_comment (h : Stands run depth text ahead) (hstops : Stops ahead) {more : List Char}
    {k : Nat} (hmore : Trivia Token.isBlank more k) (front : List Char) (htext : text = front ++ more)
    (hfront : ∃ a ∈ front.getLast?, a ≠ '\\') : more = [] ∨ ∃ j, k = j + 1 := by
  cases k with
  | succ j => exact .inr ⟨j, rfl⟩
  | zero => exact .inl (h.eq_nil_of_isBlank hstops htext hfront hmore.all_of_zero)

/-- **Declarations that mean the same** end at the same place in a text, unless one of them takes
comments behind the other into its own gap. -/
theorem cut_declaration (h : Stands run depth text ahead) (hstops : Stops ahead)
    (h' : Stands run' depth' text' ahead') (hstops' : Stops ahead') (hbehind : Clear behind)
    (hbehind' : Clear behind') {parts parts' : DeclarationParts}
    (hparts : DeclarationParts.ofTokens run = .ok parts)
    (hparts' : DeclarationParts.ofTokens run' = .ok parts')
    (hproperty : parts'.property = parts.property) (hvalue : parts'.value = parts.value)
    (himportant : parts'.important.isSome = parts.important.isSome)
    (hsame : text ++ behind = text' ++ behind') :
    text' = text ∨ ∃ more k, Trivia Token.isBlank more (k + 1) ∧
      (behind = more ++ behind' ∨ behind' = more ++ behind) := by
  obtain ⟨blank, trivia, value, k, htext, hblank, htrivia, hsplit, hended⟩ :=
    h.exists_parts hstops hparts
  obtain ⟨blank', trivia', value', k', htext', hblank', htrivia', hsplit', hended'⟩ :=
    h'.exists_parts hstops' hparts'
  have hempty : value' = [] ↔ value = [] := by
    rw [eq_nil_iff_splitImportant value', eq_nil_iff_splitImportant value, hsplit, hsplit', hvalue]
    simp only [Option.isSome_map, himportant]
  have hcolon {cs : List Char} : ∀ c ∈ (':' :: cs).head?, Token.isBlank c = false := by
    simp [Token.isBlank]
  rw [htext, htext', hproperty] at hsame
  obtain ⟨rfl, hbehindColon⟩ := append_inj_of_all hblank hblank' hcolon hcolon
    (by simpa using hsame)
  have hrest : trivia ++ (value ++ behind) = trivia' ++ (value' ++ behind') := by
    simpa using hbehindColon
  by_cases hnil : value = []
  · obtain rfl := hempty.mpr hnil
    subst hnil
    rw [List.nil_append, List.nil_append] at hrest
    have hlast (cs : List Char) {ds : List Char} {m : Nat} (hds : Trivia Token.isBlank ds m) :
        ∃ a ∈ (cs ++ ':' :: ds).getLast?, a ≠ '\\' := by
      rcases List.eq_nil_or_concat ds with rfl | ⟨ds, c, rfl⟩
      · exact ⟨':', by simp, by decide⟩
      · exact ⟨c, by simp [List.getLast?_append, List.getLast?_cons],
          hds.getLast?_ne c (by simp)⟩
    rcases Trivia.split rfl htrivia htrivia' hrest with
      ⟨more, j, hmore, rfl, -⟩ | ⟨more, j, hmore, rfl, -⟩
    · rw [List.append_assoc, List.append_cancel_left_eq] at hrest
      rcases h'.eq_or_comment hstops' hmore (parts.property.toList ++ blank ++ ':' :: trivia)
        (by simp [htext', hproperty]) (hlast _ htrivia) with rfl | ⟨j, rfl⟩
      · exact .inl (by simp [htext, htext', hproperty])
      · exact .inr ⟨more, j, hmore, .inl hrest⟩
    · rw [List.append_assoc, List.append_cancel_left_eq] at hrest
      rcases h.eq_or_comment hstops hmore (parts.property.toList ++ blank ++ ':' :: trivia')
        (by simp [htext]) (hlast _ htrivia') with rfl | ⟨j, rfl⟩
      · exact .inl (by simp [htext, htext', hproperty])
      · exact .inr ⟨more, j, hmore, .inr hrest.symm⟩
  · obtain ⟨rfl, -, hvalues⟩ := htrivia.unique rfl htrivia' (hended hnil _ hbehind.stops)
      (hended' (mt hempty.mp hnil) _ hbehind'.stops) hrest
    refine .inl ?_
    cases hmark : parts.important with
    | none =>
      have hmark' : parts'.important = none := by
        simpa [hmark] using himportant
      have hkept := splitImportant_append value
      have hkept' := splitImportant_append value'
      rw [hsplit, hmark] at hkept
      rw [hsplit', hmark', hvalue] at hkept'
      rw [htext, htext', hproperty, ← hkept, ← hkept']
    | some mark =>
      obtain ⟨mark', hmark'⟩ := Option.isSome_iff_exists.mp
        (himportant.trans (by rw [hmark]; rfl))
      rw [hmark] at hsplit
      rw [hmark', hvalue] at hsplit'
      obtain ⟨hkept, hisMark⟩ := isMark_of_splitImportant hsplit
      obtain ⟨hkept', hisMark'⟩ := isMark_of_splitImportant hsplit'
      have hmarks : mark.toList ++ behind = mark'.toList ++ behind' := by
        rw [hkept, hkept'] at hvalues
        simpa using hvalues
      obtain ⟨front, white, white', hfront, hfront', hlast, hwhite, hwhite'⟩ :=
        hisMark.exists_common hisMark' hmarks
      refine h.eq_of_white hstops h' hstops' hbehind hbehind' ?_
        (parts.property.toList ++ (blank ++ ':' :: (trivia ++ parts.value.toList)) ++ front) white
        white' ?_ ?_ ?_ hwhite hwhite'
      · rw [htext, htext', hproperty]
        simpa using hvalues
      · rw [htext, hkept, hfront]
        simp
      · rw [htext', hkept', hfront', hproperty]
        simp
      · obtain ⟨a, ha, hne⟩ := hlast
        refine ⟨a, ?_, hne⟩
        rw [List.getLast?_append, Option.mem_def.mp ha]
        rfl

end Statement.Stands

namespace Content

variable {run : List Token}

theorem readFrom_rule {selector : String} (h : (rule selector).ReadFrom run) :
    selector = Token.concat run := by
  cases h
  rfl

theorem readFrom_atRule {name params : String} {hasBody : Bool}
    (h : (atRule name params hasBody).ReadFrom run) :
    ∃ first, run.head? = some first ∧ first.kind = .atWord ∧
      (AtRuleHead.ofTokens run).name = name ∧ (AtRuleHead.ofTokens run).params = params := by
  cases h with
  | atRule hfirst hkind => exact ⟨_, hfirst, hkind, rfl, rfl⟩

theorem readFrom_declaration {property value : String} {important : Bool}
    (h : (declaration property value important).ReadFrom run) :
    ∃ parts, DeclarationParts.ofTokens run = .ok parts ∧ parts.property = property ∧
      parts.value = value ∧ parts.important.isSome = important := by
  cases h with
  | declaration _ hparts => exact ⟨_, hparts, rfl, rfl, rfl⟩

end Content

open Token (Clear) in
/-- **Runs that mean the same** end at the same place in a text, unless one of them takes comments
behind the other into a gap of its own. -/
theorem Statement.Stands.cut {run run' : List Token} {depth depth' : Nat}
    {text text' ahead ahead' behind behind' : List Char} {c : Content}
    (h : Stands run depth text ahead) (hstops : Stops ahead)
    (h' : Stands run' depth' text' ahead') (hstops' : Stops ahead') (hbehind : Clear behind)
    (hbehind' : Clear behind') (hcontent : c.ReadFrom run) (hcontent' : c.ReadFrom run')
    (hsame : text ++ behind = text' ++ behind') :
    text' = text ∨ ∃ more k, Trivia Token.isBlank more (k + 1) ∧
      (behind = more ++ behind' ∨ behind' = more ++ behind) := by
  cases c with
  | root => cases hcontent
  | comment => cases hcontent
  | rule selector =>
    refine .inl ?_
    rw [← h.text_eq, ← h'.text_eq, ← Content.readFrom_rule hcontent,
      ← Content.readFrom_rule hcontent']
  | declaration =>
    obtain ⟨parts, hparts, rfl, rfl, rfl⟩ := Content.readFrom_declaration hcontent
    obtain ⟨parts', hparts', hproperty, hvalue, himportant⟩ :=
      Content.readFrom_declaration hcontent'
    exact h.cut_declaration hstops h' hstops' hbehind hbehind' hparts hparts' hproperty hvalue
      himportant hsame
  | atRule =>
    obtain ⟨first, hfirst, hkind, rfl, rfl⟩ := Content.readFrom_atRule hcontent
    obtain ⟨first', hfirst', hkind', hname, hparams⟩ := Content.readFrom_atRule hcontent'
    obtain ⟨blank, htext, hblank, hhead, hempty⟩ := h.exists_head hfirst hkind
    obtain ⟨blank', htext', hblank', -, hempty'⟩ := h'.exists_head hfirst' hkind'
    rw [hname, hparams] at htext'
    rw [hparams] at hempty'
    refine .inl ?_
    by_cases hnil : (AtRuleHead.ofTokens run).params = ""
    · rw [htext, htext', hempty hnil, hempty' hnil]
    · obtain ⟨d, ds, hds⟩ := List.exists_cons_of_ne_nil
        (mt String.toList_eq_nil_iff.mp hnil)
      rw [hds] at hhead htext htext'
      rw [htext, htext'] at hsame
      have hhead' {cs : List Char} : ∀ e ∈ (d :: cs).head?, Token.isBlank e = false := by
        simpa using hhead
      obtain ⟨rfl, -⟩ := append_inj_of_all hblank hblank' hhead' hhead' (by simpa using hsame)
      rw [htext, htext']

/-! ### Derivations taken apart -/

namespace Reads

variable {text cs rest : List Char} {c : Content} {f g : Forest Content}

/-- **A text of comments and gaps.** -/
theorem exists_trivia (h : Reads text f rest) (hf : ∀ c ∈ f.preorder, c.isComment = true) :
    ∃ front, text = front ++ rest ∧ Trivia Token.isGap front f.size := by
  induction h with
  | nil => exact ⟨[], rfl, .nil⟩
  | gap hgap _ ih =>
    obtain ⟨front, rfl, hfront⟩ := ih hf
    exact ⟨_ :: front, rfl, .gap hgap hfront⟩
  | comment hinner _ ih =>
    obtain ⟨front, rfl, hfront⟩ := ih fun c hc => hf c (by simp [Forest.preorder, hc])
    refine ⟨_, ?_, by simpa [Forest.size] using hfront.comment hinner⟩
    simp
  | closed _ _ hcontent | last _ _ hcontent | block _ _ hcontent =>
    have hcomment := hf _ List.mem_cons_self
    rw [hcontent.isComment_eq_false] at hcomment
    cases hcomment

/-- A comment in front of a text of the grammar. -/
theorem of_comment {inner : List Char}
    (h : Reads ('/' :: '*' :: (inner ++ ['*', '/'] ++ cs)) (.cons c g f) rest)
    (hinner : Token.commentTail (inner ++ ['*', '/']) = some (inner.length + 2))
    (hcomment : c.isComment = true) : Reads cs f rest := by
  generalize htext : '/' :: '*' :: (inner ++ ['*', '/'] ++ cs) = text at h
  cases h with
  | gap hgap =>
    obtain ⟨rfl, -⟩ := List.cons.inj htext
    cases hgap
  | comment hinner' hrest =>
    obtain ⟨-, rfl⟩ := Trivia.inner_unique hinner hinner' (by simpa using htext)
    exact hrest
  | closed _ _ hcontent | last _ _ hcontent | block _ _ hcontent =>
    rw [hcontent.isComment_eq_false] at hcomment
    cases hcomment

/-- **A leaf in front of a text of the grammar.** -/
theorem of_leaf (h : Reads text (.cons c g f) rest)
    (hhead : ∀ c ∈ text.head?, Token.isGap c = false) (hcomment : c.isComment = false)
    (hblock : c.opensBlock = false) :
    ∃ run depth front behind, text = front ++ behind ∧ Statement.Stands run depth front behind ∧
      c.ReadFrom run ∧
      (∀ d ∈ (behind.dropWhile Token.isBlank).head?, d = '\x7d' ∨ d = ';' ∧ depth = 0) ∧
      Reads behind f rest := by
  cases h with
  | gap hgap =>
    rw [hhead _ rfl] at hgap
    cases hgap
  | comment => cases hcomment
  | closed hstands hgap hcontent _ hrest =>
    refine ⟨_, 0, _, _, rfl, hstands, hcontent, ?_,
      (hrest.gap rfl).gap_append fun d hd => by simp [Token.isGap, hgap d hd]⟩
    rw [List.dropWhile_append_of_pos hgap]
    simp [Token.isBlank]
  | last hstands hends hcontent _ hrest =>
    exact ⟨_, _, _, _, rfl, hstands, hcontent, fun d hd => .inl (hends d hd), hrest⟩
  | block _ _ _ hblock' =>
    rw [hblock] at hblock'
    cases hblock'

/-- **A block in front of a text of the grammar.** -/
theorem of_block (h : Reads text (.cons c g f) rest)
    (hhead : ∀ c ∈ text.head?, Token.isGap c = false) (hblock : c.opensBlock = true) :
    ∃ run depth front blank inner behind, text = front ++ (blank ++ '\x7b' :: inner) ∧
      Statement.Stands run depth front (blank ++ '\x7b' :: inner) ∧
      (∀ d ∈ blank, Token.isBlank d = true) ∧ c.ReadFrom run ∧
      Reads inner g ('\x7d' :: behind) ∧ Reads behind f rest := by
  cases h with
  | gap hgap =>
    rw [hhead _ rfl] at hgap
    cases hgap
  | comment => cases hblock
  | closed _ _ _ hblock' | last _ _ _ hblock' =>
    rw [hblock] at hblock'
    cases hblock'
  | block hstands hblank hcontent _ hinner hrest =>
    exact ⟨_, _, _, _, _, _, rfl, hstands, hblank, hcontent, hinner, hrest⟩

end Reads

/-! ### The texts behind a node -/

namespace Token.Clear

variable {blank cs : List Char}

/-- A closing brace, or the end of the text, ends a statement. -/
theorem of_close (h : ∀ c ∈ cs.head?, c = '\x7d') : Clear cs := by
  cases cs with
  | nil => exact ⟨stops_nil, by simp⟩
  | cons c cs =>
    obtain rfl := h c rfl
    exact ⟨by simp [Stops], by simp [isBlank, Text.isWhiteSpace]⟩

/-- Punctuation behind blank space ends a statement. -/
theorem punctuation {c : Char} (hblank : ∀ d ∈ blank, isBlank d = true)
    (hc : c = ';' ∨ c = '\x7b' ∨ c = '\x7d') : Clear (blank ++ c :: cs) := by
  refine Clear.append ⟨?_, ?_⟩ hblank
  · rcases hc with rfl | rfl | rfl <;> simp [Stops]
  · rcases hc with rfl | rfl | rfl <;> simp [isBlank, Text.isWhiteSpace]

/-- A text that starts with punctuation behind its blank space ends a statement. -/
theorem of_dropWhile (h : ∀ d ∈ (cs.dropWhile isBlank).head?, d = ';' ∨ d = '\x7b' ∨ d = '\x7d') :
    Clear cs := by
  have hcut := List.takeWhile_append_dropWhile (p := isBlank) (l := cs)
  rw [← hcut]
  cases hcs : cs.dropWhile isBlank with
  | nil => exact Clear.append (of_close (by simp)) fun c hc => List.mem_takeWhile_imp hc
  | cons d ds =>
    exact punctuation (fun c hc => List.mem_takeWhile_imp hc) (h d (by rw [hcs]; rfl))

end Token.Clear

namespace Trivia

variable {cs ds rest : List Char} {k : Nat}

/-- Gaps and comments end a statement. -/
theorem clear (h : Trivia Token.isGap cs k) (hrest : ∀ c ∈ rest.head?, c = '\x7d') :
    Token.Clear (cs ++ rest) := by
  induction h with
  | nil => exact .of_close hrest
  | @gap c cs k hc _ ih =>
    by_cases hblank : Token.isBlank c = true
    · exact ih.append (show ∀ d ∈ [c], Token.isBlank d = true by simpa using hblank)
    · obtain rfl : c = ';' := by simpa [Token.isGap, hblank] using hc
      exact Token.Clear.punctuation (show ∀ d ∈ ([] : List Char), Token.isBlank d = true by simp)
        (.inl rfl)
  | comment => exact ⟨by simp [Token.Stops], by simp [Token.isBlank, Text.isWhiteSpace]⟩

/-- A closing brace, or the end of the text, is neither a gap nor a comment. -/
theorem ended_of_close (h : ∀ c ∈ rest.head?, c = '\x7d') : Ended Token.isGap rest := by
  refine ⟨fun c hc => ?_, fun ds hds => ?_⟩
  · rw [h c hc]
    rfl
  · subst hds
    cases h '/' rfl

/-- A comment is no punctuation. -/
theorem head_eq_slash (h : Trivia Token.isBlank ds (k + 1)) (behind : List Char) :
    ((ds ++ behind).dropWhile Token.isBlank).head? = some '/' := by
  obtain ⟨es, hes⟩ := h.exists_comment rfl
  rw [List.dropWhile_append, hes]
  rfl

end Trivia

/-! ### Settled forests -/

namespace Forest

variable {f : Forest Node}

/-- Without a statement there are comments only. -/
theorem Legible.comments (hf : f.Legible) (hstatement : f.hasStatement = false) :
    ∀ c ∈ (f.map Node.content).preorder, c.isComment = true := by
  induction f with
  | nil => simp [map, preorder]
  | cons n children next _ ih =>
    obtain ⟨⟨-, -, hleaf⟩, -, hnext⟩ := hf
    rw [hasStatement, Bool.or_eq_false_iff] at hstatement
    have hcomment : n.content.isComment = true := by simpa using hstatement.1
    have hblock : n.content.opensBlock = false := by
      by_contra hblock
      rw [Content.isComment_of_opensBlock (by simpa using hblock)] at hcomment
      cases hcomment
    rw [hleaf hblock]
    intro c hc
    rcases List.mem_cons.mp hc with rfl | hc
    · exact hcomment
    · exact ih hnext hstatement.2 c (by simpa [map, preorder] using hc)

/-- Comments are settled wherever they stand. -/
theorem Legible.settled (hf : f.Legible) (hstatement : f.hasStatement = false) (closed : Bool)
    (depth : Nat) (behind : List Char) : f.Settled closed depth behind := by
  induction f with
  | nil => trivial
  | cons n children next _ ih =>
    rw [hasStatement, Bool.or_eq_false_iff] at hstatement
    have hcomment : n.content.isComment = true := by simpa using hstatement.1
    refine ⟨fun h => ?_, fun h => ?_, ih hf.2.2 hstatement.2⟩
    · rw [hcomment] at h
      cases h
    · rw [Content.isComment_of_opensBlock h] at hcomment
      cases hcomment

/-- **What is printed of comments** is gaps and comments. -/
theorem Legible.exists_trivia (hf : f.Legible) (hstatement : f.hasStatement = false)
    (closed first : Bool) (depth : Nat) {foot rest : List Char}
    (hfoot : ∀ c ∈ foot, Token.isGap c = true) (hrest : ∀ c ∈ rest.head?, c = '\x7d') :
    ∃ front, (f.print (.faithful id) closed first depth).toList ++ (foot ++ rest) = front ++ rest ∧
      Trivia Token.isGap front (f.map Node.content).size := by
  have hreads := hf.reads_print first (hf.settled hstatement closed depth (foot ++ rest))
    ((Reads.nil rest).gap_append hfoot) hrest
  rw [append_nil] at hreads
  exact hreads.exists_trivia (hf.comments hstatement)

end Forest

namespace Statement.Stands

variable {run : List Token} {depth : Nat} {text behind : List Char}

/-- A run that ends inside an escape has nothing behind it. -/
theorem eq_nil_of_endsInEscape (h : Stands run depth text behind) (hstops : Stops behind)
    (hescape : Lexeme.endsInEscape (run.map Token.lexeme) = true) : behind = [] := by
  obtain ⟨last, hlast, hlexes⟩ := h.lexes
  rcases List.eq_nil_or_concat run with rfl | ⟨front, t, rfl⟩
  · cases hescape
  · rw [List.concat_eq_append, List.map_append, List.map_singleton] at hlexes hescape
    obtain ⟨cs₁, cs₂, middle, -, -, hword⟩ := hlexes.exists_of_append
    rw [Lexeme.endsInEscape, List.getLast?_concat, Option.any_some, Bool.and_eq_true,
      beq_iff_eq] at hescape
    generalize t.lexeme = l at hword hescape
    cases hword with
    | @cons _ _ kind c word cs _ _ hscan htail =>
      cases htail
      obtain ⟨rfl, hdangles⟩ := hescape
      have hmode : middle ≠ .address := by
        rintro rfl
        exact hstops.head_ne_paren hscan.follows
      exact ((Token.follows_word hmode).mp hscan.follows).2 hdangles

/-- No address starts behind a run that ends in `url(`. -/
theorem not_startsAddress (h : Stands run depth text behind) (hstops : Stops behind)
    (haddress : Lexeme.opensAddress (run.map Token.lexeme) = true) :
    behind.head?.any Token.startsAddress = false := by
  have hescape := h.eq_nil_of_endsInEscape hstops
  obtain ⟨last, hlast, hlexes⟩ := h.lexes
  rcases List.eq_nil_or_concat run with rfl | ⟨front, t, rfl⟩
  · cases haddress
  · have hspace := h.ends t (by simp)
    rw [List.concat_eq_append, List.map_append, List.map_singleton] at hlexes hescape haddress
    obtain ⟨last', hlexes', hiff⟩ := hlexes.change hstops hstops
      (fun hkind => by
        rw [Token.isSpace, show t.kind = .space from hkind] at hspace
        cases hspace)
      (fun hkind hdangle => hescape (by simp [Lexeme.endsInEscape, hkind, hdangle]))
    rw [← hlexes.last_unique hlexes'] at hiff
    by_contra hstart
    exact hlast (hiff.mpr ⟨haddress, by simpa using hstart⟩)

/-- **A node that stands in front of a text** ends there. -/
theorem endsBefore {n : Node} (h : Stands run depth n.ownText.toList behind)
    (hstops : Stops behind)
    (hends : n.content.opensBlock = false → ∀ c ∈ (behind.dropWhile Token.isBlank).head?,
      c = '\x7d' ∨ c = ';' ∧ depth = 0) : n.EndsBefore behind := by
  have hlexemes : n.lexemes = run.map Token.lexeme := h.tokenize_eq hstops rfl
  refine ⟨?_, ?_, fun hblock c hc => ?_⟩
  · rw [hlexemes]
    exact h.eq_nil_of_endsInEscape hstops
  · rw [hlexemes]
    exact h.not_startsAddress hstops
  · refine (hends hblock c hc).imp_right fun ⟨hsemi, hdepth⟩ => ⟨hsemi, ?_⟩
    have hrun := h.depth
    rw [hdepth] at hrun
    rw [hlexemes, List.map_map]
    exact hrun

end Statement.Stands

namespace Node.Written

variable {n : Node} {behind rest : List Char} {f g : Forest Content}

/-- **A leaf that is read as what it is** ends where it was printed, unless it misses comments. -/
theorem endsBefore_leaf (h : n.Written) (hcomment : n.content.isComment = false)
    (hblock : n.content.opensBlock = false) (hbehind : Token.Clear behind)
    (hreads : Reads (n.ownText.toList ++ behind) (.cons n.content g f) rest)
    (hmissed : ∀ more k behind', Trivia Token.isBlank more (k + 1) → behind = more ++ behind' →
      ¬Reads behind' f rest) : n.EndsBefore behind ∧ Reads behind f rest := by
  obtain ⟨run, depth, ahead, hstands, hstops, hcontent, -, -⟩ := h.exists_run hcomment
  have hne := hstands.text_ne_nil (hcontent.ne_nil hblock)
  have hhead : ∀ c ∈ (n.ownText.toList ++ behind).head?, Token.isGap c = false := by
    intro c hc
    rw [List.head?_append_of_ne_nil _ hne] at hc
    exact (hstands.head c hc).1
  obtain ⟨run', depth', text', behind', hsame, hstands', hcontent', hends, hrest⟩ :=
    hreads.of_leaf hhead hcomment hblock
  have hbehind' : Token.Clear behind' := .of_dropWhile fun d hd =>
    (hends d hd).elim (fun h => .inr (.inr h)) fun h => .inl h.1
  rcases hstands.cut hstops hstands' hbehind'.stops hbehind hbehind' hcontent hcontent' hsame with
    rfl | ⟨more, k, hmore, heq | heq⟩
  · obtain rfl := List.append_cancel_left hsame
    exact ⟨hstands'.endsBefore hbehind.stops fun _ => hends, hrest⟩
  · exact absurd hrest (hmissed more k behind' hmore heq)
  · have hslash := hmore.head_eq_slash behind
    rw [← heq] at hslash
    rcases hends '/' hslash with h | ⟨h, -⟩ <;> cases h

/-- A leaf with a semicolon behind it. -/
theorem endsBefore_semicolon {blank cs : List Char} (h : n.Written)
    (hcomment : n.content.isComment = false) (hblock : n.content.opensBlock = false)
    (hblank : ∀ c ∈ blank, Token.isBlank c = true)
    (hreads : Reads (n.ownText.toList ++ (blank ++ ';' :: cs)) (.cons n.content g f) rest) :
    n.EndsBefore (blank ++ ';' :: cs) ∧ Reads (blank ++ ';' :: cs) f rest := by
  refine h.endsBefore_leaf hcomment hblock (.punctuation hblank (.inl rfl)) hreads ?_
  intro more k behind' hmore heq
  have hslash := hmore.head_eq_slash behind'
  rw [← heq, List.dropWhile_append_of_pos hblank] at hslash
  cases hslash

/-- A leaf with nothing but comments behind it. -/
theorem endsBefore_comments {blank foot tail : List Char} {next : Forest Node} (h : n.Written)
    (hcomment : n.content.isComment = false) (hblock : n.content.opensBlock = false)
    (hblank : ∀ c ∈ blank, Token.isBlank c = true) (hnext : next.Legible)
    (hstatement : next.hasStatement = false) (closed first : Bool) (depth : Nat)
    (hfoot : ∀ c ∈ foot, Token.isGap c = true) (htail : ∀ c ∈ tail.head?, c = '\x7d')
    (hrest : ∀ c ∈ rest.head?, c = '\x7d')
    (hreads : Reads (n.ownText.toList ++ (blank ++
      ((next.print (.faithful id) closed first depth).toList ++ (foot ++ tail))))
        (.cons n.content g (next.map Node.content)) rest) :
    n.EndsBefore (blank ++
        ((next.print (.faithful id) closed first depth).toList ++ (foot ++ tail))) ∧
      Reads (blank ++ ((next.print (.faithful id) closed first depth).toList ++ (foot ++ tail)))
        (next.map Node.content) rest := by
  obtain ⟨front, hfront, htrivia⟩ :=
    hnext.exists_trivia hstatement closed first depth hfoot htail
  rw [hfront] at hreads ⊢
  refine h.endsBefore_leaf hcomment hblock ((htrivia.clear htail).append hblank) hreads ?_
  -- The comments behind the leaf are as many as there are nodes, so none of them can be missed.
  intro more k behind' hmore heq hbehind'
  obtain ⟨front', rfl, htrivia'⟩ := hbehind'.exists_trivia (hnext.comments hstatement)
  have hgaps : ∀ c, Token.isBlank c = true → Token.isGap c = true :=
    fun c hc => by simp [Token.isGap, hc]
  obtain ⟨-, hcount, -⟩ := Trivia.unique rfl
    ((Trivia.of_all fun c hc => hgaps c (hblank c hc)).append htrivia)
    ((hmore.mono hgaps).append htrivia') (Trivia.ended_of_close htail)
    (Trivia.ended_of_close hrest) (by simpa using heq)
  omega

/-- **A block that is read as what it is** starts where it was printed. -/
theorem endsBefore_block {blank inner : List Char} (h : n.Written)
    (hblock : n.content.opensBlock = true) (hblank : ∀ c ∈ blank, Token.isBlank c = true)
    (hreads : Reads (n.ownText.toList ++ (blank ++ '\x7b' :: inner)) (.cons n.content g f) rest)
    (hrest : ∀ c ∈ rest.head?, c = '\x7d') :
    n.EndsBefore (blank ++ '\x7b' :: inner) ∧
      ∃ behind, Reads inner g ('\x7d' :: behind) ∧ Reads behind f rest := by
  obtain ⟨run, depth, ahead, hstands, hstops, hcontent, -, hlexemes⟩ :=
    h.exists_run (Content.isComment_of_opensBlock hblock)
  -- In front of a block without a head the blank space may be taken for a gap.
  obtain ⟨blank₀, hblank₀, hreads₀, hhead, hown⟩ : ∃ blank₀ : List Char,
      (∀ c ∈ blank₀, Token.isBlank c = true) ∧
      Reads (n.ownText.toList ++ (blank₀ ++ '\x7b' :: inner)) (.cons n.content g f) rest ∧
      (∀ c ∈ (n.ownText.toList ++ (blank₀ ++ '\x7b' :: inner)).head?, Token.isGap c = false) ∧
      (n.ownText.toList ≠ [] → blank₀ = blank) := by
    by_cases hnil : n.ownText.toList = []
    · rw [hnil, List.nil_append] at hreads
      have hstripped := hreads.of_gap_append (fun c hc => by simp [Token.isGap, hblank c hc]) hrest
      rw [hnil]
      exact ⟨[], by simp, hstripped, by simp [Token.isGap, Token.isBlank], fun hne => absurd rfl hne⟩
    · refine ⟨blank, hblank, hreads, fun c hc => ?_, fun _ => rfl⟩
      rw [List.head?_append_of_ne_nil _ hnil] at hc
      exact (hstands.head c hc).1
  obtain ⟨run', depth', text', blank', inner', behind', hsame, hstands', hblank', hcontent', hinner,
    hbehind'⟩ := hreads₀.of_block hhead hblock
  have hclear {ds es : List Char} (hds : ∀ c ∈ ds, Token.isBlank c = true) :
      Token.Clear (ds ++ '\x7b' :: es) := .punctuation hds (.inr (.inl rfl))
  have hslash {ds es more behind : List Char} {k : Nat} (hds : ∀ c ∈ ds, Token.isBlank c = true)
      (hmore : Trivia Token.isBlank more (k + 1)) : ds ++ '\x7b' :: es ≠ more ++ behind := by
    intro heq
    have hslash := hmore.head_eq_slash behind
    rw [← heq, List.dropWhile_append_of_pos hds] at hslash
    cases hslash
  have hbrace {cs : List Char} : ∀ c ∈ ('\x7b' :: cs).head?, Token.isBlank c = false := by
    simp [Token.isBlank]
  rcases hstands.cut hstops hstands' (hclear hblank').stops (hclear hblank₀) (hclear hblank')
    hcontent hcontent' hsame with rfl | ⟨more, k, hmore, heq | heq⟩
  · obtain ⟨rfl, htail⟩ := append_inj_of_all hblank₀ hblank' hbrace hbrace
      (List.append_cancel_left hsame)
    obtain ⟨-, rfl⟩ := List.cons.inj htail
    refine ⟨?_, behind', hinner, hbehind'⟩
    by_cases hnil : n.ownText.toList = []
    · have hrun : run = [] := by
        by_contra hrun
        exact hstands.text_ne_nil hrun hnil
      rw [hrun] at hlexemes
      refine ⟨fun hescape => ?_, fun haddress => ?_, fun hleaf => ?_⟩
      · rw [hlexemes] at hescape
        cases hescape
      · rw [hlexemes] at haddress
        cases haddress
      · rw [hblock] at hleaf
        cases hleaf
    · rw [← hown hnil]
      refine hstands'.endsBefore (hclear hblank₀).stops fun hleaf => ?_
      rw [hblock] at hleaf
      cases hleaf
  · exact absurd heq (hslash hblank₀ hmore)
  · exact absurd heq (hslash hblank' hmore)

end Node.Written

/-- **A forest that is read as what it was printed from is settled**, and its text is read to its
end. -/
theorem Forest.settled_of_reads {f : Forest Node} (hf : f.Legible) {closed first : Bool}
    {depth : Nat} {foot tail rest : List Char} (hfoot : ∀ c ∈ foot, Token.isGap c = true)
    (htail : ∀ c ∈ tail.head?, c = '\x7d') (hrest : ∀ c ∈ rest.head?, c = '\x7d')
    (h : Reads ((f.print (.faithful id) closed first depth).toList ++ (foot ++ tail))
      (f.map Node.content) rest) : f.Settled closed depth (foot ++ tail) ∧ rest = tail := by
  induction f generalizing closed first depth foot tail rest with
  | nil =>
    refine ⟨trivial, ?_⟩
    have htailReads : Reads tail .nil rest :=
      Reads.of_gap_append (by simpa [print, map] using h) hfoot hrest
    cases htailReads with
    | nil => rfl
    | gap hgap =>
      rw [htail _ rfl] at hgap
      cases hgap
  | cons n children next ihChildren ihNext =>
    obtain ⟨⟨hwritten, hspaced, hleaf⟩, hchildren, hnext⟩ := hf
    rw [toList_print_cons] at h
    replace h := h.of_gap_append (hspaced.leading first depth) hrest
    rw [map] at h
    rw [Settled]
    cases hcomment : n.content.isComment with
    | true =>
      have hblock : n.content.opensBlock = false := by
        by_contra hblock
        rw [Content.isComment_of_opensBlock (by simpa using hblock)] at hcomment
        cases hcomment
      obtain ⟨inner, hinner, htext, -⟩ := hwritten.exists_inner hcomment
      rw [hblock, Node.trail_of_isComment hcomment, htext] at h
      obtain ⟨hsettled, hend⟩ := ihNext hnext hfoot htail hrest
        (Reads.of_comment (by simpa using h) hinner hcomment)
      exact ⟨⟨by simp, by simp [hblock], hsettled⟩, hend⟩
    | false =>
      cases hblock : n.content.opensBlock with
      | false =>
        rw [hblock, if_neg (by simp)] at h
        obtain ⟨run, -, -, -, -, hcontent, hrecords, -⟩ := hwritten.exists_run hcomment
        obtain ⟨gap, hgap, htrail⟩ :=
          Node.exists_trail hcontent hrecords (closed || next.hasStatement)
        rw [hblock, if_neg (by simp)] at htrail
        have hends : n.EndsBefore ((n.trail (closed || next.hasStatement)).toList ++
            ((next.print (.faithful id) closed false depth).toList ++ (foot ++ tail))) ∧
            Reads ((n.trail (closed || next.hasStatement)).toList ++
              ((next.print (.faithful id) closed false depth).toList ++ (foot ++ tail)))
              (next.map Node.content) rest := by
          cases hsemicolon : closed || next.hasStatement with
          | true =>
            have htext : (n.trail true).toList = gap.toList ++ [';'] := by
              rw [← hsemicolon, htrail, hsemicolon, Layout.semicolonIf]
              simp
            rw [hsemicolon, htext, List.append_assoc] at h
            rw [htext, List.append_assoc]
            exact hwritten.endsBefore_semicolon hcomment hblock hgap h
          | false =>
            have htext : n.trail false = gap := by
              rw [← hsemicolon, htrail, hsemicolon, Layout.semicolonIf]
              simp
            rw [hsemicolon, htext] at h
            rw [htext]
            exact hwritten.endsBefore_comments hcomment hblock hgap hnext
              (Bool.or_eq_false_iff.mp hsemicolon).2 closed false depth hfoot htail hrest h
        obtain ⟨hsettled, hend⟩ := ihNext hnext hfoot htail hrest
          (hends.2.of_gap_append (hwritten.trail_isGapText _) hrest)
        exact ⟨⟨fun _ => by simpa using hends.1, by simp, hsettled⟩, hend⟩
      | true =>
        rw [hblock, if_pos rfl] at h
        have htrail := hwritten.trail_isBlankText hblock (closed || next.hasStatement)
        obtain ⟨hends, behind, hinner, hbehind⟩ :=
          hwritten.endsBefore_block hblock htrail h hrest
        obtain ⟨hsettled, hclose⟩ := ihChildren hchildren (hspaced.foot children.isEmpty depth)
          (by simp) (by simp) hinner
        obtain ⟨-, rfl⟩ := List.cons.inj hclose
        obtain ⟨hlater, hend⟩ := ihNext hnext hfoot htail hrest hbehind
        exact ⟨⟨fun _ => by simpa using hends, fun _ => hsettled, hlater⟩, hend⟩

end LosslessCss
