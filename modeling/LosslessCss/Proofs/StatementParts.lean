import LosslessCss.Statement
import LosslessCss.Proofs.Trailing

/-!
# The parts of a statement add up

Each function that takes a run of tokens apart only distributes its text: put together in the order
in which a printer writes them, the parts are the text of the run again.  The runs have to be what
lexical analysis yields, since an at-rule drops the `@` of its name and a comment drops its marks.

## Main Statements

* `Statement.concat_content_append_gap`
* `AtRuleHead.ofTokens_text`, `DeclarationParts.ofTokens_text`, `CommentParts.ofText_text`
* `splitImportant_append` : a value and its mark
-/

namespace LosslessCss

/-- Content and gap are the run. -/
theorem Statement.concat_content_append_gap (ts : List Token) :
    Token.concat (content ts) ++ Token.concat (gap ts) = Token.concat ts := by
  rw [← Token.concat_append, content, gap, dropTrailing_append_takeTrailing]

/-- A run is cut without a loss. -/
theorem Token.concat_takeWhile_append_dropWhile (p : Token → Bool) (ts : List Token) :
    concat (ts.takeWhile p) ++ concat (ts.dropWhile p) = concat ts := by
  rw [← concat_append, List.takeWhile_append_dropWhile]

/-! ### At-rules -/

/-- **The parts of the head of an at-rule** are its text. -/
theorem AtRuleHead.ofTokens_text {word : Token} {name : List Char} (rest : List Token)
    (hword : word.text.toList = '@' :: name) :
    "@" ++ (ofTokens (word :: rest)).name ++ (ofTokens (word :: rest)).afterName ++
      (ofTokens (word :: rest)).params = Token.concat (word :: rest) := by
  have htext : word.text = "@" ++ String.ofList name := by
    rw [← String.toList_inj, hword]
    simp
  simp only [ofTokens, hword, List.drop_succ_cons, List.drop_zero, Token.concat_cons]
  rw [String.append_assoc, Token.concat_takeWhile_append_dropWhile, htext]

/-! ### Declarations -/

/-- The kept part of a value is a stretch at its start. -/
theorem splitImportant_isPrefix (value : List Char) : (splitImportant value).1 <+: value := by
  unfold splitImportant
  dsimp only
  split
  · exact (dropTrailing_isPrefix _ _).trans
      ((List.dropLast_prefix _).trans (dropTrailing_isPrefix _ _))
  · exact List.prefix_rfl

/-- **A value and its mark** are the value as it was written. -/
theorem splitImportant_append (value : List Char) :
    (splitImportant value).1 ++ (splitImportant value).2.getD [] = value := by
  obtain ⟨mark, hmark⟩ := splitImportant_isPrefix value
  unfold splitImportant at hmark ⊢
  dsimp only at hmark ⊢
  split
  · next hcond =>
    rw [if_pos hcond] at hmark
    have hdrop := congrArg (List.drop (Text.trimEnd
      (dropTrailing (· != '!') value).dropLast).length) hmark
    rw [List.drop_left] at hdrop
    rw [Option.getD_some, ← hdrop]
    exact hmark
  · simp

/-- **The parts of a declaration** are its text. -/
theorem DeclarationParts.ofTokens_text {ts : List Token} {parts : DeclarationParts}
    (h : ofTokens ts = .ok parts) :
    parts.property ++ parts.between ++ parts.value ++ parts.important.getD "" =
      Token.concat ts := by
  unfold ofTokens at h
  dsimp only at h
  split at h
  · cases h
  · next colon rest hrest =>
    split at h
    · cases h
    · cases h
      have hvalue := splitImportant_append
        (Token.concat (rest.dropWhile Token.isTrivia)).toList
      have hhead := Statement.concat_content_append_gap
        (ts.takeWhile fun t => t.kind != .colon)
      have htrivia := Token.concat_takeWhile_append_dropWhile Token.isTrivia rest
      have hts := Token.concat_takeWhile_append_dropWhile (fun t => t.kind != .colon) ts
      rw [hrest, Token.concat_cons] at hts
      rw [← hts, ← hhead, ← htrivia]
      generalize splitImportant _ = split at hvalue ⊢
      obtain ⟨value, mark⟩ := split
      have hjoin : String.ofList value ++ (mark.map String.ofList).getD "" =
          Token.concat (rest.dropWhile Token.isTrivia) := by
        rw [← String.toList_inj, ← hvalue]
        cases mark <;> simp
      rw [← hjoin]
      simp only [String.append_assoc]

/-- The parts of a run that is cut at its first colon. -/
def DeclarationParts.ofHalves (front : List Token) (colon : Token) (back : List Token) :
    DeclarationParts :=
  let value := splitImportant (Token.concat (back.dropWhile Token.isTrivia)).toList
  { property := Token.concat (Statement.content front)
    between := Token.concat (Statement.gap front) ++ colon.text ++
      Token.concat (back.takeWhile Token.isTrivia)
    value := String.ofList value.1
    important := value.2.map String.ofList }

/-- **A run is a declaration** exactly if it has a colon with something in front of it. -/
theorem DeclarationParts.ofTokens_eq_ok_iff {ts : List Token} {parts : DeclarationParts} :
    ofTokens ts = .ok parts ↔
      ∃ front colon back, ts = front ++ colon :: back ∧ (∀ t ∈ front, t.kind ≠ .colon) ∧
        colon.kind = .colon ∧ Statement.content front ≠ [] ∧
          parts = ofHalves front colon back := by
  constructor
  · intro h
    unfold ofTokens at h
    dsimp only at h
    split at h
    · cases h
    · next colon back hback =>
      split at h
      · cases h
      · next hfront =>
        cases h
        have hcolon := List.head?_dropWhile_not (fun t : Token => t.kind != .colon) ts
        rw [hback] at hcolon
        refine ⟨_, colon, back, ?_, ?_, by simpa using hcolon, by simpa using hfront, rfl⟩
        · rw [← hback, List.takeWhile_append_dropWhile]
        · exact fun t ht => by simpa using List.mem_takeWhile_imp ht
  · rintro ⟨front, colon, back, rfl, hfront, hcolon, hne, rfl⟩
    have hother : ∀ t ∈ front, (t.kind != .colon) = true := fun t ht => by simpa using hfront t ht
    have hstop : (colon.kind != .colon) = false := by simpa using hcolon
    unfold ofTokens
    dsimp only
    rw [List.takeWhile_append_of_pos hother, List.dropWhile_append_of_pos hother,
      List.takeWhile_cons_of_neg (by simp [hstop]), List.dropWhile_cons_of_neg (by simp [hstop]),
      List.append_nil]
    dsimp only
    rw [if_neg (by simpa using hne)]
    rfl

/-! ### Comments -/

/-- Two characters at the end are dropped by dropping the last one twice. -/
private theorem dropLast_dropLast_append (inner : List Char) (a b : Char) :
    (inner ++ [a, b]).dropLast.dropLast = inner := by
  rw [show inner ++ [a, b] = inner ++ [a] ++ [b] by simp, List.dropLast_concat,
    List.dropLast_concat]

/-- **The parts of a comment** are its text. -/
theorem CommentParts.ofText_text {comment : String} {inner : List Char}
    (hcomment : comment.toList = '/' :: '*' :: (inner ++ ['*', '/'])) :
    "/*" ++ (ofText comment).left ++ (ofText comment).text ++ (ofText comment).right ++ "*/" =
      comment := by
  have hinner : (comment.toList.drop 2).dropLast.dropLast = inner := by
    rw [hcomment, List.drop_succ_cons, List.drop_succ_cons, List.drop_zero,
      dropLast_dropLast_append]
  rw [← String.toList_inj, hcomment]
  unfold ofText
  dsimp only
  rw [hinner]
  split
  · simp
  · next hblank =>
    have htrim : Text.trim inner ≠ [] := by simpa using hblank
    have hspace := Text.leadingSpace_append_trim_append_trailingSpace htrim
    have hjoin : Text.leadingSpace inner ++ (Text.trim inner ++
        (Text.trailingSpace inner ++ ['*', '/'])) = inner ++ ['*', '/'] := by
      rw [← List.append_assoc (Text.trim inner), ← List.append_assoc, hspace]
    simp [hjoin]

end LosslessCss
