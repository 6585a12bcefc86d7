import Highlight.Proofs.Literals

/-! Regular expressions are told from divisions by what stands between two slashes. The scanner looks for
the second slash with two flags; here a body is a tree of pairs, bracket classes and single
characters, and a slash divides if no such body stands behind it. -/

namespace Highlight.Scan.ScriptLine

/-- What can stand between the slashes of a regular expression. Neither a slash in a bracket class nor
one behind a backslash ends it, and a bracket that closes nothing stands for itself. -/
inductive RegexBody : List Char → Prop
  | done : RegexBody []
  | plain {c : Char} {rest : List Char} (notSlash : c ≠ '/') (unescaped : c ≠ '\\') (unbracketed : c ≠ '[')
      (later : RegexBody rest) : RegexBody (c :: rest)
  | escape {c : Char} {rest : List Char} (later : RegexBody rest) : RegexBody ('\\' :: c :: rest)
  | bracketed {inside rest : List Char} (valid : QuotedBody ']' inside) (later : RegexBody rest) :
      RegexBody ('[' :: (inside ++ ']' :: rest))

private theorem regexTail_slash (rest : List Char) : regexTail false false ('/' :: rest) = ⟨⟨['/'], rest⟩, true⟩ := rfl

private theorem regexTail_escape (inClass : Bool) (c : Char) (rest : List Char) :
    regexTail false inClass ('\\' :: c :: rest) = ((regexTail false inClass rest).push c).push '\\' := rfl

private theorem regexTail_plain {c : Char} {rest : List Char} (notSlash : c ≠ '/') (unescaped : c ≠ '\\')
    (unbracketed : c ≠ '[') :
    regexTail false false (c :: rest) = (regexTail false false rest).push c := by
  simp only [regexTail, notSlash, unescaped, unbracketed, Bool.false_eq_true, if_false, decide_false, Bool.false_and, ite_self]

/-- A bracket class is read as what its closing bracket quotes. -/
theorem regexTail_class (text : List Char) :
    regexTail false true text = (quotedTail ']' text).followedBy (regexTail false false) := by
  fun_induction quotedTail ']' text with
  | case1 => rfl
  | case2 => rfl
  | case3 => rfl
  | case4 d others notClosing ih =>
    rw [regexTail_escape, ih, Tail.push_followedBy, Tail.push_followedBy]
  | case5 c following notClosing unescaped ih =>
    rw [Tail.push_followedBy, ← ih]
    simp only [regexTail, notClosing, unescaped, Bool.false_eq_true, if_false, Bool.not_true, Bool.and_false, ite_self]

private theorem regexTail_bracket (rest : List Char) :
    regexTail false false ('[' :: rest) = ((quotedTail ']' rest).followedBy (regexTail false false)).push '[' :=
  congrArg (Tail.push '[') (regexTail_class rest)

/-- A body is read to its end, whatever stands behind the slash there. -/
theorem regexTail_body {body : List Char} (valid : RegexBody body) (rest : List Char) :
    regexTail false false (body ++ '/' :: rest) = ⟨⟨body ++ ['/'], rest⟩, true⟩ := by
  induction valid with
  | done => exact regexTail_slash rest
  | plain notSlash unescaped unbracketed _ ih =>
    rw [List.cons_append, regexTail_plain notSlash unescaped unbracketed, ih]
    rfl
  | escape _ ih =>
    rw [List.cons_append, List.cons_append, regexTail_escape, ih]
    rfl
  | @bracketed inside others inner _ ih =>
    have whole : '[' :: (inside ++ ']' :: others) ++ '/' :: rest = '[' :: (inside ++ ']' :: (others ++ '/' :: rest)) := by
      simp
    rw [whole, regexTail_bracket, quotedTail_body (by decide) inner, Tail.followedBy_of_complete rfl, ih]
    simp [Tail.push]

private theorem regexTail_closed {text : List Char} (complete : (regexTail false false text).complete = true) :
    ∃ body, RegexBody body ∧ (regexTail false false text).taken = body ++ ['/'] := by
  -- by the length of the text: behind a class the body goes on far from where the class began
  induction size : text.length using Nat.strongRecOn generalizing text with
  | ind length ih =>
    cases text with
    | nil => cases complete
    | cons c following =>
      rw [List.length_cons] at size
      by_cases slash : c = '/'
      · subst slash
        exact ⟨[], .done, rfl⟩
      by_cases escape : c = '\\'
      · subst escape
        cases following with
        | nil => cases complete
        | cons d others =>
          rw [List.length_cons] at size
          obtain ⟨body, valid, taken⟩ := @ih others.length (by omega) others complete rfl
          exact ⟨'\\' :: d :: body, .escape valid, congrArg (fun text => '\\' :: d :: text) taken⟩
      by_cases bracket : c = '['
      · subst bracket
        rw [regexTail_bracket] at complete ⊢
        have closes := Tail.complete_of_followedBy complete
        have shorter := (quotedTail_covers ']' following).rest_length_le
        rw [Tail.followedBy_of_complete closes] at complete ⊢
        obtain ⟨inside, inner, inTaken⟩ := quotedTail_closed closes
        obtain ⟨body, valid, taken⟩ := ih _ (by omega) complete rfl
        refine ⟨'[' :: (inside ++ ']' :: body), .bracketed inner valid, ?_⟩
        simp only [Tail.push, inTaken, taken, List.cons_append, List.append_assoc, List.nil_append]
      · rw [regexTail_plain slash escape bracket] at complete ⊢
        obtain ⟨body, valid, taken⟩ := ih following.length (by omega) complete rfl
        exact ⟨c :: body, .plain slash escape bracket valid, congrArg (c :: ·) taken⟩

private theorem regexTail_complete_iff (text : List Char) :
    (regexTail false false text).complete = true ↔ ∃ body rest, RegexBody body ∧ text = body ++ '/' :: rest := by
  constructor
  · intro complete
    obtain ⟨body, valid, taken⟩ := regexTail_closed complete
    have covers : (regexTail false false text).taken ++ (regexTail false false text).rest = text := regexTail_covers _ _ text
    rw [taken, List.append_assoc] at covers
    exact ⟨body, _, valid, covers.symm⟩
  · rintro ⟨body, rest, valid, rfl⟩
    rw [regexTail_body valid]

/-- No two bodies that a slash follows stand at one place. -/
theorem RegexBody.unique {body other rest later : List Char} (valid : RegexBody body) (otherValid : RegexBody other)
    (same : body ++ '/' :: rest = other ++ '/' :: later) : body = other ∧ rest = later := by
  have reads := congrArg (regexTail false false) same
  rw [regexTail_body valid, regexTail_body otherValid] at reads
  simp only [Tail.mk.injEq, Cut.mk.injEq, List.append_left_inj, and_true] at reads
  exact reads

/-- A slash begins neither an assignment nor a comment with what stands behind it. -/
def PlainSlash (following : List Char) : Prop := ∀ c ∈ following.head?, c ≠ '=' ∧ c ≠ '/' ∧ c ≠ '*'

private theorem slash_eq {following : List Char} (plain : PlainSlash following) :
    slash following =
      if (regexTail false false following).complete then
        ⟨some .regexp, (regexTail false false following).toCut.followedBy (Cut.run isRegexFlag), .neutral⟩
      else ⟨some .operator, Cut.none following, .neutral⟩ := by
  unfold slash
  split
  · exact absurd rfl (plain '=' rfl).1
  · exact absurd rfl (plain '/' rfl).2.1
  · exact absurd rfl (plain '*' rfl).2.2
  · rfl

theorem slash_regexp {body rest : List Char} (valid : RegexBody body) (plain : PlainSlash (body ++ '/' :: rest)) :
    slash (body ++ '/' :: rest) =
      ⟨some .regexp, ⟨body ++ '/' :: rest.takeWhile isRegexFlag, rest.dropWhile isRegexFlag⟩, .neutral⟩ := by
  rw [slash_eq plain, regexTail_body valid, if_pos rfl]
  simp only [Cut.followedBy, Cut.run, List.append_assoc, List.singleton_append]

theorem slash_divides {following : List Char} (plain : PlainSlash following)
    (endless : ∀ body rest, RegexBody body → following ≠ body ++ '/' :: rest) :
    slash following = ⟨some .operator, Cut.none following, .neutral⟩ := by
  have unfinished : ¬ (regexTail false false following).complete = true := by
    intro complete
    obtain ⟨body, rest, valid, same⟩ := (regexTail_complete_iff following).mp complete
    exact endless body rest valid same
  rw [slash_eq plain, if_neg unfinished]

private theorem code_slash (words : Vocabulary) (following : List Char) (atStart : Bool) :
    ∃ after, (code words atStart ('/' :: following)).1 =
      ⟨(slash following).kind, '/' :: (slash following).body.taken⟩ :: after := by
  have plain : ¬ IsHashbang ('/' :: following) := by
    rintro ⟨rest, same⟩
    cases same
  have read : (reader words).read '/' following = slash following := rfl
  rw [code_eq_lexemes words (Or.inr plain), Reader.lexemes, Reader.scan_cons, read]
  exact ⟨_, rfl⟩

end Highlight.Scan.ScriptLine

namespace Highlight
open Scan ScriptLine

/-- A slash in code that begins neither an assignment nor a comment begins a regular expression exactly
if a body and another slash stand behind it, which can be so in one way only. The flags that
follow belong to it; a slash without a body divides. -/
theorem regexps_have_a_body (words : Vocabulary) (carry : Carry) (line following : List Char) (start : Nat)
    (inside : start ∈ codePlaces words carry 0 [line]) (slash : line.drop start = '/' :: following)
    (plain : PlainSlash following) :
    ((∃ token ∈ place 0 (lexemes words true carry line).1, token.start = start ∧ token.kind = .regexp) ↔
      ∃ body rest, RegexBody body ∧ following = body ++ '/' :: rest) ∧
    (∀ body rest, RegexBody body → following = body ++ '/' :: rest →
      (∀ other later, RegexBody other → following = other ++ '/' :: later → other = body ∧ later = rest) ∧
      ∀ token, token ∈ place 0 (lexemes words true carry line).1 ∧ token.start = start ↔
        token = ⟨.regexp, '/' :: (body ++ '/' :: rest.takeWhile isRegexFlag), start⟩) ∧
    ((∀ body rest, RegexBody body → following ≠ body ++ '/' :: rest) →
      ∀ token, token ∈ place 0 (lexemes words true carry line).1 ∧ token.start = start ↔ token = ⟨.operator, ['/'], start⟩) := by
  have reads := code_slash words following
  rw [← slash] at reads
  have divides (endless : ∀ body rest, RegexBody body → following ≠ body ++ '/' :: rest) (token : Token) :
      token ∈ place 0 (lexemes words true carry line).1 ∧ token.start = start ↔ token = ⟨.operator, ['/'], start⟩ := by
    rw [slash_divides plain endless] at reads
    exact token_at_codePlace_iff inside reads token
  have matched (body rest : List Char) (valid : RegexBody body) (same : following = body ++ '/' :: rest) (token : Token) :
      token ∈ place 0 (lexemes words true carry line).1 ∧ token.start = start ↔
        token = ⟨.regexp, '/' :: (body ++ '/' :: rest.takeWhile isRegexFlag), start⟩ := by
    subst same
    rw [slash_regexp valid plain] at reads
    exact token_at_codePlace_iff inside reads token
  refine ⟨⟨?_, ?_⟩, ?_, divides⟩
  · rintro ⟨token, member, here, regexp⟩
    apply Classical.byContradiction
    intro none
    have endless : ∀ body rest, RegexBody body → following ≠ body ++ '/' :: rest :=
      fun body rest valid same => none ⟨body, rest, valid, same⟩
    rw [(divides endless token).mp ⟨member, here⟩] at regexp
    cases regexp
  · rintro ⟨body, rest, valid, same⟩
    obtain ⟨member, here⟩ := (matched body rest valid same _).mpr rfl
    exact ⟨_, member, here, rfl⟩
  · intro body rest valid same
    exact ⟨fun other later otherValid again => otherValid.unique valid (again.symm.trans same), matched body rest valid same⟩

/-- In a class and behind a backslash a slash ends nothing, and behind the flags the next one divides. -/
theorem regexps_have_a_body_class :
    (2 ∈ codePlaces .javascript .neutral 0 ["x=/[/\\]]+\\//gi/2;".toList] ∧ PlainSlash "[/\\]]+\\//gi/2;".toList ∧
      RegexBody "[/\\]]+\\/".toList ∧
      ∀ token, token ∈ place 0 (lexemes .javascript true .neutral "x=/[/\\]]+\\//gi/2;".toList).1 ∧ token.start = (2 : Nat) ↔
        token = ⟨.regexp, "/[/\\]]+\\//gi".toList, (2 : Nat)⟩) ∧
    (14 ∈ codePlaces .javascript .neutral 0 ["x=/[/\\]]+\\//gi/2;".toList] ∧ PlainSlash "2;".toList ∧
      ∀ token, token ∈ place 0 (lexemes .javascript true .neutral "x=/[/\\]]+\\//gi/2;".toList).1 ∧ token.start = (14 : Nat) ↔
        token = ⟨.operator, ['/'], (14 : Nat)⟩) := by
  have places : codePlaces .javascript .neutral 0 ["x=/[/\\]]+\\//gi/2;".toList] = [0, 1, 2, 14, 15, 16] := by decide +kernel
  have first : 2 ∈ codePlaces .javascript .neutral 0 ["x=/[/\\]]+\\//gi/2;".toList] := by
    rw [places]
    decide
  have second : 14 ∈ codePlaces .javascript .neutral 0 ["x=/[/\\]]+\\//gi/2;".toList] := by
    rw [places]
    decide
  have valid : RegexBody "[/\\]]+\\/".toList :=
    @RegexBody.bracketed "/\\]".toList _ (.plain (by decide) (by decide) (.escape .done))
      (.plain (by decide) (by decide) (by decide) (.escape .done))
  have opensRegexp : PlainSlash "[/\\]]+\\//gi/2;".toList := by
    rintro c ⟨⟩
    decide
  have divides : PlainSlash "2;".toList := by
    rintro c ⟨⟩
    decide
  have endless : ∀ body rest, RegexBody body → "2;".toList ≠ body ++ '/' :: rest := by
    intro body rest valid same
    have complete := (regexTail_complete_iff _).mpr ⟨body, rest, valid, same⟩
    exact absurd complete (by decide)
  obtain ⟨-, matched, -⟩ := regexps_have_a_body .javascript .neutral _ _ 2 first rfl opensRegexp
  obtain ⟨-, -, unmatched⟩ := regexps_have_a_body .javascript .neutral _ _ 14 second rfl divides
  exact ⟨⟨first, opensRegexp, valid, (matched _ "gi/2;".toList valid rfl).2⟩, second, divides, unmatched endless⟩

end Highlight
