import Highlight.Proofs.CodePlaces

/-! Literals end at their own quote. An escaped character never closes one, so what stands behind the
closing quote is code again; a literal that nothing closes takes the rest of its line, and only
a template literal then goes on in the next one. -/

namespace Highlight.Scan.ScriptLine

theorem IsQuote.ne_backslash {quote : Char} (isQuote : IsQuote quote) : '\\' ≠ quote := by
  rcases isQuote with rfl | rfl | rfl <;> decide

private theorem not_isHashbang_quote {quote : Char} (isQuote : IsQuote quote) (inside : List Char) :
    ¬ IsHashbang (quote :: inside) := by
  rintro ⟨rest, same⟩
  obtain ⟨rfl, -⟩ := List.cons.inj same
  rcases isQuote with impossible | impossible | impossible <;> cases impossible

theorem read_quote (words : Vocabulary) {quote : Char} (isQuote : IsQuote quote) (inside : List Char) :
    read words quote inside = quoted quote inside := by
  rcases isQuote with rfl | rfl | rfl <;> rfl

/-- A body is read to its end, whatever stands behind the quote there. -/
theorem quotedTail_body {quote : Char} (escapes : '\\' ≠ quote) {body : List Char} (valid : QuotedBody quote body)
    (rest : List Char) : quotedTail quote (body ++ quote :: rest) = ⟨⟨body ++ [quote], rest⟩, true⟩ := by
  induction valid with
  | done => exact quotedTail_quote quote rest
  | plain notQuote unescaped _ ih =>
    rw [List.cons_append, quotedTail_plain notQuote unescaped, ih]
    rfl
  | escape _ ih =>
    rw [List.cons_append, List.cons_append, quotedTail_escape escapes, ih]
    rfl

private theorem quotedTail_complete_iff {quote : Char} (escapes : '\\' ≠ quote) (inside : List Char) :
    (quotedTail quote inside).complete = true ↔ ∃ body rest, QuotedBody quote body ∧ inside = body ++ quote :: rest := by
  constructor
  · intro complete
    obtain ⟨body, valid, taken⟩ := quotedTail_closed complete
    have covers : (quotedTail quote inside).taken ++ (quotedTail quote inside).rest = inside := quotedTail_covers quote inside
    rw [taken, List.append_assoc] at covers
    exact ⟨body, _, valid, covers.symm⟩
  · rintro ⟨body, rest, valid, rfl⟩
    rw [quotedTail_body escapes valid]

/-- A literal is all that is read of code that begins with a quote, or code is read again behind it. -/
theorem code_quote (words : Vocabulary) (atStart : Bool) {quote : Char} (isQuote : IsQuote quote) (inside : List Char) :
    code words atStart (quote :: inside) =
      (⟨some .string, quote :: (quotedTail quote inside).taken⟩ ::
          ((reader words).scan (quoted quote inside).carry (quotedTail quote inside).rest).1,
        ((reader words).scan (quoted quote inside).carry (quotedTail quote inside).rest).2) := by
  have read : (reader words).read quote inside = quoted quote inside := read_quote words isQuote inside
  rw [code_eq_lexemes words (Or.inr (not_isHashbang_quote isQuote inside)), Reader.lexemes, Reader.scan_cons, read]
  rfl

private theorem code_closed (words : Vocabulary) (atStart : Bool) {quote : Char} (isQuote : IsQuote quote) {body : List Char}
    (valid : QuotedBody quote body) (rest : List Char) :
    code words atStart (quote :: (body ++ quote :: rest)) =
      (⟨some .string, quote :: (body ++ [quote])⟩ :: (code words false rest).1, (code words false rest).2) := by
  have tail := quotedTail_body isQuote.ne_backslash valid rest
  have neutral : (quoted quote (body ++ quote :: rest)).carry = .neutral := by
    simp only [quoted, tail, Bool.not_true, Bool.and_false]
    rfl
  rw [code_quote words atStart isQuote, tail, neutral, code_eq_lexemes words (Or.inl rfl)]
  rfl

private theorem code_unclosed (words : Vocabulary) (atStart : Bool) {quote : Char} (isQuote : IsQuote quote)
    {inside : List Char}
    (unclosed : ∀ body rest, QuotedBody quote body → inside ≠ body ++ quote :: rest) :
    code words atStart (quote :: inside) = ([⟨some .string, quote :: inside⟩], ⟨false, quote == '\x60'⟩) := by
  have unfinished : (quotedTail quote inside).complete = false := by
    refine Bool.eq_false_iff.mpr fun complete => ?_
    obtain ⟨body, rest, valid, same⟩ := (quotedTail_complete_iff isQuote.ne_backslash inside).mp complete
    exact unclosed body rest valid same
  have rest := quotedTail_rest unfinished
  have taken : (quotedTail quote inside).taken ++ (quotedTail quote inside).rest = inside := quotedTail_covers quote inside
  rw [rest, List.append_nil] at taken
  have carry : (quoted quote inside).carry = ⟨false, quote == '\x60'⟩ := by
    simp only [quoted, unfinished, Bool.not_false, Bool.and_true]
  rw [code_quote words atStart isQuote, rest, taken, carry, Reader.scan]

/-- A string that is read of code begins at a quote, and ends at the same quote or with the text. -/
theorem code_string {words : Vocabulary} {atStart : Bool} {text piece : List Char} {after : List Lexeme}
    (read : (code words atStart text).1 = ⟨some .string, piece⟩ :: after) :
    piece = text ∨ ∃ quote body rest, IsQuote quote ∧ QuotedBody quote body ∧ text = quote :: (body ++ quote :: rest) ∧
      piece = quote :: (body ++ [quote]) := by
  obtain ⟨quote, inside, isQuote, rfl⟩ : ∃ quote inside, IsQuote quote ∧ text = quote :: inside := by
    by_cases plain : atStart = false ∨ ¬ IsHashbang text
    · rw [code_eq_lexemes words plain, Reader.lexemes] at read
      cases text with
      | nil =>
        rw [Reader.scan] at read
        cases read
      | cons c following =>
        rw [Reader.scan_cons] at read
        have kind := congrArg Lexeme.kind (List.cons.inj read).1
        exact ⟨c, following, (read_kinds words c following _ kind).2 rfl, rfl⟩
    · obtain ⟨start, hashbang⟩ := not_or.mp plain
      rw [Bool.not_eq_false] at start
      rw [start, code_hashbang words (Classical.not_not.mp hashbang)] at read
      cases read
  by_cases closes : ∃ body rest, QuotedBody quote body ∧ inside = body ++ quote :: rest
  · obtain ⟨body, rest, valid, rfl⟩ := closes
    rw [code_closed words atStart isQuote valid] at read
    have text := congrArg Lexeme.text (List.cons.inj read).1
    exact Or.inr ⟨quote, body, rest, isQuote, valid, rfl, text.symm⟩
  · rw [code_unclosed words atStart isQuote fun body rest valid same => closes ⟨body, rest, valid, same⟩] at read
    exact Or.inl (congrArg Lexeme.text (List.cons.inj read).1).symm

end Highlight.Scan.ScriptLine

namespace Highlight
open Scan ScriptLine

/-- A literal ends at the first quote of its own that nothing escapes, and code is read again behind that.
A literal that does not take the rest of its line ends there, and one without such a quote takes
the rest of its line; then only a template literal is left open. -/
theorem literals_end_at_their_quote (words : Vocabulary) :
    (∀ (quote : Char) (body rest : List Char), IsQuote quote → QuotedBody quote body →
      place 0 (lexemes words true .neutral (quote :: (body ++ quote :: rest))).1 =
          ⟨.string, quote :: (body ++ [quote]), 0⟩ :: place (body.length + 2) (code words false rest).1 ∧
        (lexemes words true .neutral (quote :: (body ++ quote :: rest))).2 = (code words false rest).2) ∧
    (∀ (carry : Carry) (line : List Char) (start : Nat), start ∈ codePlaces words carry 0 [line] →
      ∀ token ∈ place 0 (lexemes words true carry line).1, token.kind = .string → token.start = start →
        token.stop < line.length →
        ∃ quote body, IsQuote quote ∧ QuotedBody quote body ∧ ('\n' ∉ line → '\n' ∉ body) ∧
          token.text = quote :: (body ++ [quote])) ∧
    (∀ (carry : Carry) (line : List Char) (start : Nat), start ∈ codePlaces words carry 0 [line] →
      ∀ (quote : Char) (inside : List Char), IsQuote quote → line.drop start = quote :: inside →
        (∀ body rest, QuotedBody quote body → inside ≠ body ++ quote :: rest) →
        (place 0 (lexemes words true carry line).1).getLast? = some ⟨.string, quote :: inside, start⟩ ∧
          ((lexemes words true carry line).2.inTemplate = true ↔ quote = '\x60')) := by
  refine ⟨?_, ?_, ?_⟩
  · intro quote body rest isQuote valid
    rw [lexemes_eq_code words true rfl, code_closed words true isQuote valid]
    refine ⟨?_, rfl⟩
    have size : (0 : Int) + (quote :: (body ++ [quote])).length = body.length + 2 := by
      simp only [List.length_cons, List.length_append, List.length_nil]
      omega
    rw [place_cons, size]
    rfl
  · intro carry line start inside token member string here short
    obtain ⟨before, after, -, read⟩ := readsFrom_of_mem_place member here inside
    rw [string] at read
    rcases code_string read with whole | ⟨quote, body, rest, isQuote, valid, same, text⟩
    · have size := congrArg List.length whole
      rw [List.length_drop] at size
      rw [Token.stop, here] at short
      omega
    · have within : '\n' ∈ body → '\n' ∈ line.drop start := by
        intro feed
        rw [same]
        exact List.mem_cons_of_mem _ (List.mem_append_left _ feed)
      exact ⟨quote, body, isQuote, valid, fun oneLine feed => oneLine (List.mem_of_mem_drop (within feed)), text⟩
  · intro carry line start inside quote following isQuote opened unclosed
    obtain ⟨before, reads, size⟩ := readsFrom_of_mem_codePlaces inside
    rw [reads.read, opened, code_unclosed words before.isEmpty isQuote unclosed]
    refine ⟨?_, beq_iff_eq⟩
    rw [place_append, size, Int.zero_add]
    exact List.getLast?_concat ..

/-- An escaped quote stays inside its literal, and a backslash at the end of a line escapes nothing: what it
stands in is left open if it is a template literal. -/
theorem literals_end_at_their_quote_escaped :
    (IsQuote '"' ∧ QuotedBody '"' "a\\\"".toList ∧
      place 0 (lexemes .javascript true .neutral "\"a\\\"\"+b".toList).1 =
        [⟨.string, "\"a\\\"\"".toList, 0⟩, ⟨.operator, ['+'], 5⟩, ⟨.identifier, ['b'], 6⟩]) ∧
    (∃ quote body, IsQuote quote ∧ QuotedBody quote body ∧ ('\n' ∉ "x'\\\\';".toList → '\n' ∉ body) ∧
      "'\\\\'".toList = quote :: (body ++ [quote])) ∧
    (place 0 (lexemes .javascript true .neutral "x\x60\\".toList).1).getLast? = some ⟨.string, "\x60\\".toList, 1⟩ ∧
      (lexemes .javascript true .neutral "x\x60\\".toList).2.inTemplate = true := by
  obtain ⟨closed, ended, unclosed⟩ := literals_end_at_their_quote .javascript
  have valid : QuotedBody '"' "a\\\"".toList := .plain (by decide) (by decide) (.escape .done)
  have behind : place 5 (code .javascript false ['+', 'b']).1 = [⟨.operator, ['+'], 5⟩, ⟨.identifier, ['b'], 6⟩] := by decide +kernel
  have never : ∀ body rest, QuotedBody '\x60' body → ['\\'] ≠ body ++ '\x60' :: rest := by
    intro body rest valid same
    have complete := (quotedTail_complete_iff (by decide) _).mpr ⟨body, rest, valid, same⟩
    exact absurd complete (by decide)
  refine ⟨⟨Or.inl rfl, valid, ?_⟩, ?_, ?_⟩
  · rw [← behind]
    exact (closed '"' "a\\\"".toList ['+', 'b'] (Or.inl rfl) valid).1
  · have places : 1 ∈ codePlaces .javascript .neutral 0 ["x'\\\\';".toList] := by
      rw [show codePlaces .javascript .neutral 0 ["x'\\\\';".toList] = [0, 1, 5] by decide +kernel]
      decide
    have tokens : place 0 (lexemes .javascript true .neutral "x'\\\\';".toList).1 =
        [⟨.identifier, ['x'], 0⟩, ⟨.string, "'\\\\'".toList, 1⟩, ⟨.operator, [';'], 5⟩] := by decide +kernel
    exact ended .neutral _ 1 places ⟨.string, "'\\\\'".toList, 1⟩ (by rw [tokens]; simp) rfl rfl (by decide)
  · have places : 1 ∈ codePlaces .javascript .neutral 0 ["x\x60\\".toList] := by
      rw [show codePlaces .javascript .neutral 0 ["x\x60\\".toList] = [0, 1] by decide +kernel]
      decide
    obtain ⟨last, opened⟩ := unclosed .neutral "x\x60\\".toList 1 places '\x60' ['\\'] (Or.inr (Or.inr rfl)) rfl never
    exact ⟨last, opened.mpr rfl⟩

end Highlight
