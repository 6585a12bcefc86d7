import Highlight.Proofs.JsonErrors
import Highlight.Scan.Session

/-! The whole of a line is one JSON token exactly when the rules spell that token. So the scanner
knows the numbers of JSON and no others, and it decides which texts are numbers. -/

namespace Highlight.Scan

namespace JsonLine
open JsonText

/-- Any character may stand in a string here. -/
theorem single_token_iff {kind : TokenKind} (right : kind ≠ .error) {line : List Char} :
    place 0 (lexemes line) = [⟨kind, line, 0⟩] ↔ Lexical (fun _ => True) kind line := by
  constructor
  · intro alone
    have member : (⟨kind, line, 0⟩ : Token) ∈ place 0 (lexemes line) := alone ▸ List.mem_singleton_self _
    obtain ⟨before, after, split, -⟩ := exists_of_mem_place member
    exact lexemes_spelled line ⟨some kind, line⟩ (by rw [split]; simp) kind rfl right
  · intro lexical
    obtain ⟨c, others, rfl⟩ := lexical.filled
    have nothing : kind = .number ∨ kind = .keyword → Ends [] := fun _ => nofun
    have reading : reader.read c (others ++ []) = ⟨some kind, ⟨others, []⟩, .neutral⟩ := read_append lexical nothing
    rw [List.append_nil] at reading
    rw [lexemes, Reader.lexemes, Reader.scan, reading, Reader.scan]
    rfl

private theorem single_number_iff {line : List Char} : place 0 (lexemes line) = [⟨.number, line, 0⟩] ↔ Number line := by
  rw [single_token_iff (by decide)]
  constructor
  · rintro ⟨⟩
    assumption
  · exact .number

end JsonLine

instance {line : List Char} : Decidable (JsonText.Number line) := decidable_of_iff _ JsonLine.single_number_iff

/-- A new session makes one number of a whole line exactly when the line is a number of JSON, whatever
state it is given. -/
theorem json_numbers_are_recognised (previous : Option ScannerState) (line : List Char) :
    (∃ session last, ({ scanner := .json } : Session).scan previous line = .ok (session, last) ∧
      session.tokens = [⟨.number, line, 0⟩]) ↔ JsonText.Number line := by
  rw [← JsonLine.single_number_iff]
  constructor
  · rintro ⟨session, last, scanned, tokens⟩
    cases scanned
    exact tokens
  · exact fun alone => ⟨_, _, rfl, alone⟩

example : JsonText.Number "-0.5E+10".toList ∧ ¬ JsonText.Number "01".toList ∧ ¬ JsonText.Number "1.e3".toList ∧
    ¬ JsonText.Number "-".toList ∧ ¬ JsonText.Number "1 ".toList := by decide +kernel

end Highlight.Scan
