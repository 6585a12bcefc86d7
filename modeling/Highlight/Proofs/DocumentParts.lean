import Highlight.Document
import Highlight.Proofs.Scanning

/-! Reading a document in two parts. All that a line hands to the next one is the script state: a
line knows neither its number nor its place nor the tokens before it. So the lines in front are read
as if nothing followed, and where they leave nothing open the lines behind are read as if nothing
stood before them. -/

namespace Highlight
open Scan

namespace Text

def extent : List (List Char) → Nat
  | [] => 0
  | line :: others => line.length + 1 + extent others

private theorem extent_unlines {lines : List (List Char)} (filled : lines ≠ []) : extent lines =
    (unlines lines).length + 1 := by
  induction lines with
  | nil => exact absurd rfl filled
  | cons line others ih =>
    cases others with
    | nil => rfl
    | cons next more =>
      rw [extent, ih (List.cons_ne_nil _ _), unlines, List.length_append, List.length_cons]
      omega

/-- Behind its last line a text would go on one place after its end. -/
theorem extent_lines (text : List Char) : extent (lines text) = text.length + 1 := by
  rw [extent_unlines (lines_ne_nil text), unlines_lines]

private theorem lines_append_feed (text more : List Char) : lines (text ++ '\n' :: more) = lines text ++ lines more := by
  induction text with
  | nil => rw [List.nil_append, lines_newline, lines, List.singleton_append]
  | cons c rest ih =>
    obtain ⟨first, others, shape⟩ := List.exists_cons_of_ne_nil (lines_ne_nil rest)
    rw [List.cons_append, lines, lines, ih, shape]
    split <;> rfl

end Text

namespace Grammar

variable (grammar : Grammar) (dialect : String)

def leaves (state : ScriptState) (lines : List (List Char)) : ScriptState :=
  lines.foldl (fun state line => (grammar.line dialect state line).2) state

def openAfter (text : List Char) : ScriptState :=
  grammar.leaves (if dialect = "" then grammar.ownDialect else dialect) .neutral (Text.lines text)

private theorem lines_shift (state : ScriptState) (offset distance : Int) (lines : List (List Char)) :
    (grammar.lines dialect state offset lines).map (Token.shift distance) =
      grammar.lines dialect state (offset + distance) lines := by
  induction lines generalizing state offset with
  | nil => rfl
  | cons first others ih =>
    have here : Token.shift distance ∘ Token.shift offset = Token.shift (offset + distance) :=
      funext fun token => token.shift_shift offset distance
    have behind : offset + first.length + 1 + distance = offset + distance + first.length + 1 := by omega
    simp only [lines_cons, List.map_append, List.map_map, here, ih, behind]

theorem lines_append (state : ScriptState) (offset : Int) (first second : List (List Char)) :
    grammar.lines dialect state offset (first ++ second) =
      grammar.lines dialect state offset first ++
        grammar.lines dialect (grammar.leaves dialect state first) (offset + Text.extent first) second := by
  induction first generalizing state offset with
  | nil => simp [Grammar.lines, leaves, Text.extent]
  | cons line others ih =>
    have behind : offset + Text.extent (line :: others) = offset + line.length + 1 + Text.extent others := by
      rw [Text.extent]
      omega
    rw [List.cons_append, lines_cons, lines_cons, ih, List.append_assoc, behind]
    rfl

/-- Lines of JSON and of plain text leave nothing open. -/
theorem leaves_neutral (closed : grammar = .json ∨ grammar = .text) (lines : List (List Char)) :
    grammar.leaves dialect .neutral lines = .neutral := by
  induction lines with
  | nil => rfl
  | cons line others ih =>
    rcases closed with rfl | rfl <;> exact ih

private theorem tokens_append (text more : List Char) :
    grammar.tokens dialect (text ++ '\n' :: more) =
      grammar.tokens dialect text ++
        (grammar.lines (if dialect = "" then grammar.ownDialect else dialect) (grammar.openAfter dialect text) 0
          (Text.lines more)).map (Token.shift (text.length + 1)) := by
  have behind : (0 : Int) + Text.extent (Text.lines text) = 0 + (text.length + 1) := by
    rw [Text.extent_lines]
    rfl
  rw [Grammar.tokens, Text.lines_append_feed, lines_append, behind, ← lines_shift]
  rfl

end Grammar

/-- The tokens of a document begin with those of its first lines. If these leave nothing open, the
rest are the tokens that the other lines have by themselves, moved behind the first ones. Between
lines of JSON or of plain text nothing is ever open. -/
theorem document_read_in_parts (language : Language) (grammar : Grammar)
    (known : Registry.builtin.grammar? language = some grammar) (dialect : String) (text more : List Char) :
    ∃ early late, Registry.builtin.parse language dialect text = .ok early ∧
      Registry.builtin.parse language dialect (text ++ '\n' :: more) = .ok (early ++ late) ∧
      (grammar.openAfter dialect text = .neutral →
        ∃ alone, Registry.builtin.parse language dialect more = .ok alone ∧
          late = alone.map (Token.shift (text.length + 1))) ∧
      (grammar = .json ∨ grammar = .text → grammar.openAfter dialect text = .neutral) := by
  have parse : ∀ whole, Registry.builtin.parse language dialect whole = .ok (grammar.tokens dialect whole) := by
    intro whole
    simp only [Registry.parse, known]
  obtain ⟨late, cut, neutral⟩ : ∃ late, grammar.tokens dialect (text ++ '\n' :: more) = grammar.tokens dialect text ++ late ∧
      (grammar.openAfter dialect text = .neutral → late = (grammar.tokens dialect more).map (Token.shift (text.length + 1))) := by
    refine ⟨_, grammar.tokens_append dialect text more, fun closed => ?_⟩
    rw [closed]
    rfl
  refine ⟨grammar.tokens dialect text, late, parse text, ?_, ?_, fun closed => grammar.leaves_neutral _ closed _⟩
  · rw [parse, cut]
  · exact fun closed => ⟨grammar.tokens dialect more, parse more, neutral closed⟩

theorem document_read_in_parts_script :
    Registry.builtin.grammar? .typescript = some .typescript ∧
      ∃ early alone, Registry.builtin.parse .typescript "" "a.\n\n b /*\n*/".toList = .ok early ∧
        Registry.builtin.parse .typescript "" "c `\n".toList = .ok alone ∧
        Registry.builtin.parse .typescript "" ("a.\n\n b /*\n*/".toList ++ '\n' :: "c `\n".toList) =
          .ok (early ++ alone.map (Token.shift 13)) := by
  obtain ⟨early, late, first, whole, neutral, -⟩ :=
    document_read_in_parts .typescript .typescript rfl "" "a.\n\n b /*\n*/".toList "c `\n".toList
  have closed : Grammar.typescript.openAfter "" "a.\n\n b /*\n*/".toList = .neutral := by decide +kernel
  obtain ⟨alone, second, rfl⟩ := neutral closed
  exact ⟨rfl, early, alone, first, second, whole⟩

end Highlight
