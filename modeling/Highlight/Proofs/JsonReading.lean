import Highlight.Document
import Highlight.Proofs.JsonScanner
import Highlight.Proofs.Scanning

/-! A JSON text is read from its front. Blanks and line feeds only move what follows them, and a
spelled token is read whole. Whether a string is a name is told by the rest of its own line. -/

namespace Highlight
open Scan

private theorem head?_isOperator_shift (tokens : List Token) (distance : Int) (text : String) :
    (tokens.map (Token.shift distance)).head?.any (·.isOperator text) = tokens.head?.any (·.isOperator text) := by
  cases tokens <;> rfl

private theorem jsonRoles_map_shift (tokens : List Token) (distance : Int) :
    jsonRoles (tokens.map (Token.shift distance)) = (jsonRoles tokens).map (Token.shift distance) := by
  induction tokens with
  | nil => rfl
  | cons token others ih =>
    have role : (token.shift distance).jsonRole (others.map (Token.shift distance)).head? = token.jsonRole others.head? := by
      unfold Token.jsonRole
      rw [head?_isOperator_shift]
      rfl
    rw [List.map_cons, jsonRoles, role, ih]
    rfl

namespace Scan.JsonLine
open JsonText

theorem lexemes_nil : lexemes [] = [] := by
  rw [lexemes, Reader.lexemes, Reader.scan]

private theorem lexemes_token {kind : TokenKind} {text rest : List Char} (lexical : Lexical Unescaped kind text)
    (ends : kind = .number ∨ kind = .keyword → Ends rest) : lexemes (text ++ rest) = ⟨some kind, text⟩ :: lexemes rest := by
  obtain ⟨c, others, rfl⟩ := lexical.filled
  have reading : reader.read c (others ++ rest) = _ := read_append lexical ends
  rw [lexemes, Reader.lexemes, List.cons_append, Reader.scan, reading]
  rfl

private theorem lexemes_space {c : Char} (space : isSpace c = true) (line : List Char) :
    lexemes (c :: line) = ⟨none, c :: line.takeWhile isSpace⟩ :: lexemes (line.dropWhile isSpace) := by
  have reading : reader.read c line = ⟨none, Cut.run isSpace line, .neutral⟩ := if_pos space
  rw [lexemes, Reader.lexemes, Reader.scan, reading]
  rfl

/-- A space only moves what follows it. -/
theorem place_lexemes_space {c : Char} (space : isSpace c = true) (offset : Int) (line : List Char) :
    place offset (lexemes (c :: line)) = place (offset + 1) (lexemes line) := by
  have behind : ∀ start : Int, place start (lexemes line) =
      place (start + (line.takeWhile isSpace).length) (lexemes (line.dropWhile isSpace)) := by
    intro start
    cases line with
    | nil => simp
    | cons d rest =>
      by_cases next : isSpace d = true
      · rw [lexemes_space next, place, List.takeWhile_cons_of_pos next, List.dropWhile_cons_of_pos next]
      · rw [List.takeWhile_cons_of_neg next, List.dropWhile_cons_of_neg next]
        simp
  rw [lexemes_space space, place, behind, List.length_cons]
  congr 1
  omega

end Scan.JsonLine

namespace Grammar
open JsonText

def colonFirst (line : List Char) : Bool := (place 0 (JsonLine.lexemes line)).head?.any (·.isOperator ":")

theorem colonFirst_space {c : Char} (space : isSpace c = true) (line : List Char) :
    colonFirst (c :: line) = colonFirst line := by
  rw [colonFirst, JsonLine.place_lexemes_space space, ← map_shift_place, head?_isOperator_shift, colonFirst]

theorem colonFirst_mark {c : Char} (known : c ∈ marks) (line : List Char) : colonFirst (c :: line) = (c == ':') := by
  have lexical : Lexical Unescaped .operator [c] := .mark known
  have whole : JsonLine.lexemes ([c] ++ line) = _ := JsonLine.lexemes_token lexical fun other => by
    rcases other with impossible | impossible <;> cases impossible
  rw [List.singleton_append] at whole
  rw [colonFirst, whole]
  simp [place, Token.isOperator]

private theorem jsonLine_space {c : Char} (space : isSpace c = true) (line : List Char) :
    jsonLine (c :: line) = (jsonLine line).map (Token.shift 1) := by
  rw [jsonLine, JsonLine.place_lexemes_space space, ← map_shift_place, jsonRoles_map_shift, jsonLine]

private theorem jsonLine_token {kind : TokenKind} {text line : List Char} (lexical : Lexical Unescaped kind text)
    (ends : kind = .number ∨ kind = .keyword → Ends line) :
    jsonLine (text ++ line) = ⟨if kind == .string && colonFirst line then .jsonKey else kind, text, 0⟩ ::
      (jsonLine line).map (Token.shift text.length) := by
  rw [jsonLine, JsonLine.lexemes_token lexical ends, place, ← map_shift_place, jsonRoles, jsonRoles_map_shift]
  unfold Token.jsonRole
  rw [head?_isOperator_shift, jsonLine, colonFirst]

def jsonTokens (dialect : String) (offset : Int) (text : List Char) : List Token :=
  json.lines dialect .neutral offset (Text.lines text)

def firstLine (text : List Char) : List Char := (Text.lines text).headD []

theorem firstLine_append {piece : List Char} (oneLine : '\n' ∉ piece) (text : List Char) :
    firstLine (piece ++ text) = piece ++ firstLine text := by
  obtain ⟨first, others, shape⟩ := List.exists_cons_of_ne_nil (Text.lines_ne_nil text)
  rw [firstLine, Text.lines_append oneLine, firstLine, shape]
  rfl

theorem firstLine_newline (text : List Char) : firstLine ('\n' :: text) = [] := by
  rw [firstLine, Text.lines_newline]
  rfl

variable {dialect : String} {offset : Int} {text : List Char}

private theorem jsonTokens_eq {first : List Char} {others : List (List Char)} (shape : Text.lines text = first :: others) :
    jsonTokens dialect offset text =
      (jsonLine first).map (Token.shift offset) ++ json.lines dialect .neutral (offset + first.length + 1) others := by
  rw [jsonTokens, shape]
  rfl

private theorem jsonLine_nil : jsonLine [] = [] := by
  rw [jsonLine, JsonLine.lexemes_nil]
  rfl

theorem jsonTokens_nil : jsonTokens dialect offset [] = [] := by
  rw [jsonTokens_eq rfl, jsonLine_nil]
  rfl

private theorem jsonTokens_newline : jsonTokens dialect offset ('\n' :: text) = jsonTokens dialect (offset + 1) text := by
  rw [jsonTokens_eq (Text.lines_newline text), jsonLine_nil, jsonTokens]
  simp

/-- What is read of a piece of a line stands before the tokens of the rest of the text. -/
theorem jsonTokens_append {piece : List Char} (oneLine : '\n' ∉ piece) {read : List Token}
    (parts : jsonLine (piece ++ firstLine text) = read ++ (jsonLine (firstLine text)).map (Token.shift piece.length)) :
    jsonTokens dialect offset (piece ++ text) =
      read.map (Token.shift offset) ++ jsonTokens dialect (offset + piece.length) text := by
  obtain ⟨first, others, shape⟩ := List.exists_cons_of_ne_nil (Text.lines_ne_nil text)
  have head : firstLine text = first := by rw [firstLine, shape, List.headD_cons]
  rw [head] at parts
  have moved : Token.shift offset ∘ Token.shift piece.length = Token.shift (offset + piece.length) := by
    funext token
    rw [Function.comp_apply, Token.shift_shift, Int.add_comm]
  have behind : offset + (piece ++ first).length + 1 = offset + piece.length + first.length + 1 := by
    rw [List.length_append]
    omega
  have whole : Text.lines (piece ++ text) = (piece ++ first) :: others := by
    rw [Text.lines_append oneLine, shape, List.modifyHead_cons]
  rw [jsonTokens_eq whole, parts, List.map_append, List.map_map, moved, behind, jsonTokens_eq shape, List.append_assoc]

theorem jsonTokens_gap {gap : List Char} (spaced : ∀ c ∈ gap, Blank c ∨ c = '\n') :
    jsonTokens dialect offset (gap ++ text) = jsonTokens dialect (offset + gap.length) text := by
  induction gap generalizing offset with
  | nil => simp
  | cons c gap ih =>
    obtain ⟨here, others⟩ := List.forall_mem_cons.mp spaced
    have step : jsonTokens dialect offset (c :: (gap ++ text)) = jsonTokens dialect (offset + 1) (gap ++ text) := by
      rcases here with blank | rfl
      · have read : jsonLine ([c] ++ firstLine (gap ++ text)) = [] ++ (jsonLine (firstLine (gap ++ text))).map _ :=
          jsonLine_space blank.isSpace _
        exact jsonTokens_append blank.oneLine read
      · exact jsonTokens_newline
    rw [List.cons_append, step, ih others, List.length_cons]
    congr 1
    omega

theorem jsonTokens_token {kind : TokenKind} {piece : List Char} (lexical : Lexical Unescaped kind piece)
    (ends : kind = .number ∨ kind = .keyword → Ends text) :
    jsonTokens dialect offset (piece ++ text) =
      ⟨if kind == .string && colonFirst (firstLine text) then .jsonKey else kind, piece, offset⟩ ::
        jsonTokens dialect (offset + piece.length) text := by
  have endsLine : kind = .number ∨ kind = .keyword → Ends (firstLine text) := by
    intro other
    cases text with
    | nil => exact ends other
    | cons c rest =>
      by_cases feed : c = '\n'
      · rw [feed, firstLine_newline]
        exact fun _ none => nomatch none
      · have whole := firstLine_append (mt List.mem_singleton.mp (Ne.symm feed)) rest
        rw [List.singleton_append] at whole
        rw [whole]
        exact ends other
  have read := jsonLine_token lexical endsLine
  rw [← List.singleton_append] at read
  rw [jsonTokens_append lexical.oneLine read, List.map_singleton, List.singleton_append, Token.shift, Int.zero_add]

end Grammar

end Highlight
