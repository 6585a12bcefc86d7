import Highlight.Proofs.JsonScanner
import Highlight.Proofs.Scanning

/-! A line that is scanned without an error is a sequence of tokens and spaces. The scanner is laxer
than RFC 8259 in two places only: any character may stand unescaped in a string, and more spaces
may stand between tokens. The line is a sequence in the strict sense exactly if it makes no use of
either. -/

namespace Highlight
open Scan

namespace JsonText

/-- A line of tokens with blanks between them, nothing else. -/
inductive Sequence (plain blank : Char → Prop) : List Char → Prop
  | done : Sequence plain blank []
  | blank {c : Char} {rest : List Char} (skipped : blank c) (later : Sequence plain blank rest) :
      Sequence plain blank (c :: rest)
  | token {kind : TokenKind} {text rest : List Char} (lexical : Lexical plain kind text)
      (later : Sequence plain blank rest) : Sequence plain blank (text ++ rest)

/-- A line in which only strings are told apart from what stands between them. -/
inductive Outline : List Char → Prop
  | done : Outline []
  | blank {c : Char} {rest : List Char} (skipped : Blank c) (later : Outline rest) : Outline (c :: rest)
  | solid {c : Char} {rest : List Char} (printed : Solid c) (later : Outline rest) : Outline (c :: rest)
  | string {body rest : List Char} (spelled : Body Unescaped body) (later : Outline rest) :
      Outline ('"' :: (body ++ '"' :: rest))

variable {plain blank : Char → Prop} {text rest : List Char}

theorem Blank.not_solid {c : Char} (skipped : Blank c) : ¬ Solid c := by
  intro solid
  rcases skipped with rfl | rfl | rfl <;> exact absurd solid.1 (by decide)

theorem Sequence.blanks (skipped : ∀ c ∈ text, blank c) (later : Sequence plain blank rest) :
    Sequence plain blank (text ++ rest) := by
  induction text with
  | nil => exact later
  | cons c text ih =>
    obtain ⟨here, others⟩ := List.forall_mem_cons.mp skipped
    exact .blank here (ih others)

theorem Outline.solids (printed : ∀ c ∈ text, Solid c) (later : Outline rest) : Outline (text ++ rest) := by
  induction text with
  | nil => exact later
  | cons c text ih =>
    obtain ⟨here, others⟩ := List.forall_mem_cons.mp printed
    exact .solid here (ih others)

theorem Sequence.outline (sequence : Sequence Unescaped Blank text) : Outline text := by
  induction sequence with
  | done => exact .done
  | blank skipped _ ih => exact .blank skipped ih
  | @token kind text rest lexical _ ih =>
    by_cases string : kind = .string
    · subst string
      cases lexical with
      | string spelled =>
        rw [List.cons_append, List.append_assoc]
        exact .string spelled ih
    · exact ih.solids (lexical.solid string)

theorem Outline.behind_solids (outline : Outline (text ++ rest)) (printed : ∀ c ∈ text, Solid c) : Outline rest := by
  induction text with
  | nil => exact outline
  | cons c text ih =>
    obtain ⟨here, others⟩ := List.forall_mem_cons.mp printed
    rw [List.cons_append] at outline
    generalize text ++ rest = behind at outline ih
    cases outline with
    | blank skipped => exact absurd here skipped.not_solid
    | solid _ later => exact ih later others
    | string => exact absurd rfl here.2.2

theorem Outline.behind_spaces (outline : Outline (text ++ rest)) (spaces : ∀ c ∈ text, isSpace c = true) :
    (∀ c ∈ text, Blank c) ∧ Outline rest := by
  induction text with
  | nil => exact ⟨fun _ none => absurd none List.not_mem_nil, outline⟩
  | cons c text ih =>
    obtain ⟨here, others⟩ := List.forall_mem_cons.mp spaces
    rw [List.cons_append] at outline
    generalize text ++ rest = behind at outline ih
    cases outline with
    | blank skipped later =>
      obtain ⟨blanks, after⟩ := ih later others
      exact ⟨List.forall_mem_cons.mpr ⟨skipped, blanks⟩, after⟩
    | solid printed => exact absurd (printed.not_isSpace.symm.trans here) Bool.false_ne_true
    | string => cases here

/-- A string ends at the same quote however its characters are judged. -/
theorem Outline.behind_string {body : List Char} (outline : Outline ('"' :: (body ++ '"' :: rest)))
    (spelled : Body plain body) : (∀ c ∈ body, Unescaped c) ∧ Outline rest := by
  generalize same : body ++ '"' :: rest = tail at outline
  cases outline with
  | blank skipped => rcases skipped with impossible | impossible | impossible <;> cases impossible
  | solid printed => exact absurd rfl printed.2.2
  | @string other after strict later =>
    have here : JsonLine.stringTail (body ++ '"' :: rest) = _ := JsonLine.stringTail_append spelled
    rw [same, JsonLine.stringTail_append strict] at here
    simp only [Tail.mk.injEq, Cut.mk.injEq, List.append_cancel_right_eq, and_true] at here
    obtain ⟨rfl, rfl⟩ := here
    exact ⟨strict.unescaped, later⟩

theorem Lexical.restrict {other : Char → Prop} {kind : TokenKind} (lexical : Lexical other kind text)
    (allowed : kind = .string → ∀ c ∈ text, plain c) : Lexical plain kind text := by
  cases lexical with
  | string spelled =>
    refine .string (spelled.restrict fun c member => allowed rfl c ?_)
    exact List.mem_cons_of_mem _ (List.mem_append_left _ member)
  | number spelled => exact .number spelled
  | name known => exact .name known
  | mark known => exact .mark known

def Fits (plain blank : Char → Prop) (lexeme : Lexeme) : Prop :=
  match lexeme.kind with
  | none => ∀ c ∈ lexeme.text, blank c
  | some kind => Lexical plain kind lexeme.text

/-- A lexeme that makes no use of what the scanner allows beyond the rules. -/
structure Strict (lexeme : Lexeme) : Prop where
  string : lexeme.kind = some .string → ∀ c ∈ lexeme.text, Unescaped c
  blank : lexeme.kind = none → ∀ c ∈ lexeme.text, Blank c

theorem Sequence.of_lexemes {lexemes : List Lexeme} (fits : ∀ lexeme ∈ lexemes, Fits plain blank lexeme) :
    Sequence plain blank (lexemes.map Lexeme.text).flatten := by
  induction lexemes with
  | nil => exact .done
  | cons lexeme others ih =>
    obtain ⟨here, later⟩ := List.forall_mem_cons.mp fits
    obtain ⟨kind, text⟩ := lexeme
    cases kind with
    | none => exact .blanks here (ih later)
    | some kind => exact .token here (ih later)

theorem Fits.strict {lexeme : Lexeme} (fits : Fits plain blank lexeme) (strict : Strict lexeme) :
    Fits Unescaped Blank lexeme := by
  obtain ⟨kind, text⟩ := lexeme
  cases kind with
  | none => exact strict.blank rfl
  | some kind =>
    have lexical : Lexical plain kind text := fits
    exact lexical.restrict fun string => strict.string (congrArg some string)

/-- In a strict sequence no lexeme of the scanner can be anything but strict, since both agree on
what is inside a string. -/
theorem Outline.strict {lexemes : List Lexeme} (outline : Outline (lexemes.map Lexeme.text).flatten)
    (fits : ∀ lexeme ∈ lexemes, Fits plain (fun c => isSpace c = true) lexeme) : ∀ lexeme ∈ lexemes, Strict lexeme := by
  induction lexemes with
  | nil => exact fun _ none => absurd none List.not_mem_nil
  | cons lexeme others ih =>
    obtain ⟨here, later⟩ := List.forall_mem_cons.mp fits
    rw [List.map_cons, List.flatten_cons] at outline
    obtain ⟨kind, text⟩ := lexeme
    cases kind with
    | none =>
      obtain ⟨blanks, after⟩ := outline.behind_spaces here
      exact List.forall_mem_cons.mpr ⟨⟨fun string => (nomatch string), fun _ => blanks⟩, ih after later⟩
    | some kind =>
      have lexical : Lexical plain kind text := here
      by_cases string : kind = .string
      · subst string
        cases lexical with
        | @string body spelled =>
          have opened : Outline ('"' :: (body ++ '"' :: (others.map Lexeme.text).flatten)) := by
            simpa only [List.cons_append, List.append_assoc, List.nil_append] using outline
          obtain ⟨clean, after⟩ := opened.behind_string spelled
          have quote : Unescaped '"' := by unfold Unescaped; decide
          have whole : ∀ c ∈ '"' :: (body ++ ['"']), Unescaped c :=
            List.forall_mem_cons.mpr ⟨quote, List.forall_mem_append.mpr ⟨clean, List.forall_mem_singleton.mpr quote⟩⟩
          exact List.forall_mem_cons.mpr ⟨⟨fun _ => whole, fun none => (nomatch none)⟩, ih after later⟩
      · have after := outline.behind_solids (lexical.solid string)
        refine List.forall_mem_cons.mpr ⟨⟨?_, fun none => (nomatch none)⟩, ih after later⟩
        exact fun same => absurd (Option.some.inj same) string

end JsonText

namespace Scan

namespace JsonLine
open JsonText

/-- What is not called an error is spelled by the rules; any character may stand in a string here. -/
theorem lexemes_spelled (line : List Char) : ∀ lexeme ∈ lexemes line, ∀ kind, lexeme.kind = some kind → kind ≠ .error →
    Lexical (fun _ => True) kind lexeme.text :=
  reader.scan_each Carry.neutral line fun _ _ _ token right => read_spelled token right

private theorem lexemes_fit {line : List Char} (accepted : ∀ token ∈ place 0 (lexemes line), token.kind ≠ .error) :
    ∀ lexeme ∈ lexemes line, Fits (fun _ => True) (fun c => isSpace c = true) lexeme := by
  intro lexeme member
  have spaced := lexemes_spaced line lexeme member
  have each := lexemes_spelled line lexeme member
  obtain ⟨kind, text⟩ := lexeme
  cases kind with
  | none => exact spaced rfl
  | some kind =>
    refine each kind rfl ?_
    rintro rfl
    obtain ⟨token, inside, error⟩ := exists_kind_place.mpr ⟨_, member, rfl⟩
    exact accepted token inside error

/-- What is left of "no error, so it is JSON": the line is a sequence of tokens and spaces, and it
is one in the strict sense if and only if no string of it holds a control character and nothing
but JSON's own blanks was skipped. -/
theorem accepted_line_is_sequence (line : List Char)
    (accepted : ∀ token ∈ place 0 (lexemes line), token.kind ≠ .error) :
    Sequence (fun _ => True) (fun c => isSpace c = true) line ∧
      (Sequence Unescaped Blank line ↔ ∀ lexeme ∈ lexemes line, Strict lexeme) := by
  have fits := lexemes_fit accepted
  have whole := lexemes_text line
  refine ⟨?_, ?_, ?_⟩
  · rw [← whole]
    exact .of_lexemes fits
  · intro sequence
    rw [← whole] at sequence
    exact sequence.outline.strict fits
  · intro strict
    rw [← whole]
    exact .of_lexemes fun lexeme member => (fits lexeme member).strict (strict lexeme member)

theorem accepted_line_is_sequence_object :
    (∀ token ∈ place 0 (lexemes "\x7b\"a\": -1.5e3\x7d".toList), token.kind ≠ .error) ∧
      Sequence Unescaped Blank "\x7b\"a\": -1.5e3\x7d".toList := by
  have accepted : ∀ token ∈ place 0 (lexemes "\x7b\"a\": -1.5e3\x7d".toList), token.kind ≠ .error := by decide +kernel
  have read : lexemes "\x7b\"a\": -1.5e3\x7d".toList = [⟨some .operator, ['\x7b']⟩, ⟨some .string, ['"', 'a', '"']⟩,
      ⟨some .operator, [':']⟩, ⟨none, [' ']⟩, ⟨some .number, "-1.5e3".toList⟩, ⟨some .operator, ['\x7d']⟩] := by
    decide +kernel
  refine ⟨accepted, (accepted_line_is_sequence _ accepted).2.mpr ?_⟩
  intro lexeme member
  rw [read] at member
  constructor <;> intro kind
  · have string : lexeme = ⟨some .string, ['"', 'a', '"']⟩ := by
      rcases lexeme with ⟨_, text⟩
      subst kind
      simpa using member
    simp [string, Unescaped]
  · have space : lexeme = ⟨none, [' ']⟩ := by
      rcases lexeme with ⟨_, text⟩
      subst kind
      simpa using member
    simp [space, Blank]

/-- A tab inside a string and a no-break space between tokens are accepted, but neither is JSON. -/
theorem not_every_accepted_line_is_json :
    ((∀ token ∈ place 0 (lexemes ['"', '\t', '"']), token.kind ≠ .error) ∧ ¬ Sequence Unescaped Blank ['"', '\t', '"']) ∧
      (∀ token ∈ place 0 (lexemes ['\u00a0']), token.kind ≠ .error) ∧ ¬ Sequence Unescaped Blank ['\u00a0'] := by
  refine ⟨⟨by decide +kernel, ?_⟩, by decide +kernel, ?_⟩
  · intro sequence
    have spelled : Body (fun _ => True) ['\t'] := .plain trivial (by decide) (by decide) .done
    have outline : Outline ('"' :: (['\t'] ++ '"' :: [])) := sequence.outline
    have impossible : 0x20 ≤ '\t'.toNat := (outline.behind_string spelled).1 '\t' (List.mem_cons_self ..)
    exact absurd impossible (by decide)
  · intro sequence
    have outline : Outline (['\u00a0'] ++ []) := sequence.outline
    have blank := (outline.behind_spaces (List.forall_mem_singleton.mpr rfl)).1 '\u00a0' (List.mem_cons_self ..)
    rcases blank with impossible | impossible | impossible <;> exact absurd impossible (by decide)

end JsonLine

end Scan

end Highlight
