import Highlight.Scan.JsonLine
import Highlight.Scan.ScriptLine
import Highlight.Scan.State

/-! A scanner that is used for line after line. It keeps the tokens of all its lines in one
list, which is read through a cursor. It also keeps its place: in a further line it goes on
at the position where the line before ended. -/

namespace Highlight.Scan

inductive Scanner
  | json
  | script (words : Vocabulary)

structure Session where
  scanner : Scanner
  position : Nat := 0
  tokens : List Token := []
  cursor : Nat := 0
  carry : Carry := Carry.neutral

namespace Session

/-- The place after a line: the end of what was read. A place beyond the line is kept, unless
an open construct was continued there; that leaves the end of the line. -/
def advance (position size : Nat) (continued : Bool) (lexemes : List Lexeme) : Nat :=
  if position ≤ size then position + (lexemes.flatMap Lexeme.text).length
  else if continued then size
  else position

def scanned (session : Session) (size : Nat) (lexemes : List Lexeme) (carry : Carry) (continued : Bool) : Session :=
  { session with
    position := advance session.position size continued lexemes
    tokens := session.tokens ++ place session.position lexemes
    carry := carry }

/-- Scans one more line. A given state replaces what the session itself carries. -/
def scan (session : Session) (previous : Option ScannerState) (line : List Char) :
    Except ForeignState (Session × ScannerState) :=
  let text := line.drop session.position
  match session.scanner with
  | .json => .ok (session.scanned line.length (JsonLine.lexemes text) .neutral false, .json)
  | .script words => do
    let carry ← match previous with
      | some state => state.scriptCarry?
      | none => .ok session.carry
    let (lexemes, last) := ScriptLine.lexemes words (session.position == 0) carry text
    .ok (session.scanned line.length lexemes last carry.isOpen, .script last)

theorem advance_zero (size : Nat) (continued : Bool) (lexemes : List Lexeme) :
    advance 0 size continued lexemes = (lexemes.flatMap Lexeme.text).length := by
  rw [advance, if_pos (Nat.zero_le _), Nat.zero_add]

/-- A new script scanner reads a line after the given state, or after none. -/
theorem scan_script (words : Vocabulary) (previous : Option Carry) (line : List Char) :
    ∃ session, ({ scanner := .script words } : Session).scan (previous.map .script) line =
        .ok (session, .script (ScriptLine.lexemes words true (previous.getD .neutral) line).2) ∧
      session.tokens = place 0 (ScriptLine.lexemes words true (previous.getD .neutral) line).1 ∧
      session.position = ((ScriptLine.lexemes words true (previous.getD .neutral) line).1.flatMap Lexeme.text).length := by
  cases previous with
  | none => exact ⟨_, rfl, rfl, advance_zero line.length Carry.neutral.isOpen _⟩
  | some carry => exact ⟨_, rfl, rfl, advance_zero line.length carry.isOpen _⟩

def next (session : Session) : Option Token × Session :=
  match session.tokens[session.cursor]? with
  | some token => (some token, { session with cursor := session.cursor + 1 })
  | none => (none, session)

structure BeforeStart where

/-- The token some places away from the cursor. There is none after the last; places before
the first count back from the end, as far as there are tokens. -/
def peek (session : Session) (offset : Int) : Except BeforeStart (Option Token) :=
  let size : Int := session.tokens.length
  let index := session.cursor + offset
  if size ≤ index then .ok none
  else if 0 ≤ index then .ok session.tokens[index.toNat]?
  else if 0 ≤ index + size then .ok session.tokens[(index + size).toNat]?
  else .error {}

end Session

end Highlight.Scan
