import Highlight.Grammar.Basic

/-! Parser states as values that callers keep between two lines. A state also says whether
its line ended inside a construct, and marks which one. Script grammars accept only states
that script grammars made; the other grammars look at no state and make none. -/

namespace Highlight

open Scan

structure Continuation where
  scanner : Option ScannerState := none
  continuing : Bool := false
  mark : Int := 0
deriving DecidableEq, Repr

inductive ParserState
  | plain (continuation : Continuation)
  | script (continuation : Continuation) (inElement : Bool)
deriving DecidableEq, Repr

namespace ParserState

def title : ParserState → String
  | plain _ => "ParserState"
  | script .. => "JavaScriptParserState"

def continuation : ParserState → Continuation
  | plain continuation | script continuation _ => continuation

def markOf (carry : Carry) : Int := if carry.inTemplate then 2 else if carry.inComment then 1 else 0

def ofScript (state : ScriptState) : ParserState :=
  script ⟨some (.script state.carry), state.carry.isOpen, markOf state.carry⟩ state.inElement

def scriptState? : ParserState → Except ForeignState ScriptState
  | script continuation inElement => do
    let carry ← match continuation.scanner with
      | some scanner => scanner.scriptCarry?
      | none => .ok Carry.neutral
    .ok ⟨carry, inElement⟩
  | other => .error ⟨(ofScript ScriptState.neutral).title, other.title⟩

end ParserState

namespace Grammar

/-- Parses a line after the given state. A dialect that is asked for, even an empty one,
replaces the grammar's own. -/
def parseLine (grammar : Grammar) (dialect : Option String) (previous : Option ParserState) (text : List Char) :
    Except ForeignState (List Token × Option ParserState) :=
  let dialect := dialect.getD grammar.ownDialect
  match grammar with
  | javascript | typescript => do
    let state ← match previous with
      | some state => state.scriptState?
      | none => .ok ScriptState.neutral
    let (tokens, state) := grammar.line dialect state text
    .ok (tokens, some (ParserState.ofScript state))
  | json | Grammar.text => .ok ((grammar.line dialect ScriptState.neutral text).1, none)

end Grammar

end Highlight
