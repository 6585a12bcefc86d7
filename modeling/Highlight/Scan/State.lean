import Highlight.Scan.Reader

/-! What is handed from one line to the next. The states of different scanners are told
apart, and each scanner accepts only its own. -/

namespace Highlight.Scan

inductive ScannerState
  | plain
  | json
  | script (carry : Carry)
deriving DecidableEq, Repr

def ScannerState.title : ScannerState → String
  | plain => "LexerState"
  | json => "JSONLexerState"
  | script _ => "JavaScriptLexerState"

structure ForeignState where
  expected : String
  found : String
deriving DecidableEq, Repr

def ForeignState.message (foreign : ForeignState) : String :=
  "Expected " ++ foreign.expected ++ ", got " ++ foreign.found

def ScannerState.scriptCarry? : ScannerState → Except ForeignState Carry
  | script carry => .ok carry
  | other => .error ⟨(script Carry.neutral).title, other.title⟩

end Highlight.Scan
