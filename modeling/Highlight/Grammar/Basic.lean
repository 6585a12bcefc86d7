import Highlight.Grammar.Roles
import Highlight.Scan.JsonLine
import Highlight.Scan.ScriptLine
import Highlight.Scan.State

/-! Grammars turn a line into tokens, given what the lines before it left open. Plain text
and JSON leave nothing open. -/

namespace Highlight

open Scan

inductive Grammar
  | javascript | typescript | json | text
deriving DecidableEq, Repr

/-- What is open between two lines of a script: constructs of the scanner, and a member
access whose member has not come yet. -/
structure ScriptState where
  carry : Carry
  inElement : Bool
deriving DecidableEq, Repr

def ScriptState.neutral : ScriptState := ⟨Carry.neutral, false⟩

namespace Grammar

def all : List Grammar := [javascript, typescript, json, text]

def title : Grammar → String
  | javascript => "JavaScriptParser"
  | typescript => "TypeScriptParser"
  | json => "JSONParser"
  | text => "TextParser"

def ofTitle? (title : String) : Option Grammar := all.find? fun grammar => grammar.title == title

def ownDialect : Grammar → String
  | typescript => "ts"
  | _ => ""

/-- Dialect names are compared without regard to case. Letters outside ASCII are in neither
name. -/
def isTypescript (dialect : String) : Bool :=
  let name := String.ofList (dialect.toList.map Char.toLower)
  name == "ts" || name == "typescript"

def vocabulary (dialect : String) : Vocabulary :=
  if isTypescript dialect then Vocabulary.typescript else Vocabulary.javascript

def scriptLine (words : Vocabulary) (state : ScriptState) (line : List Char) : List Token × ScriptState :=
  let (lexemes, carry) := ScriptLine.lexemes words true state.carry line
  let tokens := place 0 lexemes
  (scriptRoles state.inElement tokens, ⟨carry, endsInAccess state.inElement tokens⟩)

def jsonLine (line : List Char) : List Token := jsonRoles (place 0 (JsonLine.lexemes line))

def textLine (line : List Char) : List Token := if line.isEmpty then [] else [⟨.text, line, 0⟩]

def line (grammar : Grammar) (dialect : String) (state : ScriptState) (line : List Char) : List Token × ScriptState :=
  match grammar with
  | javascript | typescript => scriptLine (vocabulary dialect) state line
  | json => (jsonLine line, ScriptState.neutral)
  | text => (textLine line, ScriptState.neutral)

end Grammar

end Highlight
