import Highlight.Grammar.Basic
import Highlight.Language.Basic
import Highlight.Text.Lines

/-! Whole documents. A registry says which grammar reads which language. A document is read
line by line, each line after the state the line before left, and its tokens carry offsets
into the whole text. -/

namespace Highlight

/-- The grammar of each language that has one. -/
structure Registry where
  grammar? : Language → Option Grammar

namespace Registry

def builtin : Registry where
  grammar?
    | .javascript => some .javascript
    | .json => some .json
    | .text => some .text
    | .typescript => some .typescript
    | .unknown => none

def register (registry : Registry) (language : Language) (grammar : Grammar) : Registry :=
  ⟨fun other => if other = language then some grammar else registry.grammar? other⟩

/-- The languages that have a grammar, in the order of their codes. -/
def supported (registry : Registry) : List Language :=
  Language.all.filter fun language => (registry.grammar? language).isSome

end Registry

structure NoGrammar where
  language : Language
deriving DecidableEq, Repr

def NoGrammar.message (missing : NoGrammar) : String := "No parser registered for " ++ missing.language.tag

/-- The tokens of consecutive lines, the first of which starts at `offset`. -/
def Grammar.lines (grammar : Grammar) (dialect : String) (state : ScriptState) (offset : Int) :
    List (List Char) → List Token
  | [] => []
  | first :: others =>
    let (tokens, next) := grammar.line dialect state first
    tokens.map (Token.shift offset) ++ grammar.lines dialect next (offset + first.length + 1) others

theorem Grammar.lines_cons (grammar : Grammar) (dialect : String) (state : ScriptState) (offset : Int) (first : List Char)
    (others : List (List Char)) :
    grammar.lines dialect state offset (first :: others) =
      (grammar.line dialect state first).1.map (Token.shift offset) ++
        grammar.lines dialect (grammar.line dialect state first).2 (offset + first.length + 1) others := rfl

/-- The tokens of a text. No dialect means the grammar's own. -/
def Grammar.tokens (grammar : Grammar) (dialect : String) (text : List Char) : List Token :=
  let chosen := if dialect = "" then grammar.ownDialect else dialect
  grammar.lines chosen ScriptState.neutral 0 (Text.lines text)

def Registry.parse (registry : Registry) (language : Language) (dialect : String) (text : List Char) :
    Except NoGrammar (List Token) :=
  match registry.grammar? language with
  | some grammar => .ok (grammar.tokens dialect text)
  | none => .error ⟨language⟩

structure Range where
  start : Int
  stop : Int
  classList : String
deriving DecidableEq, Repr

/-- The ranges of tokens, as `classes` names their kinds. Empty tokens and kinds without a
class list have none. -/
def ranges (classes : TokenKind → Option String) (tokens : List Token) : List Range :=
  tokens.filterMap fun token =>
    match classes token.kind with
    | some classList =>
      if token.text.isEmpty || classList == "" then none else some ⟨token.start, token.stop, classList⟩
    | none => none

def classRanges (tokens : List Token) : List Range := ranges (fun kind => some kind.classList) tokens

end Highlight
