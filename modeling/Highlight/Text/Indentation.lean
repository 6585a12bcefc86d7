import Highlight.Text.Blank
import Highlight.Text.Lines

/-! Code that is quoted inside other code begins with a blank line and is indented as a
whole. Both are undone: the blank first line goes, and the blanks that the next line starts
with are taken from every line that starts with exactly these. -/

namespace Highlight.Text

variable {γ : Type} [Letter γ]

def isBlankLine (line : List γ) : Bool := line.all fun c => isBlank (Letter.seen c)

def indentOf (line : List γ) : List γ := line.takeWhile fun c => isBlank (Letter.seen c)

def removeIndent [DecidableEq γ] (indent line : List γ) : List γ :=
  if indent.isPrefixOf line then line.drop indent.length else line

/-- A text whose first line is not blank is left as it is. -/
def unindent [DecidableEq γ] (text : List γ) : List γ :=
  match lines text with
  | [] => text
  | first :: others =>
    if !isBlankLine first then text
    else match others with
      | [] => []
      | second :: more => unlines ((second :: more).map (removeIndent (indentOf second)))

def unifyLineEnds : List γ → List γ
  | c :: d :: rest =>
    if Letter.seen c = '\r' ∧ Letter.seen d = '\n' then d :: unifyLineEnds rest else c :: unifyLineEnds (d :: rest)
  | text => text

def normalize [DecidableEq γ] (code : List γ) : List γ := unindent (unifyLineEnds code)

end Highlight.Text
