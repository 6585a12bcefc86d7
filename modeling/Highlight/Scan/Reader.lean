import Highlight.Scan.Cut
import Highlight.Token

/-! Lines are scanned into lexemes: consecutive pieces, classified or blank, that join to
the line. A reader decides what stands at one place from the character there and the text
after it. It always takes that character, so the scan of a line ends. -/

namespace Highlight.Scan

/-- A piece of a line. A piece without a kind is blank and becomes no token. -/
structure Lexeme where
  kind : Option TokenKind
  text : List Char
deriving DecidableEq, Repr

structure Carry where
  inComment : Bool
  inTemplate : Bool
deriving DecidableEq, Repr

namespace Carry

def neutral : Carry := ⟨false, false⟩

def isOpen (carry : Carry) : Bool := carry.inComment || carry.inTemplate

end Carry

/-- What is read at one place: the kind, the cut of the text after the first character, and
what is still open there. -/
structure Reading where
  kind : Option TokenKind
  body : Cut
  carry : Carry := Carry.neutral

structure Reader where
  read : Char → List Char → Reading
  covers : ∀ c following, (read c following).body.Covers following

namespace Reader

def scan (reader : Reader) (carry : Carry) : List Char → List Lexeme × Carry
  | [] => ([], carry)
  | c :: following =>
    let reading := reader.read c following
    let (lexemes, last) := reader.scan reading.carry reading.body.rest
    (⟨reading.kind, c :: reading.body.taken⟩ :: lexemes, last)
termination_by text => text.length
decreasing_by
  have := (reader.covers c following).rest_length_le
  simp only [List.length_cons]
  omega

def lexemes (reader : Reader) (text : List Char) : List Lexeme × Carry := reader.scan Carry.neutral text

/-- Scanning loses nothing and adds nothing. -/
theorem scan_text (reader : Reader) (carry : Carry) (text : List Char) :
    ((reader.scan carry text).1.map Lexeme.text).flatten = text := by
  fun_induction Reader.scan reader carry text with
  | case1 => rfl
  | case2 carry c following reading lexemes last same ih =>
    have whole : reading.body.taken ++ reading.body.rest = following := reader.covers c following
    rw [same] at ih
    simp [ih, whole]

end Reader

/-- The tokens of consecutive lexemes, the first of which starts at `offset`. -/
def place (offset : Int) : List Lexeme → List Token
  | [] => []
  | ⟨some kind, text⟩ :: others => ⟨kind, text, offset⟩ :: place (offset + text.length) others
  | ⟨none, text⟩ :: others => place (offset + text.length) others

end Highlight.Scan
