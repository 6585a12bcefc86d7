import Highlight.Scan.Charset
import Highlight.Scan.Reader
import Highlight.Scan.Vocabulary

/-! Lines of JavaScript and TypeScript. Block comments and template literals may stay open
at the end of a line; the next line then begins with what closes them, and code is read
only after that. -/

namespace Highlight.Scan.ScriptLine

def commentTail : List Char → Tail
  | [] => ⟨Cut.none [], false⟩
  | '*' :: '/' :: following => ⟨⟨['*', '/'], following⟩, true⟩
  | c :: following => (commentTail following).push c

/-- What belongs to a quoted literal in a text that begins inside it. A backslash takes the
next character along, whatever it is. -/
def quotedTail (quote : Char) : List Char → Tail
  | [] => ⟨Cut.none [], false⟩
  | c :: following =>
    if c = quote then ⟨⟨[c], following⟩, true⟩
    else if c = '\\' then
      match following with
      | [] => ⟨⟨[c], []⟩, false⟩
      | d :: others => ((quotedTail quote others).push d).push c
    else (quotedTail quote following).push c

/-- What follows the opening slash of a regular expression up to the closing one. A slash in
a bracket class or after a backslash does not close it. -/
def regexTail (escaped inClass : Bool) : List Char → Tail
  | [] => ⟨Cut.none [], false⟩
  | c :: following =>
    if escaped then (regexTail false inClass following).push c
    else if c = '\\' then (regexTail true inClass following).push c
    else if c = '[' then (regexTail false true following).push c
    else if c = ']' then (regexTail false false following).push c
    else if c = '/' && !inClass then ⟨⟨[c], following⟩, true⟩
    else (regexTail false inClass following).push c

theorem commentTail_covers (text : List Char) : (commentTail text).Covers text := by
  fun_induction commentTail text with
  | case1 => rfl
  | case2 => rfl
  | case3 _ _ _ ih => exact Tail.push_covers _ ih

theorem quotedTail_covers (quote : Char) (text : List Char) : (quotedTail quote text).Covers text := by
  fun_induction quotedTail quote text with
  | case1 => rfl
  | case2 => rfl
  | case3 => rfl
  | case4 => rename_i ih; exact Tail.push_covers _ (Tail.push_covers _ ih)
  | case5 => rename_i ih; exact Tail.push_covers _ ih

theorem regexTail_covers (escaped inClass : Bool) (text : List Char) : (regexTail escaped inClass text).Covers text := by
  fun_induction regexTail escaped inClass text with
  | case1 => rfl
  | case2 _ _ _ ih => exact Tail.push_covers _ ih
  | case3 => rename_i ih; exact Tail.push_covers _ ih
  | case4 => rename_i ih; exact Tail.push_covers _ ih
  | case5 => rename_i ih; exact Tail.push_covers _ ih
  | case6 => rfl
  | case7 => rename_i ih; exact Tail.push_covers _ ih

def bigMark : List Char → Cut
  | 'n' :: following => ⟨['n'], following⟩
  | text => Cut.none text

def fraction : List Char → Cut
  | '.' :: following => (Cut.run Char.isDigit following).push '.'
  | text => Cut.none text

def signedDigits : List Char → Cut
  | '+' :: following => (Cut.run Char.isDigit following).push '+'
  | '-' :: following => (Cut.run Char.isDigit following).push '-'
  | text => Cut.run Char.isDigit text

def exponent : List Char → Cut
  | 'e' :: following => (signedDigits following).push 'e'
  | 'E' :: following => (signedDigits following).push 'E'
  | text => Cut.none text

def radixDigit? (mark : Char) : Option (Char → Bool) :=
  if mark = 'x' || mark = 'X' then some isHexDigit
  else if mark = 'b' || mark = 'B' then some isBinaryDigit
  else if mark = 'o' || mark = 'O' then some isOctalDigit
  else none

/-- Digits of one radix, with separators anywhere among them. -/
def separated (digit : Char → Bool) (text : List Char) : Cut := Cut.run (fun c => digit c || c == '_') text

def decimalTail (first : Char) (text : List Char) : Cut :=
  let whole := if first = '.' then Cut.run Char.isDigit text else (separated Char.isDigit text).followedBy fraction
  (whole.followedBy exponent).followedBy bigMark

def numberTail (first : Char) (text : List Char) : Cut :=
  match text with
  | mark :: following =>
    match if first = '0' then radixDigit? mark else none with
    | some digit => ((separated digit following).push mark).followedBy bigMark
    | none => decimalTail first (mark :: following)
  | [] => Cut.none []

theorem bigMark_covers (text : List Char) : (bigMark text).Covers text := by
  unfold bigMark
  split <;> rfl

theorem fraction_covers (text : List Char) : (fraction text).Covers text := by
  unfold fraction
  split
  · exact Cut.push_covers _ (Cut.run_covers _ _)
  · rfl

theorem signedDigits_covers (text : List Char) : (signedDigits text).Covers text := by
  unfold signedDigits
  split
  · exact Cut.push_covers _ (Cut.run_covers _ _)
  · exact Cut.push_covers _ (Cut.run_covers _ _)
  · exact Cut.run_covers _ _

theorem exponent_covers (text : List Char) : (exponent text).Covers text := by
  unfold exponent
  split
  · exact Cut.push_covers _ (signedDigits_covers _)
  · exact Cut.push_covers _ (signedDigits_covers _)
  · rfl

theorem decimalTail_covers (first : Char) (text : List Char) : (decimalTail first text).Covers text := by
  refine Cut.followedBy_covers (Cut.followedBy_covers ?_ exponent_covers) bigMark_covers
  split
  · exact Cut.run_covers _ _
  · exact Cut.followedBy_covers (Cut.run_covers _ _) fraction_covers

theorem numberTail_covers (first : Char) (text : List Char) : (numberTail first text).Covers text := by
  unfold numberTail
  split
  · split
    · exact Cut.followedBy_covers (Cut.push_covers _ (Cut.run_covers _ _)) bigMark_covers
    · exact decimalTail_covers _ _
  · rfl

def name (words : Vocabulary) (first : Char) (following : List Char) : Reading :=
  let body := Cut.run isNamePart following
  ⟨some (words.kindOf (first :: body.taken)), body, .neutral⟩

def operator (first : Char) (following : List Char) : Reading := scriptOperators.read first following

/-- A quoted literal. Only a template literal can go on in the next line. -/
def quoted (quote : Char) (following : List Char) : Reading :=
  let tail := quotedTail quote following
  ⟨some .string, tail.toCut, ⟨false, quote == '\x60' && !tail.complete⟩⟩

def isRegexFlag (c : Char) : Bool := "dgimsuvy".toList.contains c

/-- A comment, an operator or a regular expression; a slash that none of these explains
divides. -/
def slash (following : List Char) : Reading :=
  match following with
  | '=' :: _ => operator '/' following
  | '/' :: _ => ⟨some .comment, Cut.all following, .neutral⟩
  | '*' :: inside =>
    let tail := commentTail inside
    ⟨some .comment, tail.toCut.push '*', ⟨!tail.complete, false⟩⟩
  | _ =>
    let tail := regexTail false false following
    if tail.complete then ⟨some .regexp, tail.toCut.followedBy (Cut.run isRegexFlag), .neutral⟩
    else ⟨some .operator, Cut.none following, .neutral⟩

/-- A private member name begins with a letter after its hash. -/
def hash (following : List Char) : Reading :=
  match following with
  | c :: others =>
    if c.isAlpha then ⟨some .identifier, (Cut.run isNamePart others).push c, .neutral⟩
    else ⟨some .error, Cut.none following, .neutral⟩
  | [] => ⟨some .error, Cut.none following, .neutral⟩

def beginsWithDigit : List Char → Bool
  | c :: _ => c.isDigit
  | [] => false

def read (words : Vocabulary) (c : Char) (following : List Char) : Reading :=
  if isSpace c then ⟨none, Cut.run isSpace following, .neutral⟩
  else if isNameStart c then name words c following
  else if c.isDigit then ⟨some .number, numberTail c following, .neutral⟩
  else if c = '"' || c = '\x27' || c = '\x60' then quoted c following
  else if c = '.' && beginsWithDigit following then ⟨some .number, numberTail c following, .neutral⟩
  else if c = '/' then slash following
  else if c = '#' then hash following
  else operator c following

theorem operator_covers (first : Char) (following : List Char) : (operator first following).body.Covers following :=
  scriptOperators.read_covers first following

theorem slash_covers (following : List Char) : (slash following).body.Covers following := by
  unfold slash
  split
  · exact operator_covers _ _
  · exact Cut.all_covers _
  · exact Cut.push_covers _ (commentTail_covers _)
  · dsimp only
    split
    · exact Cut.followedBy_covers (regexTail_covers _ _ _) (Cut.run_covers _)
    · rfl

theorem hash_covers (following : List Char) : (hash following).body.Covers following := by
  unfold hash
  split
  · split
    · exact Cut.push_covers _ (Cut.run_covers _ _)
    · rfl
  · rfl

theorem read_covers (words : Vocabulary) (c : Char) (following : List Char) :
    (read words c following).body.Covers following := by
  unfold read
  split
  · exact Cut.run_covers _ _
  split
  · exact Cut.run_covers _ _
  split
  · exact numberTail_covers _ _
  split
  · exact quotedTail_covers _ _
  split
  · exact numberTail_covers _ _
  split
  · exact slash_covers _
  split
  · exact hash_covers _
  · exact operator_covers _ _

def reader (words : Vocabulary) : Reader := ⟨read words, read_covers words⟩

/-- Reads code. Where a line starts, a hash and an exclamation mark make all of it a hashbang. -/
def code (words : Vocabulary) (atStart : Bool) (text : List Char) : List Lexeme × Carry :=
  match atStart, text with
  | true, '#' :: '!' :: _ => ([⟨some .preprocessor, text⟩], .neutral)
  | _, _ => (reader words).lexemes text

/-- Reads what a construct left open takes of a line, then the code after it if nothing is
open any more. -/
def resume (words : Vocabulary) (kind : TokenKind) (tail : Tail) (carry : Carry) : List Lexeme × Carry :=
  if carry.isOpen then ([⟨some kind, tail.taken⟩], carry)
  else
    let (lexemes, last) := code words false tail.rest
    (⟨some kind, tail.taken⟩ :: lexemes, last)

/-- Reads a line that begins with what `carry` left open. A comment is closed before a
template literal. -/
def lexemes (words : Vocabulary) (atStart : Bool) (carry : Carry) (line : List Char) : List Lexeme × Carry :=
  if carry.inComment then
    let tail := commentTail line
    resume words .comment tail ⟨!tail.complete, carry.inTemplate⟩
  else if carry.inTemplate then
    let tail := quotedTail '\x60' line
    resume words .string tail ⟨false, !tail.complete⟩
  else code words atStart line

end Highlight.Scan.ScriptLine
