import Highlight.Scan.Charset
import Highlight.Scan.Reader

/-! Lines of JSON. Strings, numbers, the three literal names and the punctuation marks are
recognised exactly; whatever else stands in a line becomes an error. No construct of JSON
goes on over the end of a line. -/

namespace Highlight.Scan.JsonLine

def isPunctuation (c : Char) : Bool := "\x7b\x7d[],:".toList.contains c

def isSimpleEscape (c : Char) : Bool := "\"\\/bfnrt".toList.contains c

/-- What follows the opening quote of a string, the closing quote included. A string is
incomplete if it ends with the line or with an escape that JSON does not have. -/
def stringTail : List Char → Tail
  | [] => ⟨Cut.none [], false⟩
  | '"' :: following => ⟨⟨['"'], following⟩, true⟩
  | ['\\'] => ⟨⟨['\\'], []⟩, false⟩
  | '\\' :: 'u' :: a :: b :: c :: d :: following =>
    if isHexDigit a && isHexDigit b && isHexDigit c && isHexDigit d then
      ((((((stringTail following).push d).push c).push b).push a).push 'u').push '\\'
    else ⟨⟨['\\', 'u'], a :: b :: c :: d :: following⟩, false⟩
  | '\\' :: c :: following =>
    if isSimpleEscape c then ((stringTail following).push c).push '\\'
    else ⟨⟨['\\', c], following⟩, false⟩
  | c :: following => (stringTail following).push c

theorem stringTail_covers (text : List Char) : (stringTail text).Covers text := by
  fun_induction stringTail text with
  | case1 => rfl
  | case2 => rfl
  | case3 => rfl
  | case4 _ _ _ _ _ _ ih => exact Tail.push_covers _ (Tail.push_covers _ (Tail.push_covers _
      (Tail.push_covers _ (Tail.push_covers _ (Tail.push_covers _ ih)))))
  | case5 => rfl
  | case6 _ _ _ _ ih => exact Tail.push_covers _ (Tail.push_covers _ ih)
  | case7 => rfl
  | case8 => rename_i ih; exact Tail.push_covers _ ih

def digits (text : List Char) : Tail :=
  let cut := Cut.run Char.isDigit text
  ⟨cut, !cut.taken.isEmpty⟩

def fraction : List Char → Tail
  | '.' :: following => (digits following).push '.'
  | text => ⟨Cut.none text, true⟩

def signedDigits : List Char → Tail
  | '+' :: following => (digits following).push '+'
  | '-' :: following => (digits following).push '-'
  | text => digits text

def exponent : List Char → Tail
  | 'e' :: following => (signedDigits following).push 'e'
  | 'E' :: following => (signedDigits following).push 'E'
  | text => ⟨Cut.none text, true⟩

/-- What follows the leading digit of a number. A leading zero admits no further digit. -/
def numberTail (leading : Char) (text : List Char) : Tail :=
  match leading, text with
  | '0', c :: following =>
    if c.isDigit then ⟨⟨[c], following⟩, false⟩
    else ((⟨Cut.none (c :: following), true⟩ : Tail).followedBy fraction).followedBy exponent
  | _, text => ((⟨Cut.run Char.isDigit text, true⟩ : Tail).followedBy fraction).followedBy exponent

def negativeTail : List Char → Tail
  | c :: following => if c.isDigit then (numberTail c following).push c else ⟨Cut.none (c :: following), false⟩
  | [] => ⟨Cut.none [], false⟩

theorem digits_covers (text : List Char) : (digits text).Covers text := Cut.run_covers _ _

theorem fraction_covers (text : List Char) : (fraction text).Covers text := by
  unfold fraction
  split
  · exact Tail.push_covers _ (digits_covers _)
  · rfl

theorem signedDigits_covers (text : List Char) : (signedDigits text).Covers text := by
  unfold signedDigits
  split
  · exact Tail.push_covers _ (digits_covers _)
  · exact Tail.push_covers _ (digits_covers _)
  · exact digits_covers _

theorem exponent_covers (text : List Char) : (exponent text).Covers text := by
  unfold exponent
  split
  · exact Tail.push_covers _ (signedDigits_covers _)
  · exact Tail.push_covers _ (signedDigits_covers _)
  · rfl

theorem numberTail_covers (leading : Char) (text : List Char) : (numberTail leading text).Covers text := by
  unfold numberTail
  split
  · split
    · rfl
    · exact Tail.followedBy_covers (Tail.followedBy_covers (Cut.none_covers _) fraction_covers) exponent_covers
  · exact Tail.followedBy_covers (Tail.followedBy_covers (Cut.run_covers _ _) fraction_covers) exponent_covers

theorem negativeTail_covers (text : List Char) : (negativeTail text).Covers text := by
  unfold negativeTail
  split
  · split
    · exact Tail.push_covers _ (numberTail_covers _ _)
    · rfl
  · rfl

def literals : List (List Char) := ["true".toList, "false".toList, "null".toList]

def ofTail (kind : TokenKind) (tail : Tail) : Reading := ⟨some (if tail.complete then kind else .error), tail.toCut, .neutral⟩

def read (c : Char) (following : List Char) : Reading :=
  if isSpace c then ⟨none, Cut.run isSpace following, .neutral⟩
  else if c == '"' then ofTail .string (stringTail following)
  else if isPunctuation c then ⟨some .operator, Cut.none following, .neutral⟩
  else if c == '-' then ofTail .number (negativeTail following)
  else if c.isDigit then ofTail .number (numberTail c following)
  else
    let body := Cut.run Char.isAlpha following
    ⟨some (if literals.contains (c :: body.taken) then .keyword else .error), body, .neutral⟩

theorem read_covers (c : Char) (following : List Char) : (read c following).body.Covers following := by
  unfold read
  split
  · exact Cut.run_covers _ _
  split
  · exact stringTail_covers _
  split
  · rfl
  split
  · exact negativeTail_covers _
  split
  · exact numberTail_covers _ _
  · exact Cut.run_covers _ _

def reader : Reader := ⟨read, read_covers⟩

def lexemes (line : List Char) : List Lexeme := (reader.lexemes line).1

end Highlight.Scan.JsonLine
