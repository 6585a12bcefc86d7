import Highlight.Entries
import Highlight.Json.Value

/-! Reading JSON texts. Beyond the standard grammar the names `NaN`, `Infinity` and
`-Infinity` are doubles. A number with a point or an exponent is a double, correctly rounded;
any other is an integer of any size. The escapes of the two halves of a pair that stand side by side
mean one character. Of two fields with one name the later value counts. -/

namespace Highlight.Json

def isSpace (c : Char) : Bool := c == ' ' || c == '\t' || c == '\n' || c == '\r'

def skipSpace (text : List Char) : List Char := text.dropWhile isSpace

def hexValue? (c : Char) : Option Nat :=
  if c.isDigit then some (c.toNat - 48)
  else if 'a' ≤ c && c ≤ 'f' then some (c.toNat - 87)
  else if 'A' ≤ c && c ≤ 'F' then some (c.toNat - 55)
  else none

def hexQuad? (a b c d : Char) : Option Nat := do
  some (((← hexValue? a) * 16 + (← hexValue? b)) * 256 + ((← hexValue? c) * 16 + (← hexValue? d)))

def isHighSurrogate (unit : Nat) : Bool := 0xd800 ≤ unit && unit < 0xdc00

def isLowSurrogate (unit : Nat) : Bool := 0xdc00 ≤ unit && unit < 0xe000

/-- The code point of a UTF-16 unit that stands by itself. -/
def unitPoint (unit : Nat) : CodePoint :=
  if isHighSurrogate unit then .high (Fin.ofNat 0x400 (unit - 0xd800))
  else if isLowSurrogate unit then .low (Fin.ofNat 0x400 (unit - 0xdc00))
  else .scalar (Char.ofNat unit)

def pairChar (high low : Nat) : Char := Char.ofNat (0x10000 + (high - 0xd800) * 0x400 + (low - 0xdc00))

def simpleEscape? (c : Char) : Option Char :=
  match c with
  | '"' => some '"'
  | '\\' => some '\\'
  | '/' => some '/'
  | 'b' => some '\x08'
  | 'f' => some '\x0c'
  | 'n' => some '\n'
  | 'r' => some '\r'
  | 't' => some '\t'
  | _ => none

/-- The text of a string whose opening quote is read, and what follows it. -/
def stringBody? : List Char → Option (List CodePoint × List Char)
  | [] => none
  | '"' :: rest => some ([], rest)
  | '\\' :: 'u' :: a :: b :: c :: d :: '\\' :: 'u' :: e :: f :: g :: h :: rest => do
    let unit ← hexQuad? a b c d
    match hexQuad? e f g h with
    | some low =>
      if isHighSurrogate unit && isLowSurrogate low then
        let (body, after) ← stringBody? rest
        some (.scalar (pairChar unit low) :: body, after)
      else
        let (body, after) ← stringBody? ('\\' :: 'u' :: e :: f :: g :: h :: rest)
        some (unitPoint unit :: body, after)
    | none => none
  | '\\' :: 'u' :: a :: b :: c :: d :: rest => do
    let unit ← hexQuad? a b c d
    let (body, after) ← stringBody? rest
    some (unitPoint unit :: body, after)
  | '\\' :: c :: rest => do
    let char ← simpleEscape? c
    let (body, after) ← stringBody? rest
    some (.scalar char :: body, after)
  | c :: rest =>
    if c.toNat < 0x20 || c = '\\' then none
    else (stringBody? rest).map fun (body, after) => (.scalar c :: body, after)

def digitsValue (digits : List Char) : Nat := digits.foldl (fun n c => 10 * n + (c.toNat - 48)) 0

/-- The double nearest to `digits * 10 ^ exponent`. Magnitudes that no double has are
settled without computing the power. -/
def nearestFloat (digits : List Char) (exponent : Int) : Float :=
  let significant := digits.dropWhile (· == '0')
  let magnitude := (significant.length : Int) + exponent
  if significant.isEmpty || magnitude < -400 then 0.0
  else if 400 < magnitude then 1.0 / 0.0
  else Float.ofScientific (digitsValue significant) (exponent < 0) exponent.natAbs

def fractionDigits (text : List Char) : List Char × List Char :=
  match text with
  | '.' :: following =>
    match following.takeWhile Char.isDigit with
    | [] => ([], text)
    | digits => (digits, following.dropWhile Char.isDigit)
  | _ => ([], text)

def exponentSign : List Char → Bool × List Char
  | '-' :: digits => (true, digits)
  | '+' :: digits => (false, digits)
  | digits => (false, digits)

def exponentPart? (text : List Char) : Option (Int × List Char) :=
  match text with
  | mark :: following =>
    if mark = 'e' || mark = 'E' then
      let (negative, digitsText) := exponentSign following
      match digitsText.takeWhile Char.isDigit with
      | [] => none
      | digits =>
        let size : Int := digitsValue digits
        some (if negative then -size else size, digitsText.dropWhile Char.isDigit)
    else none
  | [] => none

/-- The digits a number begins with. A zero stands by itself. -/
def wholeDigits (text : List Char) : List Char :=
  match text with
  | '0' :: _ => ['0']
  | _ => text.takeWhile Char.isDigit

def magnitude? (negative : Bool) (text : List Char) : Option (Json × List Char) :=
  let whole := wholeDigits text
  if whole.isEmpty then none
  else
    let (fraction, afterFraction) := fractionDigits (text.drop whole.length)
    match exponentPart? afterFraction with
    | none =>
      if fraction.isEmpty then
        let size : Int := digitsValue whole
        some (integer (if negative then -size else size), afterFraction)
      else
        let size := nearestFloat (whole ++ fraction) (-(fraction.length : Int))
        some (double (if negative then -size else size), afterFraction)
    | some (exponent, rest) =>
      let size := nearestFloat (whole ++ fraction) (exponent - fraction.length)
      some (double (if negative then -size else size), rest)

def stripText? (word text : List Char) : Option (List Char) :=
  if word.isPrefixOf text then some (text.drop word.length) else none

def names : List (List Char × Json) :=
  [("null".toList, null), ("true".toList, bool true), ("false".toList, bool false),
   ("NaN".toList, double (0.0 / 0.0)), ("Infinity".toList, double (1.0 / 0.0)),
   ("-Infinity".toList, double (-1.0 / 0.0))]

def scalar? (text : List Char) : Option (Json × List Char) :=
  match names.findSome? fun (word, value) => (stripText? word text).map fun rest => (value, rest) with
  | some found => some found
  | none =>
    match text with
    | '-' :: following => magnitude? true following
    | _ => magnitude? false text

mutual

/-- A value at the very front of the text. The fuel bounds the nesting. -/
def value? : Nat → List Char → Option (Json × List Char)
  | 0, _ => none
  | fuel + 1, text =>
    match text with
    | '"' :: rest => (stringBody? rest).map fun (body, after) => (string body, after)
    | '[' :: rest =>
      match skipSpace rest with
      | ']' :: after => some (array [], after)
      | inside => (elements? fuel inside).map fun (items, after) => (array items, after)
    | '\x7b' :: rest =>
      match skipSpace rest with
      | '\x7d' :: after => some (object [], after)
      | inside => (members? fuel [] inside).map fun (fields, after) => (object fields, after)
    | _ => scalar? text

def elements? : Nat → List Char → Option (List Json × List Char)
  | 0, _ => none
  | fuel + 1, text => do
    let (first, rest) ← value? fuel text
    match skipSpace rest with
    | ']' :: after => some ([first], after)
    | ',' :: more =>
      let (others, after) ← elements? fuel (skipSpace more)
      some (first :: others, after)
    | _ => none

def members? : Nat → List (List CodePoint × Json) → List Char → Option (List (List CodePoint × Json) × List Char)
  | 0, _, _ => none
  | fuel + 1, fields, text =>
    match text with
    | '"' :: rest => do
      let (name, afterName) ← stringBody? rest
      match skipSpace afterName with
      | ':' :: afterColon =>
        let (value, afterValue) ← value? fuel (skipSpace afterColon)
        let known := Entries.put name value fields
        match skipSpace afterValue with
        | '\x7d' :: after => some (known, after)
        | ',' :: more => members? fuel known (skipSpace more)
        | _ => none
      | _ => none
    | _ => none

end

/-- Reads a whole text as one value. Every level of nesting takes a character, so the fuel
is never short. -/
def ofText? (text : List Char) : Option Json :=
  match value? (2 * text.length + 2) (skipSpace text) with
  | some (value, rest) => if (skipSpace rest).isEmpty then some value else none
  | none => none

end Highlight.Json
