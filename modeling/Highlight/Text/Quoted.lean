import Highlight.Text.Letter
import Highlight.Text.Printable

/-! Texts shown in quotes. Single quotes are used unless the text holds one and holds no
double quote. The quote in use and the backslash are escaped, and what cannot be printed is spelled
out: line feeds, carriage returns and tabs by a letter, all else by its code point. -/

namespace Highlight.Text

def hexDigits (width n : Nat) : List Char :=
  let digits := Nat.toDigits 16 n
  List.replicate (width - digits.length) '0' ++ digits

def hexEscape (n : Nat) : List Char :=
  if n < 0x100 then '\\' :: 'x' :: hexDigits 2 n
  else if n < 0x10000 then '\\' :: 'u' :: hexDigits 4 n
  else '\\' :: 'U' :: hexDigits 8 n

def escapeQuoted (quote : Char) : CodePoint → List Char
  | .scalar c =>
    if c = quote || c = '\\' then ['\\', c]
    else if c = '\n' then ['\\', 'n']
    else if c = '\r' then ['\\', 'r']
    else if c = '\t' then ['\\', 't']
    else if isPrintable c then [c]
    else hexEscape c.toNat
  | half => hexEscape half.value

def quoteFor (text : List CodePoint) : Char :=
  if text.contains (.scalar '\x27') && !text.contains (.scalar '"') then '"' else '\x27'

def quoted (text : List CodePoint) : List Char :=
  let quote := quoteFor text
  quote :: text.flatMap (escapeQuoted quote) ++ [quote]

def quotedString (text : List CodePoint) : String := String.ofList (quoted text)

end Highlight.Text
