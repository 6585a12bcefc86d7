import Highlight.Notice
import Highlight.Text.Blank

/-! How languages are found: by a name, in any case and with blanks around it, or by the
extension of a file name. -/

namespace Highlight.Language

def aliases : List (String × Language) :=
  [("javascript", javascript), ("js", javascript), ("json", json), ("plaintext", text), ("text", text),
   ("txt", text), ("typescript", typescript), ("ts", typescript), ("", text)]

def extensions : List (String × Language) :=
  [(".cjs", javascript), (".js", javascript), (".json", json), (".jsx", javascript), (".mjs", javascript),
   (".ts", typescript), (".tsx", typescript), (".txt", text)]

/-- Letters outside ASCII keep their case: no name holds one, nor a letter one could become. -/
def lower (name : List Char) : List Char := name.map Char.toLower

/-- The language of a name. Nothing written is plain text; any other unlisted name is
reported. -/
def ofName (name : List CodePoint) : Language × List Notice :=
  match aliases.lookup (String.ofList (lower (Text.trim (Letter.chars name)))) with
  | some language => (language, [])
  | none => (unknown, [.unknownLanguage name])

def fileName (path : List Char) : List Char := (path.reverse.takeWhile (· != '/')).reverse

/-- The extension of a file name begins with its last dot. Dots that the name starts with do
not count. -/
def fileExtension (path : List Char) : List Char :=
  let stem := (fileName path).dropWhile (· == '.')
  if stem.contains '.' then '.' :: (stem.reverse.takeWhile (· != '.')).reverse else []

def ofFileName (path : String) : Language :=
  (extensions.lookup (String.ofList (lower (fileExtension path.toList)))).getD text

end Highlight.Language
