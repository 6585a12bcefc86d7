import Highlight.Scan.Operator
import Highlight.Token

/-! The reserved words, type names and operators of JavaScript and TypeScript. -/

namespace Highlight.Scan

structure Vocabulary where
  keywords : List String
  types : List String

namespace Vocabulary

def javascriptKeywords : List String :=
  ["async", "await", "break", "case", "catch", "class", "const", "continue", "debugger", "default",
   "delete", "do", "else", "export", "extends", "false", "finally", "for", "from", "function", "if",
   "import", "in", "instanceof", "let", "new", "null", "of", "return", "static", "super", "switch",
   "this", "throw", "true", "try", "typeof", "undefined", "var", "void", "while", "with", "yield"]

def typescriptKeywords : List String :=
  ["abstract", "as", "declare", "enum", "implements", "interface", "keyof", "namespace", "private",
   "protected", "public", "readonly", "satisfies", "type"]

def typescriptTypes : List String :=
  ["any", "bigint", "boolean", "never", "number", "object", "string", "symbol", "unknown"]

def javascript : Vocabulary := ⟨javascriptKeywords, []⟩

def typescript : Vocabulary := ⟨javascriptKeywords ++ typescriptKeywords, typescriptTypes⟩

/-- Keywords come before type names, and any other word is an identifier. -/
def kindOf (words : Vocabulary) (name : List Char) : TokenKind :=
  let word := String.ofList name
  if words.keywords.contains word then .keyword
  else if words.types.contains word then .type
  else .identifier

end Vocabulary

def scriptOperators : OperatorTable :=
  OperatorTable.ofList ([
    ">>>=", ">>=", "<<=", "&&=", "||=", "??=", "**=",
    "!==", "===", ">>>", "...", "!=", "==", "+=", "-=",
    "*=", "/=", "%=", "&=", "|=", "^=", "<=", ">=", "&&",
    "||", "??", "?.", "<<", ">>", "**", "++", "--", "=>",
    "+", "-", "*", "/", "%", "&", "~", "!", "|", "^", "=",
    "<", ">", "(", ")", "\x7b", "\x7d", "[", "]", ";", ":", "?",
    ".", ","].map String.toList)

end Highlight.Scan
