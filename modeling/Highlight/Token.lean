/-! Classified pieces of a source text. Every kind of token reports a class list, its most
specific class first, and themes give colours to class lists. -/

namespace Highlight

inductive TokenKind
  | comment | element | error | functionOrMethod | identifier | jsonKey | keyword | number
  | operator | preprocessor | regexp | string | text | type
deriving DecidableEq, Repr

namespace TokenKind

def all : List TokenKind :=
  [comment, element, error, functionOrMethod, identifier, jsonKey, keyword, number,
   operator, preprocessor, regexp, string, text, type]

/-- The position of a kind in the list of all kinds, counted from one. -/
def rank (kind : TokenKind) : Nat := all.idxOf kind + 1

def tag : TokenKind → String
  | comment => "COMMENT"
  | element => "ELEMENT"
  | error => "ERROR"
  | functionOrMethod => "FUNCTION_OR_METHOD"
  | identifier => "IDENTIFIER"
  | jsonKey => "JSON_KEY"
  | keyword => "KEYWORD"
  | number => "NUMBER"
  | operator => "OPERATOR"
  | preprocessor => "PREPROCESSOR"
  | regexp => "REGEXP"
  | string => "STRING"
  | text => "TEXT"
  | type => "TYPE"

def ofTag? (tag : String) : Option TokenKind := all.find? fun kind => kind.tag == tag

def classList : TokenKind → String
  | comment => "tok-comment"
  | element => "tok-element tok-identifier"
  | error => "tok-error"
  | functionOrMethod => "tok-function tok-identifier"
  | identifier => "tok-identifier"
  | jsonKey => "tok-json-key tok-string"
  | keyword => "tok-keyword"
  | number => "tok-number"
  | operator => "tok-operator"
  | preprocessor => "tok-preprocessor"
  | regexp => "tok-regexp"
  | string => "tok-string"
  | text => "tok-text"
  | type => "tok-type"

theorem mem_all (kind : TokenKind) : kind ∈ all := by cases kind <;> decide

theorem classList_ne_empty (kind : TokenKind) : kind.classList ≠ "" := by cases kind <;> decide

end TokenKind

structure Token where
  kind : TokenKind
  text : List Char
  start : Int
deriving DecidableEq, Repr

namespace Token

def stop (token : Token) : Int := token.start + token.text.length

def shift (offset : Int) (token : Token) : Token := { token with start := token.start + offset }

theorem shift_shift (token : Token) (first second : Int) : (token.shift first).shift second = token.shift (first + second) := by
  simp only [shift, Int.add_assoc]

end Token

end Highlight
