/-! The languages a source text can be in. `unknown` stands for a language that has no name
here; every other language has a canonical name in lower case. -/

namespace Highlight

inductive Language
  | unknown | javascript | json | text | typescript
deriving DecidableEq, Repr

namespace Language

def all : List Language := [unknown, javascript, json, text, typescript]

def code : Language → Int
  | unknown => -1
  | javascript => 0
  | json => 1
  | text => 2
  | typescript => 3

def tag : Language → String
  | unknown => "UNKNOWN"
  | javascript => "JAVASCRIPT"
  | json => "JSON"
  | text => "TEXT"
  | typescript => "TYPESCRIPT"

def ofTag? (tag : String) : Option Language := all.find? fun language => language.tag == tag

def name : Language → String
  | unknown => ""
  | javascript => "javascript"
  | json => "json"
  | text => "plaintext"
  | typescript => "typescript"

theorem mem_all (language : Language) : language ∈ all := by cases language <;> decide

end Language

end Highlight
