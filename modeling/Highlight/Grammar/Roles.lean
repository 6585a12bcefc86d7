import Highlight.Token

/-! Roles that tokens play beside their neighbours: called and accessed names in scripts,
keys in JSON. Only kinds change. A neighbour that decides about a role stands on the same
line, except that a member access counts for the first token of a later line. -/

namespace Highlight

namespace Token

def isOperator (token : Token) (text : String) : Bool := token.kind == .operator && token.text == text.toList

def isAccess (token : Token) : Bool := token.isOperator "." || token.isOperator "?."

def isSelf (token : Token) : Bool := token.kind == .keyword && token.text == "this".toList

/-- The kind of a script token. A name before an opening parenthesis is called, and any other
identifier after a member access is an element. -/
def scriptRole (token : Token) (afterAccess : Bool) (next : Option Token) : TokenKind :=
  if (token.kind == .identifier || token.isSelf) && next.any (·.isOperator "(") then .functionOrMethod
  else if token.kind == .identifier && afterAccess then .element
  else token.kind

/-- The kind of a JSON token. A string before a colon is a key. -/
def jsonRole (token : Token) (next : Option Token) : TokenKind :=
  if token.kind == .string && next.any (·.isOperator ":") then .jsonKey else token.kind

end Token

/-- The tokens of a script line with their roles; `afterAccess` tells whether a member access
came right before the line. -/
def scriptRoles (afterAccess : Bool) : List Token → List Token
  | [] => []
  | token :: others =>
    { token with kind := token.scriptRole afterAccess others.head? } :: scriptRoles token.isAccess others

def endsInAccess (before : Bool) (tokens : List Token) : Bool :=
  match tokens.getLast? with
  | some token => token.isAccess
  | none => before

theorem endsInAccess_cons (before : Bool) (token : Token) (others : List Token) :
    endsInAccess before (token :: others) = endsInAccess token.isAccess others := by
  rw [endsInAccess, endsInAccess, List.getLast?_cons]
  cases others.getLast? <;> rfl

def jsonRoles : List Token → List Token
  | [] => []
  | token :: others => { token with kind := token.jsonRole others.head? } :: jsonRoles others

end Highlight
