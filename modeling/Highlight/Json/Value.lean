import Highlight.Text.Letter

/-! JSON values. Integers are unbounded and kept apart from doubles, strings may hold halves of
pairs, and the fields of an object keep the order in which their names first came. -/

namespace Highlight

inductive Json
  | null
  | bool (value : Bool)
  | integer (value : Int)
  | double (value : Float)
  | string (value : List CodePoint)
  | array (items : List Json)
  | object (fields : List (List CodePoint × Json))
deriving Inhabited

namespace Json

def fieldIn? (fields : List (List CodePoint × Json)) (name : String) : Option Json := fields.lookup (name : List CodePoint)

def field? (value : Json) (name : String) : Option Json :=
  match value with
  | object fields => fieldIn? fields name
  | _ => none

end Json

end Highlight
