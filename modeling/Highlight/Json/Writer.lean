import Highlight.Json.Value
import Highlight.Number.Notation
import Highlight.Text.Quoted

/-! Writing JSON values. Files have one field or element a line, four spaces a level, and
only printable ASCII characters. Messages show a value in another way: names are capitalised,
strings stand in quotes, and a string that is shown by itself stands bare. Not every value can be
shown so: an integer may be too long, and values may be nested too deep. -/

namespace Highlight.Json

def jsonFloats : FloatNames := ⟨"NaN", "Infinity"⟩

def shownFloats : FloatNames := ⟨"nan", "inf"⟩

def hexUnit (unit : Nat) : List Char := '\\' :: 'u' :: Text.hexDigits 4 unit

def escapeChar (c : Char) : List Char :=
  let n := c.toNat
  if c = '"' then ['\\', '"']
  else if c = '\\' then ['\\', '\\']
  else if c = '\n' then ['\\', 'n']
  else if c = '\r' then ['\\', 'r']
  else if c = '\t' then ['\\', 't']
  else if n = 0x8 then ['\\', 'b']
  else if n = 0xc then ['\\', 'f']
  else if n < 0x20 then hexUnit n
  else if n < 0x7f then [c]
  else if n < 0x10000 then hexUnit n
  else hexUnit (0xd800 + (n - 0x10000) / 0x400) ++ hexUnit (0xdc00 + (n - 0x10000) % 0x400)

def escapePoint : CodePoint → List Char
  | .scalar c => escapeChar c
  | half => hexUnit half.value

def stringText (text : List CodePoint) : String := String.ofList ('"' :: text.flatMap escapePoint ++ ['"'])

def indent (level : Nat) : String := "\n" ++ String.ofList (List.replicate (4 * level) ' ')

/-- The items of an array or object between its brackets, one a line. -/
def block (opening closing : String) (level : Nat) (items : List String) : String :=
  if items.isEmpty then opening ++ closing
  else opening ++ indent (level + 1) ++ String.intercalate ("," ++ indent (level + 1)) items ++ indent level ++ closing

def render (level : Nat) : Json → String
  | null => "null"
  | bool value => if value then "true" else "false"
  | integer value => toString value
  | double value => floatText jsonFloats value
  | string value => stringText value
  | array items => block "[" "]" level (items.map (render (level + 1)))
  | object fields =>
    block "\x7b" "\x7d" level (fields.attach.map fun ⟨field, _⟩ => stringText field.1 ++ ": " ++ render (level + 1) field.2)
termination_by value => sizeOf value
decreasing_by
  all_goals simp_wf
  · have := List.sizeOf_lt_of_mem ‹_ ∈ items›
    omega
  · next member =>
      have := List.sizeOf_lt_of_mem member
      cases field
      simp at this ⊢
      omega

def toText (value : Json) : String := render 0 value

def shown : Json → String
  | null => "None"
  | bool value => if value then "True" else "False"
  | integer value => toString value
  | double value => floatText shownFloats value
  | string value => Text.quotedString value
  | array items => "[" ++ String.intercalate ", " (items.map shown) ++ "]"
  | object fields =>
    "\x7b" ++ String.intercalate ", " (fields.attach.map fun ⟨field, _⟩ => Text.quotedString field.1 ++ ": " ++ shown field.2) ++
      "\x7d"
termination_by value => sizeOf value
decreasing_by
  all_goals simp_wf
  · have := List.sizeOf_lt_of_mem ‹_ ∈ items›
    omega
  · next member =>
      have := List.sizeOf_lt_of_mem member
      cases field
      simp at this ⊢
      omega

/-- A value as messages show it, a string without quotes. -/
def display : Json → List CodePoint
  | string value => value
  | value => shown value

inductive Unshown
  | tooLong
  | tooDeep
deriving DecidableEq, Repr

/-- An integer that is not below this has more than 4300 digits and is not shown. -/
@[irreducible]
def shownBelow : Nat := Nat.pow 10 4300

/-- What keeps a value from being shown where there is room for so many levels of nesting in it. Of
several such things it is the first one. -/
def unshown? : Nat → Json → Option Unshown
  | _, integer value => if shownBelow ≤ value.natAbs then some .tooLong else none
  | 0, array items => if items.isEmpty then none else some .tooDeep
  | 0, object fields => if fields.isEmpty then none else some .tooDeep
  | room + 1, array items => items.findSome? (unshown? room)
  | room + 1, object fields => fields.findSome? fun field => unshown? room field.2
  | _, _ => none

theorem unshown?_integer {room n : Nat} (long : shownBelow ≤ n) : unshown? room (integer n) = some .tooLong := by
  cases room <;> exact if_pos long

end Highlight.Json
