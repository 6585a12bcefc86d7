import Highlight.Json.Reader
import Highlight.Theme.Basic
import Highlight.Theme.Color
import Highlight.Theme.Error

/-! Themes as JSON objects with a name, a fallback colour and rules. A theme is checked when
it is read: it must have a name, and every colour must be valid. What is written is not
checked again. -/

namespace Highlight.Theme

/-- The normal form of a colour in a settings file. Only a string can be one. -/
def colorOf? (value : Json) (reader : ColorReader := .hex) : Option String :=
  match value with
  | .string text => reader.normalize? text
  | _ => none

def nameOf? (fields : List (List CodePoint × Json)) : Option (List CodePoint) :=
  match Json.fieldIn? fields "name" with
  | some (.string name) => if name = [] then none else some name
  | _ => none

/-- Why a theme could not be read: the text is not JSON, the value has no fields, they do not make a
theme, or one of them cannot even be shown. -/
inductive ReadError
  | notJson
  | noFields
  | invalid (error : ThemeError)
  | unshown (why : Json.Unshown)

/-- The normal form of a colour in a theme file. Whatever stands there is read as it is displayed. -/
def displayedColor (room : Nat) (reader : ColorReader) (value : Json) (error : ThemeError) : Except ReadError String :=
  match value.unshown? room with
  | some why => .error (.unshown why)
  | none =>
    match reader.normalize? value.display with
    | some color => .ok color
    | none => .error (.invalid error)

def rulesOf (room : Nat) (reader : ColorReader) (theme : List CodePoint) (rules : Rules) :
    List (List CodePoint × Json) → Except ReadError Rules
  | [] => .ok rules
  | (label, value) :: others => do
    let color ← displayedColor room reader value (.invalidColor theme label value)
    rulesOf room reader theme (rules.set label (some color)) others

/-- Reads a theme from the fields of an object. The fallback colour and the rules may be
missing. Values are shown where there is room for so many levels of nesting in them. -/
def ofFields (room : Nat) (fields : List (List CodePoint × Json)) (reader : ColorReader := .hex) : Except ReadError Theme :=
  match nameOf? fields with
  | none => .error (.invalid .unnamed)
  | some name => do
    let given := (Json.fieldIn? fields "fallbackColor").getD (.string defaultFallback)
    let fallback ← displayedColor room reader given (.invalidFallback name given)
    match (Json.fieldIn? fields "rules").getD (.object []) with
    | .object entries => do
      let rules ← rulesOf room reader name {} entries
      .ok ⟨name, some rules, some fallback⟩
    | _ => .error (.invalid (.rulesNotObject name))

def ofJson (room : Nat) (value : Json) (reader : ColorReader := .hex) : Except ReadError Theme :=
  match value with
  | .object fields => ofFields room fields reader
  | _ => .error .noFields

/-- Reads the text of a file. An integer with more digits than are shown is not read either; no text
is nested deeper than it is long. -/
def ofText (room : Nat) (file : String) (text : List Char) (reader : ColorReader := .hex) : Except ReadError Theme :=
  match Json.ofText? text with
  | none => .error .notJson
  | some value =>
    match value.unshown? text.length, value with
    | some why, _ => .error (.unshown why)
    | none, .object fields => ofFields room fields reader
    | none, _ => .error (.invalid (.notObject file))

def colorJson (color : Option String) : Json :=
  match color with
  | some name => .string name
  | none => .null

def toJson (theme : Theme) : Json :=
  .object [("name", .string theme.name), ("fallbackColor", colorJson theme.fallback),
    ("rules", .object ((theme.rules.getD {}).entries.map fun (label, color) => (label, colorJson color)))]

def toText (theme : Theme) : String := theme.toJson.toText

end Highlight.Theme
