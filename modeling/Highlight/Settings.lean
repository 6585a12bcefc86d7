import Highlight.Fade.Curve
import Highlight.Json.Reader
import Highlight.Language.Names
import Highlight.Number.Convert
import Highlight.Theme.Color
import Highlight.Theme.File
import Highlight.Theme.Palette

/-! The settings for showing code, and the file they are kept in. What is missing from a file
or makes no sense there keeps its default. -/

namespace Highlight

/-- A number that remembers whether it was written as an integer. -/
inductive Number
  | whole (value : Int)
  | real (value : Float)

def Number.toJson : Number → Json
  | whole value => .integer value
  | real value => .double value

structure Settings where
  mode : ColorMode := .dark
  language : Language := .javascript
  durationMs : Int := 600
  easing : String := "InOutCubic"
  fontSize : Option Number := none
  fallback : Option String := none

/-- Why settings could not be read: the text is not JSON, it holds no object, or a number in
it does not fit. -/
inductive SettingsError
  | notJson
  | notObject
  | tooLarge
deriving DecidableEq, Repr

namespace Settings

def modeOf (found : Json) : ColorMode × List Notice :=
  match ColorMode.ofTag? found.display with
  | some mode => (mode, [])
  | none => (.dark, [.unknownColorMode found])

def languageOf (found : Json) : Language × List Notice :=
  let (language, notices) := Language.ofName found.display
  (if language = .unknown then ({} : Settings).language else language, notices)

/-- The duration of a file in whole milliseconds; an infinite one is too large. Truth values
count as one and zero, and what is no duration leaves the default. -/
def durationOf (found : Json) : Except SettingsError Int :=
  let default := ({} : Settings).durationMs
  match found with
  | .integer n => .ok (if 0 ≤ n then n else default)
  | .bool flag => .ok (if flag then 1 else 0)
  | .double x =>
    if 0.0 ≤ x then
      match wholePart? x with
      | some n => .ok n
      | none => .error .tooLarge
    else .ok default
  | _ => .ok default

def easingOf (found : Json) : String × List Notice :=
  let default := ({} : Settings).easing
  match found with
  | .string text =>
    match Curve.named? text with
    | some name => (name, [])
    | none => (default, [.unknownEasing found default])
  | _ => (default, [.unknownEasing found default])

/-- The font size of a file. An integer without a double near it is too large, and what is no
size leaves the default. -/
def fontSizeOf (found : Json) : Except SettingsError (Option Number) :=
  match found with
  | .integer n =>
    if 0 < n then
      match doubleOf? n with
      | some x => .ok (some (.real x))
      | none => .error .tooLarge
    else .ok none
  | .bool flag => .ok (if flag then some (.real 1.0) else none)
  | .double x => .ok (if 0.0 < x then some (.real x) else none)
  | _ => .ok none

def fallbackOf (found : Json) (reader : ColorReader := .hex) : Option String × List Notice :=
  match found with
  | .null => (none, [])
  | other =>
    match Theme.colorOf? other reader with
    | some color => (some color, [])
    | none => (none, [.invalidFallback other])

def field (fields : List (List CodePoint × Json)) (name : String) (default : Json) : Json :=
  (Json.fieldIn? fields name).getD default

/-- Reads settings from the fields of an object, one after the other. What was reported
before an error is kept beside it. -/
def ofFields (fields : List (List CodePoint × Json)) (reader : ColorReader := .hex) :
    Except SettingsError Settings × List Notice :=
  let (mode, modeNotices) := modeOf (field fields "theme" (.string "DARK"))
  let (language, languageNotices) := languageOf (field fields "language" (.string "javascript"))
  let early := modeNotices ++ languageNotices
  match durationOf (field fields "transitionDurationMs" .null) with
  | .error error => (.error error, early)
  | .ok duration =>
    let (easing, easingNotices) := easingOf (field fields "easing" (.string ({} : Settings).easing))
    match fontSizeOf (field fields "fontSize" .null) with
    | .error error => (.error error, early ++ easingNotices)
    | .ok fontSize =>
      let (fallback, fallbackNotices) := fallbackOf (field fields "fallbackColor" .null) reader
      (.ok ⟨mode, language, duration, easing, fontSize, fallback⟩, early ++ easingNotices ++ fallbackNotices)

def ofText (text : List Char) (reader : ColorReader := .hex) : Except SettingsError Settings × List Notice :=
  match Json.ofText? text with
  | none => (.error .notJson, [])
  | some (.object fields) => ofFields fields reader
  | some _ => (.error .notObject, [])

def toJson (settings : Settings) : Json :=
  .object [("theme", .string settings.mode.tag), ("language", .string settings.language.name),
    ("transitionDurationMs", .integer settings.durationMs), ("easing", .string settings.easing),
    ("fontSize", (settings.fontSize.map Number.toJson).getD .null),
    ("fallbackColor", Theme.colorJson settings.fallback)]

def toText (settings : Settings) : String := settings.toJson.toText

end Settings

end Highlight
