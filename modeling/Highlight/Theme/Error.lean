import Highlight.Json.Writer

/-! Why a theme cannot be used. A message says which theme and which of its rules is meant,
as far as they have names. -/

namespace Highlight

structure ThemeFault where
  description : String
  theme : Option (List CodePoint) := none
  rule : Option (List CodePoint) := none
deriving DecidableEq, Repr

def ThemeFault.mention (what : String) : Option (List CodePoint) → List CodePoint
  | some name => if name = [] then [] else " (" ++ what ++ " '" ++ name ++ "')"
  | none => []

def ThemeFault.message (fault : ThemeFault) : List CodePoint :=
  fault.description ++ mention "theme" fault.theme ++ mention "rule" fault.rule

inductive ThemeError
  | unnamed
  | invalidFallback (theme : List CodePoint) (found : Json)
  | rulesNotObject (theme : List CodePoint)
  | invalidColor (theme label : List CodePoint) (found : Json)
  | notObject (file : String)
  | unknownTheme (name : List CodePoint)

def ThemeError.fault : ThemeError → ThemeFault
  | unnamed => { description := "Theme has no name" }
  | invalidFallback theme found =>
    { description := "Invalid fallback color " ++ found.shown, theme := some theme }
  | rulesNotObject theme => { description := "Theme rules must be an object", theme := some theme }
  | invalidColor theme label found =>
    { description := "Invalid color " ++ found.shown, theme := some theme, rule := some label }
  | notObject file => { description := "Theme file " ++ file ++ " does not contain an object" }
  | unknownTheme name => { description := "Unknown theme", theme := some name }

end Highlight
