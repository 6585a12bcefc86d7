import Highlight.Json.Writer
import Highlight.Language.Basic

/-! What the library reports while it works: unusual input it makes the best of, and steps
that are worth following. A notice is data. Its source, its weight and its wording are
functions of it. -/

namespace Highlight

inductive Severity
  | debug | info | warning | error
deriving DecidableEq, Repr

inductive Notice
  /-- A name that no language has. -/
  | unknownLanguage (name : List CodePoint)
  /-- A class list for which a theme has no colour. -/
  | unknownClass (classList : String)
  /-- Every character of a text has got its colour. -/
  | coloured (count : Nat)
  /-- The streams to be blended differ in length. -/
  | streamLengths (new old : Nat)
  /-- The first place at which the streams to be blended differ in text. -/
  | streamTexts (index : Nat) (new old : List CodePoint)
  /-- A transition starts while another one, away from the named theme, is running. -/
  | replacedTransition (oldTheme : List CodePoint)
  | parseFailed (language : Language)
  | highlightFailed (language : Language) (theme : List CodePoint)
  | registeredTheme (name : List CodePoint)
  | unknownColorMode (found : Json)
  | unknownEasing (found : Json) (kept : String)
  | invalidFallback (found : Json)

namespace Notice

def source : Notice → String
  | unknownLanguage _ => "LanguageUtils"
  | unknownClass _ => "StyleResolver"
  | coloured _ => "TokenBuilder"
  | streamLengths .. | streamTexts .. => "ColorBlender"
  | replacedTransition _ => "StyleTransition"
  | parseFailed _ | highlightFailed .. => "CodeBlock"
  | registeredTheme _ => "ThemeManager"
  | unknownColorMode _ | unknownEasing .. | invalidFallback _ => "CodeSettings"

def severity : Notice → Severity
  | unknownLanguage _ | coloured _ | replacedTransition _ => .debug
  | registeredTheme _ => .info
  | unknownClass _ | streamLengths .. | streamTexts .. | unknownColorMode _ | unknownEasing ..
  | invalidFallback _ => .warning
  | parseFailed _ | highlightFailed .. => .error

def message : Notice → List CodePoint
  | unknownLanguage name => "Unknown language name: " ++ name
  | unknownClass classList => "Unknown theme class '" ++ classList ++ "'"
  | coloured count => "Built " ++ toString count ++ " character colors"
  | streamLengths new old =>
    "Cannot align theme transition: " ++ toString new ++ " clusters against " ++ toString old
  | streamTexts index new old =>
    "Theme transition segments differ at cluster " ++ toString index ++ ": " ++ String.ofList (Text.quoted new) ++
      " against " ++ String.ofList (Text.quoted old)
  | replacedTransition oldTheme => "Replacing running transition from '" ++ oldTheme ++ "'"
  | parseFailed language => "Failed to parse " ++ language.tag ++ " code"
  | highlightFailed language theme =>
    "Failed to highlight " ++ language.tag ++ " code with theme '" ++ theme ++ "'"
  | registeredTheme name => "Registered theme: " ++ name
  | unknownColorMode found => "Unknown theme '" ++ found.display ++ "', using DARK"
  | unknownEasing found kept => "Unknown easing curve '" ++ found.display ++ "', using " ++ kept
  | invalidFallback found => "Invalid fallback color " ++ found.shown ++ ", using the theme's"

end Notice

end Highlight
