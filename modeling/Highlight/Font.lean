/-! The font that code is drawn in. Its size is that of the system font, or one that is usual
for the operating system if the system font has none. The size is determined once. -/

namespace Highlight

inductive OperatingSystem
  | unknown | windows | macOS | iOS | tvOS | watchOS | android
deriving DecidableEq, Repr

def OperatingSystem.ofName (name : String) : OperatingSystem :=
  match name with
  | "Windows" => windows
  | "MacOS" => macOS
  | "IOS" => iOS
  | "TvOS" => tvOS
  | "WatchOS" => watchOS
  | "Android" => android
  | _ => unknown

structure System where
  fontSize : Float
  os : OperatingSystem

def System.baseFontSize (system : System) : Float :=
  if 0.0 < system.fontSize then system.fontSize
  else if system.os = .macOS then 13.0
  else 10.0

inductive FontCall
  | families (names : List String)
  | fixedPitch (on : Bool)
  | pointSize (size : Float)

/-- The base size, once it has been determined. -/
structure CodeFont where
  base : Option Float := none

namespace CodeFont

def families : List String := ["Menlo", "Consolas", "Monaco", "monospace"]

def baseSize (font : CodeFont) (system : System) : Float × CodeFont :=
  let size := font.base.getD system.baseFontSize
  (size, ⟨some size⟩)

/-- How the font is set up. Without a size of its own it has the base size. -/
def setUp (font : CodeFont) (system : System) (size : Option Float) : List FontCall × CodeFont :=
  let (chosen, next) := match size with
    | some size => (size, font)
    | none => font.baseSize system
  ([.families families, .fixedPitch true, .pointSize chosen], next)

end CodeFont

end Highlight
