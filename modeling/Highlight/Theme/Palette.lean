import Highlight.Theme.Basic
import Highlight.Token

/-! The palette of the two built-in themes. Each colour has a value for light and for dark
surroundings, and each kind of token has a colour. -/

namespace Highlight

inductive ColorMode
  | light | dark
deriving DecidableEq, Repr

namespace ColorMode

def all : List ColorMode := [light, dark]

def tag : ColorMode → String
  | light => "LIGHT"
  | dark => "DARK"

def ofTag? (tag : List CodePoint) : Option ColorMode := all.find? fun mode => (mode.tag : List CodePoint) == tag

def themeName : ColorMode → List CodePoint
  | light => "light"
  | dark => "dark"

end ColorMode

inductive ColorRole
  | background | text | error | lightGreen | midGrey | lightBlue | lightYellow | midBlue | lightPurple
  | limeGreen | lightGrey | midOrange | darkOrange | green
deriving DecidableEq, Repr

namespace ColorRole

def all : List ColorRole :=
  [background, text, error, lightGreen, midGrey, lightBlue, lightYellow, midBlue, lightPurple,
   limeGreen, lightGrey, midOrange, darkOrange, green]

def tag : ColorRole → String
  | background => "BACKGROUND_PRIMARY"
  | text => "TEXT_PRIMARY"
  | error => "SYNTAX_ERROR"
  | lightGreen => "SYNTAX_03"
  | midGrey => "SYNTAX_05"
  | lightBlue => "SYNTAX_06"
  | lightYellow => "SYNTAX_07"
  | midBlue => "SYNTAX_11"
  | lightPurple => "SYNTAX_13"
  | limeGreen => "SYNTAX_16"
  | lightGrey => "SYNTAX_17"
  | midOrange => "SYNTAX_19"
  | darkOrange => "SYNTAX_20"
  | green => "SYNTAX_21"

def ofTag? (tag : String) : Option ColorRole := all.find? fun role => role.tag == tag

def dark : ColorRole → String
  | background => "#060606"
  | text => "#d8d8d8"
  | error => "#ff0000"
  | lightGreen => "#68b068"
  | midGrey => "#808080"
  | lightBlue => "#90e0e8"
  | lightYellow => "#e0e080"
  | midBlue => "#80b0f0"
  | lightPurple => "#ffc0eb"
  | limeGreen => "#88d048"
  | lightGrey => "#c0c0c0"
  | midOrange => "#c87050"
  | darkOrange => "#c05040"
  | green => "#30c090"

def light : ColorRole → String
  | background => "#fcfcfc"
  | text => "#202020"
  | error => "#ff0000"
  | lightGreen => "#407040"
  | midGrey => "#606060"
  | lightBlue => "#0080a0"
  | lightYellow => "#a0a000"
  | midBlue => "#0060c0"
  | lightPurple => "#c080a0"
  | limeGreen => "#508020"
  | lightGrey => "#404040"
  | midOrange => "#a04020"
  | darkOrange => "#803828"
  | green => "#24906c"

def value (role : ColorRole) : ColorMode → String
  | .light => role.light
  | .dark => role.dark

end ColorRole

def TokenKind.role : TokenKind → ColorRole
  | comment => .lightGreen
  | element => .lightBlue
  | error => .error
  | functionOrMethod => .lightYellow
  | identifier => .midBlue
  | jsonKey => .lightYellow
  | keyword => .lightPurple
  | number => .limeGreen
  | operator => .lightGrey
  | preprocessor => .midGrey
  | regexp => .midOrange
  | string => .darkOrange
  | text => .lightGrey
  | type => .green

def ColorMode.theme (mode : ColorMode) : Theme :=
  { name := mode.themeName
    rules := some (Rules.ofList (TokenKind.all.map fun kind => (kind.classList, some (kind.role.value mode))))
    fallback := some (ColorRole.text.value mode) }

end Highlight
