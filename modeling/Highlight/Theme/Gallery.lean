import Highlight.Entries
import Highlight.Theme.Error
import Highlight.Theme.Palette

/-! The themes that are available by name, one of them active. Whoever listens is told the
new theme whenever the active theme changes, be it that another name is chosen or that the
active name is registered anew. Themes are objects of any type that has names. -/

namespace Highlight

structure Gallery (θ : Type) where
  mode : ColorMode
  themes : List (List CodePoint × θ)
  active : List CodePoint

/-- The gallery after an operation, and the themes announced to listeners. -/
structure Announced (θ : Type) where
  gallery : Gallery θ
  themes : List θ

namespace Gallery

variable {θ : Type}

def initial (name : θ → List CodePoint) (builtin : ColorMode → θ) : Gallery θ :=
  { mode := .dark
    themes := ColorMode.all.foldl (fun themes mode => Entries.put (name (builtin mode)) (builtin mode) themes) []
    active := ColorMode.dark.themeName }

/-- Makes a name active. Nothing is announced if it was active before. -/
def activate (gallery : Gallery θ) (name : List CodePoint) : Announced θ :=
  if name = gallery.active then ⟨gallery, []⟩
  else ⟨{ gallery with active := name }, (gallery.themes.lookup name).toList⟩

def setMode (gallery : Gallery θ) (mode : ColorMode) : Announced θ :=
  { gallery with mode := mode }.activate mode.themeName

def register (name : θ → List CodePoint) (gallery : Gallery θ) (theme : θ) : Announced θ :=
  ⟨{ gallery with themes := Entries.put (name theme) theme gallery.themes },
    if name theme = gallery.active then [theme] else []⟩

def registerNotices (name : θ → List CodePoint) (theme : θ) : List Notice := [.registeredTheme (name theme)]

def names (gallery : Gallery θ) : List (List CodePoint) := (gallery.themes.map (·.1)).mergeSort fun a b => !(b < a)

/-- The theme of a name; without a name, the active theme. -/
def get (gallery : Gallery θ) (name : Option (List CodePoint)) : Except ThemeError θ :=
  let wanted := name.getD gallery.active
  match gallery.themes.lookup wanted with
  | some theme => .ok theme
  | none => .error (.unknownTheme wanted)

def select (gallery : Gallery θ) (name : List CodePoint) : Except ThemeError (Announced θ) :=
  if (gallery.themes.lookup name).isSome then .ok (gallery.activate name) else .error (.unknownTheme name)

def color (gallery : Gallery θ) (role : ColorRole) : String := role.value gallery.mode

end Gallery

end Highlight
