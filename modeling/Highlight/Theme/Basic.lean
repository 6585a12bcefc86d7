import Highlight.Entries
import Highlight.Notice
import Highlight.Text.Blank

/-! Themes give colours to class lists. A class list is looked up as a whole first and then
class by class, so a rule for a general class also serves the special ones. -/

namespace Highlight

/-- Class lists and their colours, in the order in which they were first set. A class list
may be set to no colour. -/
structure Rules where
  entries : List (List CodePoint × Option String) := []
deriving DecidableEq, Repr

namespace Rules

def set (rules : Rules) (label : List CodePoint) (color : Option String) : Rules := ⟨Entries.put label color rules.entries⟩

def ofList (pairs : List (List CodePoint × Option String)) : Rules :=
  pairs.foldl (fun rules (label, color) => rules.set label color) {}

def color? (rules : Rules) (label : String) : Option String := (rules.entries.lookup (label : List CodePoint)).join

def classes (classList : String) : List String := (Text.words classList.toList).map String.ofList

/-- The colour of a class list: that of the whole list, or else of its first class that has
one. -/
def resolve? (rules : Rules) (classList : String) : Option String :=
  match rules.color? classList with
  | some color => some color
  | none => (classes classList).findSome? rules.color?

def resolve (rules : Rules) (classList : String) : Option String × List Notice :=
  match rules.resolve? classList with
  | some color => (some color, [])
  | none => (none, [.unknownClass classList])

def sorted (rules : Rules) : List (List CodePoint × Option String) :=
  rules.entries.mergeSort fun a b => !(b.1 < a.1)

end Rules

def defaultFallback : String := "#ff0000"

def defaultDrawColor : String := "#c9d1d9"

/-- A named set of rules, and the colour for what no rule colours. A theme without any rules
mapping can be held and named, but nothing can be looked up in it. -/
structure Theme where
  name : List CodePoint
  rules : Option Rules := some {}
  fallback : Option String := some defaultFallback
deriving DecidableEq, Repr

structure NoRules where
deriving DecidableEq, Repr

namespace Theme

def resolveAll (theme : Theme) (labels : List String) : Except NoRules (List (Option String) × List Notice) :=
  match theme.rules, labels with
  | _, [] => .ok ([], [])
  | none, _ => .error {}
  | some rules, labels => .ok (labels.map fun label => (rules.resolve label).1, labels.flatMap fun label => (rules.resolve label).2)

/-- Sets one rule; a theme without a rules mapping stays without. -/
def setRule (theme : Theme) (label : List CodePoint) (color : Option String) : Theme :=
  { theme with rules := theme.rules.map fun rules => rules.set label color }

end Theme

end Highlight
