import Highlight.Scan.Reader

/-! Operators are read by maximal munch. A table groups them by first character and keeps,
beside each first character, what may follow it with the longest continuation in front, so
the first continuation that fits is the longest operator at that place. -/

namespace Highlight.Scan

/-- Beside each first character, the continuations that make an operator of it, longest first. -/
structure OperatorTable where
  groups : List (Char × List (List Char))

namespace OperatorTable

def tailsAfter (first : Char) (operators : List (List Char)) : List (List Char) :=
  operators.filterMap fun
    | [] => none
    | c :: tail => if c = first then some tail else none

def insertLongest (tail : List Char) : List (List Char) → List (List Char)
  | [] => [tail]
  | other :: others =>
    if other.length ≤ tail.length then tail :: other :: others else other :: insertLongest tail others

/-- Longer continuations come first; those of one length keep their order. -/
def longestFirst (tails : List (List Char)) : List (List Char) := tails.foldr insertLongest []

def firsts (operators : List (List Char)) : List Char := (operators.filterMap List.head?).eraseDups

/-- The table of a list of operators. An empty string is no operator and is left out. -/
def ofList (operators : List (List Char)) : OperatorTable :=
  ⟨(firsts operators).map fun c => (c, longestFirst (tailsAfter c operators))⟩

def tails (table : OperatorTable) (first : Char) : List (List Char) :=
  (table.groups.lookup first).getD []

def toList (table : OperatorTable) : List (Char × List (List Char)) :=
  (table.groups.mergeSort fun first second => first.1 ≤ second.1).map fun (c, tails) => (c, tails.map (c :: ·))

/-- The longest continuation of `first` to an operator that the following text begins with. -/
def munch? (table : OperatorTable) (first : Char) (following : List Char) : Option (List Char) :=
  (table.tails first).find? fun tail => tail.isPrefixOf following

theorem munch?_stands {table : OperatorTable} {first : Char} {following tail : List Char}
    (found : table.munch? first following = some tail) : tail <+: following := by
  have fits : tail.isPrefixOf following = true := by simpa using List.find?_some found
  exact List.isPrefixOf_iff_prefix.mp fits

theorem munch?_append {table : OperatorTable} {first : Char} {following tail : List Char}
    (found : table.munch? first following = some tail) : tail ++ following.drop tail.length = following :=
  List.prefix_iff_eq_append.mp (munch?_stands found)

/-- The longest operator at a place. A character that begins none is an error by itself. -/
def read (table : OperatorTable) (first : Char) (following : List Char) : Reading :=
  match table.munch? first following with
  | some tail => ⟨some .operator, ⟨tail, following.drop tail.length⟩, .neutral⟩
  | none => ⟨some .error, Cut.none following, .neutral⟩

theorem read_covers (table : OperatorTable) (first : Char) (following : List Char) :
    (table.read first following).body.Covers following := by
  unfold read
  split
  next found => exact munch?_append found
  · rfl

end OperatorTable

end Highlight.Scan
