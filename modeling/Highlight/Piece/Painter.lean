import Highlight.Piece.Painting

/-! Painters. A painter paints one text as often as it is asked to, each time from the beginning.
Cells come into being as far as the reported ranges reach, and the rest of them once all ranges are
reported, so a range always finds its cells to paint over. -/

namespace Highlight

structure Painter (γ : Type := Char) where
  text : List γ
  fallback : Option String
  theme : Theme
  cells : List (Piece γ) := []

namespace Painter

variable {γ : Type}

/-- Makes the cells before `stop` that are not there yet. -/
def extend (painter : Painter γ) (stop : Int) : Painter γ :=
  { painter with
    cells := painter.cells ++
      Piece.unpainted painter.fallback ((painter.text.take stop.toNat).drop painter.cells.length) }

def add (painter : Painter γ) (range : Range) : Except NoRules (Painter γ × List Notice) :=
  match painter.theme.rules with
  | some rules =>
    let (found, notices) := rules.resolve range.classList
    let extended := painter.extend range.stop
    match found with
    | some color => .ok ({ extended with cells := Piece.cover range color extended.cells }, notices)
    | none => .ok (extended, notices)
  | none => .error {}

def addAll (painter : Painter γ) : List Range → Except NoRules (Painter γ × List Notice)
  | [] => .ok (painter, [])
  | range :: others => do
    let (next, notices) ← painter.add range
    let (last, more) ← next.addAll others
    .ok (last, notices ++ more)

def build (painter : Painter γ) (ranges : List Range) : Except NoRules (Painter γ × List Notice) := do
  let (painted, notices) ← { painter with cells := [] }.addAll ranges
  let finished := painted.extend painted.text.length
  .ok (finished, notices ++ [.coloured finished.cells.length])

end Painter

end Highlight
