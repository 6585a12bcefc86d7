import Highlight.Document
import Highlight.Piece.Basic
import Highlight.Theme.Basic

/-! Painting a text: every character starts in the fallback colour, and ranges are painted
over it one after the other, so of ranges that overlap the last one shows. A range without a
colour paints nothing. -/

namespace Highlight

namespace Piece

variable {γ : Type}

def unpainted (fallback : Option String) (text : List γ) : List (Piece γ) := text.map fun c => ⟨[c], fallback⟩

/-- Gives a colour to the cells of a range. What lies outside the text is ignored. -/
def cover (range : Range) (color : String) (cells : List (Piece γ)) : List (Piece γ) :=
  cells.mapIdx fun (index : Nat) cell =>
    if range.start ≤ (index : Int) ∧ (index : Int) < range.stop then { cell with color := some color } else cell

def paint (rules : Rules) (cells : List (Piece γ)) : List Range → List (Piece γ) × List Notice
  | [] => (cells, [])
  | range :: others =>
    match rules.resolve? range.classList with
    | some color => paint rules (cover range color cells) others
    | none =>
      let (painted, notices) := paint rules cells others
      (painted, .unknownClass range.classList :: notices)

end Piece

/-- The characters of a text in the colours of a theme. Without a rules mapping nothing can be
painted, which matters only if there is a range. -/
def Theme.paint {γ : Type} (theme : Theme) (fallback : Option String) (text : List γ) (ranges : List Range) :
    Except NoRules (List (Piece γ) × List Notice) :=
  let cells := Piece.unpainted fallback text
  let finish (painted : List (Piece γ)) (notices : List Notice) := (painted, notices ++ [Notice.coloured text.length])
  match theme.rules with
  | some rules =>
    let (painted, notices) := Piece.paint rules cells ranges
    .ok (finish painted notices)
  | none => if ranges.isEmpty then .ok (finish cells []) else .error {}

end Highlight
