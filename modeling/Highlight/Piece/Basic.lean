import Highlight.Token

/-! Coloured pieces of text: single characters, runs of one colour, and the clusters that
are drawn. Joining equal neighbours turns the first into the second. -/

namespace Highlight

structure Piece (γ : Type := Char) where
  text : List γ
  color : Option String
deriving DecidableEq, Repr

namespace Piece

variable {γ : Type}

def textOf (pieces : List (Piece γ)) : List γ := pieces.flatMap Piece.text

def chars (pieces : List (Piece γ)) : List (γ × Option String) :=
  pieces.flatMap fun piece => piece.text.map fun c => (c, piece.color)

/-- Puts a piece in front of a stream. It joins the first piece if they have one colour. -/
def join (piece : Piece γ) : List (Piece γ) → List (Piece γ)
  | [] => [piece]
  | next :: others =>
    if piece.color = next.color then ⟨piece.text ++ next.text, next.color⟩ :: others else piece :: next :: others

def merge (pieces : List (Piece γ)) : List (Piece γ) := pieces.foldr join []

end Piece

end Highlight
