import Highlight.Piece.Basic
import Highlight.Text.Grapheme

/-! Clusters are the pieces that are drawn one by one: a grapheme with a blank in it stands
alone, and the graphemes between two of these are drawn together, so that ligatures form.
Clusters never cross from one piece to the next. -/

namespace Highlight.Piece

variable {γ : Type} [Letter γ]

def clustersOf (color : Option String) : List (List γ) → List (Piece γ)
  | [] => []
  | first :: others =>
    if Text.hasBlank first then ⟨first, color⟩ :: clustersOf color others
    else
      ⟨first ++ (others.takeWhile fun g => !Text.hasBlank g).flatten, color⟩ ::
        clustersOf color (others.dropWhile fun g => !Text.hasBlank g)
termination_by graphemes => graphemes.length
decreasing_by
  · simp
  · have : (others.dropWhile fun g => !Text.hasBlank g).length ≤ others.length := (List.dropWhile_suffix _).length_le
    simp only [List.length_cons]; omega

/-- The clusters of one piece. Its text is gone through in UTF-16 units. -/
def split (piece : Piece γ) : List (Piece γ) := clustersOf piece.color (Text.graphemes (Letter.fused piece.text))

def clusters (pieces : List (Piece γ)) : List (Piece γ) := pieces.flatMap split

end Highlight.Piece
