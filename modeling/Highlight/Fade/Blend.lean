import Highlight.Fade.Hsl
import Highlight.Piece.Basic

/-! Blending the streams of two themes. Both come from one text, so they should have the same
pieces in different colours. If they do not, that is reported and the texts of the new stream
stand. -/

namespace Highlight

section
variable {γ : Type} [DecidableEq γ]

def firstDifference? (index : Nat) : List (Piece γ) → List (Piece γ) → Option (Nat × List γ × List γ)
  | new :: news, old :: olds =>
    if new.text = old.text then firstDifference? (index + 1) news olds else some (index, new.text, old.text)
  | _, _ => none

def blendNotices [Letter γ] (new old : List (Piece γ)) : List Notice :=
  (if new.length = old.length then [] else [.streamLengths new.length old.length]) ++
    match firstDifference? 0 new old with
    | some (index, newText, oldText) => [.streamTexts index (newText.map Letter.point) (oldText.map Letter.point)]
    | none => []

end

section
variable {α γ : Type} [Add α] [Sub α] [Mul α] [Div α] [Neg α] [LT α] [DecidableLT α] [LE α] [DecidableLE α]
  [OfNat α 0] [OfNat α 1] [OfNat α 2] [FractionalPart α]

/-- Mixes piece by piece. Pieces that have no partner keep their colours. -/
def blendPieces (model : ColorModel α) (progress : α) : List (Piece γ) → List (Piece γ) → List (Piece γ)
  | new :: news, old :: olds =>
    ⟨new.text, some (mixColor model old.color new.color progress)⟩ :: blendPieces model progress news olds
  | news, [] => news
  | [], _ => []

/-- Blends two streams. Without progress there is nothing to blend. -/
def blend [DecidableEq γ] [Letter γ] (model : ColorModel α) (new old : List (Piece γ)) (progress : Option α) :
    List (Piece γ) × List Notice :=
  match progress with
  | some progress => (blendPieces model progress new old, blendNotices new old)
  | none => (new, [])

end

end Highlight
