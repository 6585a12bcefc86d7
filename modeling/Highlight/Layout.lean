import Highlight.Fade.Hsl
import Highlight.Piece.Basic
import Highlight.Text.Letter

/-! Laying out a stream of clusters. Clusters stand side by side until a line break; the text
is drawn with its centre in the origin. Widths and the height of a line come from the caller,
in whatever numbers it measures. -/

namespace Highlight

structure Measurer (α : Type) (γ : Type := Char) where
  width : List γ → α
  lineHeight : α

structure Size (α : Type) where
  width : α
  height : α
deriving DecidableEq, Repr

inductive DrawCall (α : Type) (γ : Type := Char)
  | save
  | restore
  | translate (dx dy : α)
  | color (name : String)
  | text (content : List γ) (x y : α)
deriving DecidableEq, Repr

def Piece.isNewline {γ : Type} [Letter γ] (piece : Piece γ) : Bool :=
  Letter.chars piece.text == ['\n'] || Letter.chars piece.text == ['\r', '\n']

structure Extent (α : Type) where
  widest : α
  current : α
  height : α

section
variable {α γ : Type} [Letter γ] [Add α] [Div α] [Neg α] [LT α] [DecidableLT α] [OfNat α 0] [OfNat α 2]

def Extent.add (measurer : Measurer α γ) (extent : Extent α) (piece : Piece γ) : Extent α :=
  if piece.isNewline then ⟨greater extent.widest extent.current, 0, extent.height + measurer.lineHeight⟩
  else { extent with current := extent.current + measurer.width piece.text }

/-- The size of a stream: its widest line and the height of all its lines. -/
def measure (measurer : Measurer α γ) (pieces : List (Piece γ)) : Size α :=
  if pieces.isEmpty then ⟨0, 0⟩
  else
    let extent := pieces.foldl (Extent.add measurer) ⟨0, 0, measurer.lineHeight⟩
    ⟨greater extent.widest extent.current, extent.height⟩

def drawFrom (measurer : Measurer α γ) (x y : α) : List (Piece γ) → List (DrawCall α γ)
  | [] => []
  | piece :: others =>
    if piece.isNewline then drawFrom measurer 0 (y + measurer.lineHeight) others
    else
      .color (drawColor piece.color) :: .text piece.text x y ::
        drawFrom measurer (x + measurer.width piece.text) y others

def draw (measurer : Measurer α γ) (size : Size α) (pieces : List (Piece γ)) : List (DrawCall α γ) :=
  .save :: .translate (-size.width / 2) (-size.height / 2) :: drawFrom measurer 0 0 pieces ++ [.restore]

end

end Highlight
