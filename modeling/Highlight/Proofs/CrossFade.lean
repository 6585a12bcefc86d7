import Highlight.Proofs.BlockColours

/-! Colours while a transition runs. The streams of the two themes are blended cluster by cluster,
in the order in which they stand. So a character fades from its old colour to its new one where
its clusters have one position in both streams, in particular everywhere if both themes change
colour at the same characters. Elsewhere the cluster at its position in the old stream lends the
old colour, or the new colour stands at once. -/

namespace Highlight

variable {θ α γ : Type} [Add α] [Sub α] [Mul α] [Div α] [Neg α] [LT α] [DecidableLT α] [LE α] [DecidableLE α]
  [OfNat α 0] [OfNat α 1] [OfNat α 2] [FractionalPart α]

def blendedColor (model : ColorModel α) (progress : α) (old : List (Piece γ)) (position : Nat) (new : Option String) :
    Option String :=
  match old[position]? with
  | some partner => some (mixColor model partner.color new progress)
  | none => new

private theorem blendPieces_getElem? (model : ColorModel α) (progress : α) (new old : List (Piece γ)) (position : Nat) :
    (blendPieces model progress new old)[position]? =
      new[position]?.map fun piece => ⟨piece.text, blendedColor model progress old position piece.color⟩ := by
  induction new generalizing old position with
  | nil => cases old <;> rfl
  | cons piece news ih =>
    cases old with
    | nil =>
      rw [blendPieces]
      exact Option.map_id'.symm
    | cons partner olds =>
      cases position with
      | zero => rfl
      | succ position => exact ih olds position

theorem map_text_blendPieces (model : ColorModel α) (progress : α) (new old : List (Piece γ)) :
    (blendPieces model progress new old).map Piece.text = new.map Piece.text := by
  apply List.ext_getElem?
  intro position
  rw [List.getElem?_map, blendPieces_getElem?, Option.map_map, List.getElem?_map]
  rfl

namespace Block

variable [DecidableEq θ] [DecidableEq γ] [Letter γ]

def standing (around : Surroundings θ α) (block : Block θ α γ) (theme : θ) : List (Piece γ) :=
  ((block.setTheme theme).clusters around).value

variable {around : Surroundings θ α} {theme oldTheme : θ} {progress : α}

section
variable {block : Block θ α γ}

theorem Coherent.standing (coherent : Coherent around block) (theme : θ) :
    block.standing around theme = block.freshStream around theme := by
  have still : (block.setTheme theme).transition.phase = .idle := rfl
  have switched : Coherent around (block.setTheme theme) := coherent.perform (.setTheme theme)
  rw [Block.standing, switched.clusters.1, freshClusters, still]
  rfl

theorem Coherent.blended (coherent : Coherent around block) (running : block.transition.phase = .running oldTheme progress) :
    (block.clusters around).value =
      blendPieces around.colors progress (block.standing around block.theme) (block.standing around oldTheme) := by
  rw [coherent.clusters.1, coherent.standing, coherent.standing, freshClusters, running]
  rfl

end

variable {block : Block θ α} {rules oldRules : Rules} {grammar : Grammar}

end Block

end Highlight
