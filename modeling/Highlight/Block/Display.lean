import Highlight.Block.Basic
import Highlight.Layout

/-! Measuring and drawing a block. Both look at the clusters it has to draw. -/

namespace Highlight.Block

variable {θ α γ : Type} [DecidableEq θ] [DecidableEq γ] [Letter γ] [Add α] [Sub α] [Mul α] [Div α] [Neg α] [LT α] [DecidableLT α] [LE α] [DecidableLE α]
  [OfNat α 0] [OfNat α 1] [OfNat α 2] [FractionalPart α]

def size (around : Surroundings θ α) (measurer : Measurer α γ) (block : Block θ α γ) : Reply θ α (Size α) γ :=
  let reply := block.clusters around
  ⟨measure measurer reply.value, reply.block, reply.events⟩

def draw (around : Surroundings θ α) (measurer : Measurer α γ) (block : Block θ α γ) : Reply θ α (List (DrawCall α γ)) γ :=
  let reply := block.clusters around
  ⟨Highlight.draw measurer (measure measurer reply.value) reply.value, reply.block, reply.events⟩

end Highlight.Block
