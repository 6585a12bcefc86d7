import Highlight.Number.Scalar
import Highlight.Theme.Basic

/-! Mixing colours by hue, saturation and lightness. The hue of a colour is a place on a
circle of length one, and a mix goes the shorter way round it. A grey has no hue, written as
a negative one; it takes the hue of the other colour. -/

namespace Highlight

structure Hsl (α : Type) where
  hue : α
  saturation : α
  lightness : α
deriving DecidableEq, Repr

structure ColorModel (α : Type) where
  parts : String → Hsl α
  name : Hsl α → String

def drawColor (color : Option String) : String :=
  match color with
  | some name => if name = "" then defaultDrawColor else name
  | none => defaultDrawColor

section
variable {α : Type} [Add α] [Sub α] [Mul α] [Div α] [Neg α] [LT α] [DecidableLT α] [LE α] [DecidableLE α]
  [OfNat α 0] [OfNat α 1] [OfNat α 2]

def clampUnit (x : α) : α := greater 0 (lesser 1 x)

def commonHues (old new : α) : α × α :=
  if old < 0 ∧ new < 0 then (0, 0)
  else if old < 0 then (new, new)
  else if new < 0 then (old, old)
  else (old, new)

/-- The way from one hue to another that is not longer than half the circle. -/
def shorterWay (old new : α) : α :=
  let difference := new - old
  if 1 / 2 < difference then difference - 1
  else if difference < -(1 / 2) then difference + 1
  else difference

variable [FractionalPart α]

def Hsl.mix (old new : Hsl α) (progress : α) : Hsl α :=
  let (oldHue, newHue) := commonHues old.hue new.hue
  { hue := FractionalPart.fract (oldHue + shorterWay oldHue newHue * progress)
    saturation := clampUnit (old.saturation + (new.saturation - old.saturation) * progress)
    lightness := clampUnit (old.lightness + (new.lightness - old.lightness) * progress) }

/-- The mix of two colours. At the two ends the colours themselves are given, whatever their
names look like. -/
def mixColor (model : ColorModel α) (old new : Option String) (progress : α) : String :=
  if progress ≤ 0 then drawColor old
  else if 1 ≤ progress then drawColor new
  else model.name (Hsl.mix (model.parts (drawColor old)) (model.parts (drawColor new)) progress)

end

end Highlight
