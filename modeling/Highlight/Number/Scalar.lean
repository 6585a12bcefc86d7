/-! Arithmetic that makes sense for doubles and for exact fractions alike. Colours, times and
lengths are computed in whatever numbers the caller brings. -/

namespace Highlight

/-- The part of a number between zero and one that is left after whole units are taken off. -/
class FractionalPart (α : Type) where
  fract : α → α

/-- The fraction of a negative double is counted up from the unit below it. Rounding can make
that a full unit when the double is tiny. A whole double leaves zero. -/
def floatFract (x : Float) : Float :=
  let rest := x - (if x < 0.0 then x.ceil else x.floor)
  if rest == 0.0 then 0.0 else if rest < 0.0 then rest + 1.0 else rest

instance : FractionalPart Float := ⟨floatFract⟩

instance : FractionalPart Rat := ⟨fun x => x - x.floor⟩

section
variable {α : Type} [LT α] [DecidableLT α]

/-- The second number if it is smaller, otherwise the first. -/
def lesser (a b : α) : α := if b < a then b else a

def greater (a b : α) : α := if a < b then b else a

end

end Highlight
