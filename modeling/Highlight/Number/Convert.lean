import Highlight.Number.Binary

/-! Between integers and doubles. The whole part of a double is exact, whatever its size. An
integer becomes the nearest double, if that is finite. -/

namespace Highlight

/-- The whole part of the magnitude of a double; infinity and what is no number have none. -/
def wholePart? (x : Float) : Option Nat := if x.isNaN || x.isInf then none else some (Binary.ofFloat x).whole

def doubleOf? (n : Int) : Option Float :=
  let x := Float.ofInt n
  if x.isInf then none else some x

end Highlight
