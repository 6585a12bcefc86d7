/-! A finite double as a whole number times a power of two, read off its bits: one bit for the
sign, eleven for the exponent and fifty-two for the fraction. -/

namespace Highlight

/-- The number `significand * 2 ^ scale`, negated if `negative`. -/
structure Binary where
  negative : Bool
  significand : Nat
  scale : Int
deriving DecidableEq, Repr

namespace Binary

/-- The bit that every double has in front of its fraction unless it is subnormal. -/
def hidden : Nat := Nat.pow 2 52

/-- The scale of the subnormal doubles, which the smallest normal ones share. -/
def lowest : Int := -1074

def ofFloat (x : Float) : Binary :=
  let bits := x.toBits.toNat
  let field := bits / hidden % Nat.pow 2 11
  let fraction := bits % hidden
  { negative := bits / Nat.pow 2 63 == 1
    significand := if field = 0 then fraction else fraction + hidden
    scale := if field = 0 then lowest else lowest + field - 1 }

def whole (binary : Binary) : Nat :=
  binary.significand * Nat.pow 2 binary.scale.toNat / Nat.pow 2 (-binary.scale).toNat

end Binary

end Highlight
