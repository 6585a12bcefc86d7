import Highlight.Number.Shortest

/-! How numbers are written. A double is written with its shortest digits and always shows
that it is not an integer: positionally while its first digit stands for a power of ten from
-4 to 15, otherwise with an exponent of at least two digits and its sign. -/

namespace Highlight

structure FloatNames where
  nan : String
  infinity : String

namespace Decimal

def digitText (decimal : Decimal) : List Char := Nat.toDigits 10 decimal.digits

def magnitude (decimal : Decimal) : Int := decimal.exponent + (decimal.digitText.length : Int) - 1

def zeros (count : Nat) : List Char := List.replicate count '0'

def positional (decimal : Decimal) : List Char :=
  let digits := decimal.digitText
  if 0 ≤ decimal.exponent then digits ++ zeros decimal.exponent.toNat ++ ['.', '0']
  else
    let places := (-decimal.exponent).toNat
    if places < digits.length then
      digits.take (digits.length - places) ++ '.' :: digits.drop (digits.length - places)
    else '0' :: '.' :: zeros (places - digits.length) ++ digits

def exponentText (exponent : Int) : List Char :=
  let digits := Nat.toDigits 10 exponent.natAbs
  (if exponent < 0 then '-' else '+') :: (if digits.length < 2 then '0' :: digits else digits)

def scientific (decimal : Decimal) : List Char :=
  let tail := match decimal.digitText with
    | [only] => [only]
    | first :: others => first :: '.' :: others
    | [] => []
  tail ++ 'e' :: exponentText decimal.magnitude

def isPositional (decimal : Decimal) : Bool := -4 ≤ decimal.magnitude && decimal.magnitude < 16

def written (decimal : Decimal) : List Char :=
  if decimal.isPositional then decimal.positional else decimal.scientific

end Decimal

def floatText (names : FloatNames) (x : Float) : String :=
  if x.isNaN then names.nan
  else
    let sign := if (Binary.ofFloat x).negative then "-" else ""
    if x.isInf then sign ++ names.infinity
    else sign ++ String.ofList (Decimal.ofFloat x).written

end Highlight
