/-!
# Decimals

A decimal is a whole number of some power of ten. `Decimal.text` writes it out with a point, or, if
its leading digit stands far from the point, as one digit before the point and an exponent.
-/

namespace BankedMemory

/-- The number `digits * 10 ^ exponent`. -/
structure Decimal where
  digits : Nat
  exponent : Int
deriving DecidableEq, Repr

namespace Decimal

/-- The digits as characters, the leading one first. -/
def chars (d : Decimal) : List Char := (toString d.digits).toList

/-- The exponent of the leading digit. -/
def leading (d : Decimal) : Int := (d.chars.length : Int) - 1 + d.exponent

/-- All places written out, with one place at least on either side of the point. -/
def positional (d : Decimal) : String :=
  let point := d.leading + 1
  if 0 ≤ d.exponent then
    String.ofList (d.chars ++ List.replicate d.exponent.toNat '0') ++ ".0"
  else if 0 < point then
    String.ofList (d.chars.take point.toNat) ++ "." ++ String.ofList (d.chars.drop point.toNat)
  else
    "0." ++ String.ofList (List.replicate (-point).toNat '0' ++ d.chars)

/-- One digit before the point, no point without digits after it, and the exponent after `e`. -/
def scientific (d : Decimal) : String :=
  String.ofList (d.chars.take 1) ++
    (if d.chars.length = 1 then "" else "." ++ String.ofList (d.chars.drop 1)) ++
    "e" ++ toString d.leading

/-- Written out from `0.0001` on, up to sixteen digits before the point. -/
def text (d : Decimal) : String :=
  if -4 ≤ d.leading ∧ d.leading < 16 then d.positional else d.scientific

end Decimal

end BankedMemory
