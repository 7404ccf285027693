import BankedMemory.Real.Shortest

/-!
# Single precision reals

A real value is the 32 bits of a binary floating point number, kept as they are: two different
NaNs stay different. `Single.equals` compares as numbers, `Single.text` writes the shortest decimal
that reads back as the same number.
-/

namespace BankedMemory

structure Single where
  bits : UInt32
deriving DecidableEq, Repr

namespace Single

def isNegative (x : Single) : Bool := x.bits >>> 31 == 1

/-- The eight bits of the exponent. -/
def exponentField (x : Single) : Nat := ((x.bits >>> 23) &&& 0xFF).toNat

/-- The 23 bits of the fraction. -/
def fraction (x : Single) : Nat := (x.bits &&& 0x7FFFFF).toNat

def isNaN (x : Single) : Bool := x.exponentField == 255 && x.fraction != 0

def isInfinite (x : Single) : Bool := x.exponentField == 255 && x.fraction == 0

def isZero (x : Single) : Bool := x.exponentField == 0 && x.fraction == 0

/-- Equality of numbers: both zeros are equal, and a NaN is equal to nothing. -/
def equals (x y : Single) : Bool :=
  !x.isNaN && !y.isNaN && (x == y || (x.isZero && y.isZero))

/-- The magnitude of a finite number that is not zero. -/
def magnitude (x : Single) : Binary :=
  if x.exponentField = 0 then ⟨x.fraction, -149, false⟩
  else ⟨x.fraction + 0x800000, (x.exponentField : Int) - 150, x.fraction == 0⟩

/-- The text of a real. NaN has no sign. -/
def text (x : Single) : String :=
  if x.isNaN then "NaN"
  else
    (if x.isNegative then "-" else "") ++
      (if x.isInfinite then "inf"
      else if x.isZero then "0.0"
      else x.magnitude.shortest.text)

end Single

end BankedMemory
