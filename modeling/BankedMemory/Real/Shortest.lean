import BankedMemory.Real.Decimal

/-!
# Shortest decimals

A binary value stands for every real that rounds to it. Of the decimals among those,
`Binary.shortest` picks one on the coarsest grid of powers of ten that has any, so it has the fewest
digits and no zero at its end; of two on that grid it takes the nearer, and the upper one of two
equally near. All comparisons are exact.
-/

namespace BankedMemory

/-- The positive number `mantissa * 2 ^ exponent`, as one of a binary format's values. -/
structure Binary where
  mantissa : Nat
  exponent : Int
  /-- The next smaller value is only half as far away as the next larger one. -/
  narrowBelow : Bool
deriving DecidableEq, Repr

/-- Order a decimal against `b * 2 ^ q` by clearing denominators. -/
def Decimal.compareBinary (d : Decimal) (b : Nat) (q : Int) : Ordering :=
  compare (d.digits * Nat.pow 10 d.exponent.toNat * Nat.pow 2 (-q).toNat)
    (b * Nat.pow 2 q.toNat * Nat.pow 10 (-d.exponent).toNat)

namespace Binary

/-- The lower end of the reals that round to the value, in quarters of its last place. -/
def low (b : Binary) : Nat := 4 * b.mantissa - (if b.narrowBelow then 1 else 2)

/-- The upper end, in quarters of the last place. -/
def high (b : Binary) : Nat := 4 * b.mantissa + 2

/-- Whether a decimal rounds to the value. A tie goes to the even mantissa, so the ends belong to
the value whose mantissa is even. -/
def accepts (b : Binary) (d : Decimal) : Bool :=
  let even := b.mantissa % 2 == 0
  (match d.compareBinary b.low (b.exponent - 2) with
    | .gt => true
    | .eq => even
    | .lt => false) &&
  (match d.compareBinary b.high (b.exponent - 2) with
    | .lt => true
    | .eq => even
    | .gt => false)

/-- The greatest point of the grid `10 ^ p` that is not above the value. -/
def below (b : Binary) (p : Int) : Decimal :=
  ⟨b.mantissa * Nat.pow 2 b.exponent.toNat * Nat.pow 10 (-p).toNat /
    (Nat.pow 2 (-b.exponent).toNat * Nat.pow 10 p.toNat), p⟩

/-- The point of the grid after `below`. -/
def above (b : Binary) (p : Int) : Decimal :=
  ⟨(b.below p).digits + 1, p⟩

/-- Whether the value lies below the middle between its neighbours on the grid `10 ^ p`. -/
def nearerBelow (b : Binary) (p : Int) : Bool :=
  (⟨2 * (b.below p).digits + 1, p⟩ : Decimal).compareBinary (2 * b.mantissa) b.exponent == .gt

/-- The decimal to take on the grid `10 ^ p`, if a point other than zero rounds to the value. -/
def onGrid? (b : Binary) (p : Int) : Option Decimal :=
  match (b.below p).digits != 0 && b.accepts (b.below p), b.accepts (b.above p) with
  | true, true => some (if b.nearerBelow p then b.below p else b.above p)
  | true, false => some (b.below p)
  | false, true => some (b.above p)
  | false, false => none

/-- Try `n` grids, from `10 ^ p` to finer ones. -/
def search (b : Binary) (p : Int) : Nat → Option Decimal
  | 0 => none
  | n + 1 =>
    match b.onGrid? p with
    | some d => some d
    | none => b.search (p - 1) n

/-- The value itself, written out. -/
def exact (b : Binary) : Decimal :=
  ⟨b.mantissa * Nat.pow 2 b.exponent.toNat * Nat.pow 5 (-b.exponent).toNat, min b.exponent 0⟩

/-- The shortest decimal that rounds to the value. The search starts above every power of ten that
the value reaches and stops at the grid that holds the value itself. -/
def shortest (b : Binary) : Decimal :=
  let first : Int := b.mantissa.log2 + 1 + max b.exponent 0
  (b.search first (first - min b.exponent 0).toNat).getD b.exact

end Binary

end BankedMemory
