/-!
# Shortest decimals

A binary64 value stands for all real numbers that round to it. Of the decimals among those, the
shortest are the ones on the coarsest grid of multiples of a power of ten that meets the interval,
and of these the nearest to the value is chosen, the even one in a tie.

Whenever a grid meets the interval, one of the two neighbours of the value on that grid lies in it,
so only those two are looked at. Everything is exact arithmetic on natural numbers.

It is the way a JSON library writes numbers, and only their text depends on it.
-/

namespace YangDoc

/-- A positive finite binary64 value `significand * 2 ^ exponent`. -/
structure Binary64 where
  significand : Nat
  exponent : Int
  /-- The next smaller value is only half as far away as the next larger one. -/
  narrowBelow : Bool
deriving DecidableEq, Repr

/-- A positive decimal `digits * 10 ^ exponent`. -/
structure Decimal where
  digits : Nat
  exponent : Int
deriving DecidableEq, Repr

/-- The absolute value with these bits, which are those of a finite value. -/
def Binary64.ofBits (bits : UInt64) : Binary64 :=
  let fraction := bits.toNat % Nat.pow 2 52
  let biased : Nat := bits.toNat / Nat.pow 2 52 % Nat.pow 2 11
  if biased = 0 then ⟨fraction, -1074, false⟩
  else ⟨Nat.pow 2 52 + fraction, (biased : Int) - 1075, fraction = 0 && 1 < biased⟩

/-- A fraction `n / d` that equals `a * 2 ^ b * 10 ^ c`. -/
def scaledFraction (a : Nat) (b c : Int) : Nat × Nat :=
  (a * Nat.pow 2 b.toNat * Nat.pow 10 c.toNat, Nat.pow 2 (-b).toNat * Nat.pow 10 (-c).toNat)

/-- Whether `digits * 10 ^ exponent` rounds to the value. In quarters of the unit in the last
place, the interval reaches two up and two down, or one down on the narrow side; its ends belong
to it when the significand is even. -/
def Binary64.covers (x : Binary64) (d : Decimal) : Bool :=
  let m := x.significand
  let (num, den) := scaledFraction d.digits (2 - x.exponent) d.exponent
  let low := (4 * m - if x.narrowBelow then 1 else 2) * den
  let high := (4 * m + 2) * den
  if m % 2 = 0 then low ≤ num && num ≤ high else low < num && num < high

/-- The neighbour of the value on the grid of multiples of `10 ^ exponent` that rounds to it, the
nearer one if both do. -/
def Binary64.onGrid (x : Binary64) (exponent : Int) : Option Decimal :=
  let (num, den) := scaledFraction x.significand x.exponent (-exponent)
  let below : Decimal := ⟨num / den, exponent⟩
  let above : Decimal := ⟨num / den + 1, exponent⟩
  match x.covers below, x.covers above with
  | true, true =>
    let rest := 2 * (num % den)
    if rest < den then some below
    else if den < rest then some above
    else if below.digits % 2 = 0 then some below
    else some above
  | true, false => some below
  | false, true => some above
  | false, false => none

/-- The first hit on the grids `10 ^ exponent`, `10 ^ (exponent - 1)`, … -/
def Binary64.search (x : Binary64) : (fuel : Nat) → (exponent : Int) → Option Decimal
  | 0, _ => none
  | fuel + 1, exponent =>
    match x.onGrid exponent with
    | some d => some d
    | none => search x fuel (exponent - 1)

/-- The shortest decimal that reads back as the value. The values lie between `10 ^ -324` and
`10 ^ 309`, and seventeen digits always suffice. -/
def Binary64.shortest (x : Binary64) : Decimal :=
  (x.search 660 309).getD ⟨x.significand, 0⟩

end YangDoc
