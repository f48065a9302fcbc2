import YangDoc.Argument
import YangDoc.Decimal.Shortest
import YangDoc.Json.Basic

/-!
# Number text

How a JSON number is written as the argument of a statement, and how its literal is read. An
integer literal that fits 64 bits stays an integer. Any other literal is the binary64 value of its
leading digits times one power of ten, and is written with the fewest digits that read back.

These are the rules of a JSON library, which is not part of what is described here. They are spelled
out so that expressions can be read from text; no theorem looks into them, and what is proved about
expressions in JSON holds for whatever text a number has.
-/

namespace YangDoc.Number

/-- Where positional notation ends. -/
structure Style where
  /-- Least decimal exponent of the first digit written positionally. -/
  least : Int
  /-- Greatest decimal exponent of the first digit written positionally. -/
  greatest : Int

/-- Values from `0.00001` up to sixteen digits before the point are written positionally. -/
def style : Style where
  least := -5
  greatest := 15

/-- The digits with a point after the first `places`, and at least one digit on each side. -/
def positional (digits : List Char) (places : Int) : List Char :=
  if places ≤ 0 then '0' :: '.' :: List.replicate (-places).toNat '0' ++ digits
  else
    let n := places.toNat
    if digits.length ≤ n then digits ++ List.replicate (n - digits.length) '0' ++ ['.', '0']
    else digits.take n ++ '.' :: digits.drop n

/-- One digit before the point, no point without digits after it, and a signed exponent. -/
def scientific (digits : List Char) (exponent : Int) : List Char :=
  let mantissa :=
    match digits with
    | [] => []
    | [d] => [d]
    | d :: ds => d :: '.' :: ds
  mantissa ++ 'e' :: (if exponent < 0 then '-' else '+') :: Nat.toDigits 10 exponent.natAbs

def magnitude (x : Binary64) : List Char :=
  let d := x.shortest
  let digits := Nat.toDigits 10 d.digits
  let first := d.exponent + digits.length - 1
  if style.least ≤ first ∧ first ≤ style.greatest then positional digits (first + 1)
  else scientific digits first

def ofBits (bits : UInt64) : String :=
  let x := Binary64.ofBits bits
  let text := if x.significand = 0 then ['0', '.', '0'] else magnitude x
  String.ofList (if bits.toNat < Nat.pow 2 63 then text else '-' :: text)

def toText : Number → String
  | .integer value => Argument.ofInteger value
  | .real bits => ofBits bits

structure Literal where
  negative : Bool
  whole : List Nat
  fraction : Option (List Nat)
  /-- Whether the exponent is negative, and its digits. -/
  exponent : Option (Bool × List Nat)

/-- Significand and exponent of a literal while its digits are read. -/
structure Reading where
  significand : Nat := 0
  exponent : Int := 0
  /-- No further digit fits 64 bits. -/
  full : Bool := false

/-- One more digit. Once a digit does not fit, it and all later ones are dropped; the exponent
makes up for those before the point. -/
def Reading.digit (beforePoint : Bool) (r : Reading) (d : Nat) : Reading :=
  let next := r.significand * 10 + d
  if r.full || UInt64.size ≤ next then
    { r with full := true, exponent := if beforePoint then r.exponent + 1 else r.exponent }
  else
    { r with significand := next, exponent := if beforePoint then r.exponent else r.exponent - 1 }

def tenTo (n : Nat) : Float :=
  Float.ofScientific 1 false n

/-- `x * 10 ^ exponent`; nothing when it is too large. Beyond the powers of ten that are finite,
the value is divided in steps until it is zero or one of them is left. -/
def scale : (fuel : Nat) → (x : Float) → (exponent : Int) → Option Float
  | 0, x, _ => some x
  | fuel + 1, x, exponent =>
    if 0 ≤ exponent then
      if exponent ≤ 308 then
        let y := x * tenTo exponent.toNat
        if y.isInf then none else some y
      else if x == 0 then some x
      else none
    else if -308 ≤ exponent then some (x / tenTo (-exponent).toNat)
    else if x == 0 then some x
    else scale fuel (x / tenTo 308) (exponent + 308)

/-- The number that a literal stands for; nothing when it is too large. -/
def ofLiteral (l : Literal) : Option Number :=
  let whole := l.whole.foldl (Reading.digit true) {}
  if !whole.full && l.fraction.isNone && l.exponent.isNone &&
      (!l.negative || (1 ≤ whole.significand && whole.significand ≤ Nat.pow 2 63)) then
    some (.integer (if l.negative then -(whole.significand : Int) else whole.significand))
  else
    let r := (l.fraction.getD []).foldl (Reading.digit false) whole
    let shift : Int :=
      match l.exponent with
      | none => 0
      | some (below, digits) =>
        let n : Nat := digits.foldl (fun n d => n * 10 + d) 0
        if below then -n else n
    (scale 4 (Float.ofNat r.significand) (r.exponent + shift)).map fun x =>
      .real (if l.negative then -x else x).toBits

end YangDoc.Number
