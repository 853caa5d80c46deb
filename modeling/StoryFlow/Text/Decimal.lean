/-! Decimal text of binary floating point numbers: the fewest digits that read back as the same
number. A finite number is `mantissa * 2 ^ exponent`; the reals that round to it form an interval
whose ends count when the mantissa is even. -/

namespace StoryFlow.Text.Decimal

/-- A finite non-negative binary number. `tight` says that the gap below it is half the gap above. -/
structure Binary where
  mantissa : Nat
  exponent : Int
  tight : Bool
  deriving DecidableEq, Repr

inductive Reading where
  | nan
  | infinite (negative : Bool)
  | finite (negative : Bool) (value : Binary)
  deriving DecidableEq, Repr

def fractionSize : Nat := 4503599627370496

def Reading.ofBits (bits : Nat) : Reading :=
  let negative := bits / fractionSize / 2048 % 2 == 1
  let field : Nat := bits / fractionSize % 2048
  let fraction := bits % fractionSize
  if field == 2047 then
    if fraction == 0 then .infinite negative else .nan
  else if field == 0 then .finite negative ⟨fraction, -1074, false⟩
  else .finite negative ⟨fractionSize + fraction, (field : Int) - 1075, fraction == 0 && 1 < field⟩

def Reading.ofFloat (x : Float) : Reading := .ofBits x.toBits.toNat

/-- Decimal digits without trailing zeros, and where the point stands: the value is
`0.digits * 10 ^ point`. -/
structure Digits where
  digits : List Char
  point : Int
  deriving DecidableEq, Repr

def pow (base : Nat) (e : Int) : Nat := Nat.pow base e.toNat

def belowPowerOfTen (x : Nat) (p e : Int) : Bool :=
  x * pow 2 p * pow 10 (-e) < pow 10 e * pow 2 (-p)

def leadingExponent (x : Nat) (p : Int) : Int :=
  let guess := ((x.log2 : Int) + p) * 30103 / 100000
  if belowPowerOfTen x p guess then guess - 1
  else if belowPowerOfTen x p (guess + 1) then guess
  else guess + 1

/-- The grid of `10 ^ unit` has a point that rounds to the number: the nearer of the number's two
neighbours on the grid, the even one when both are equally near. -/
def onGrid? (value : Binary) (unit : Int) : Option Nat :=
  let p := value.exponent - 2
  let scale := pow 2 p * pow 10 (-unit)
  let step := pow 10 unit * pow 2 (-p)
  let centre := 4 * value.mantissa * scale
  let high := (4 * value.mantissa + 2) * scale
  let low := (4 * value.mantissa - if value.tight then 1 else 2) * scale
  let closed := value.mantissa % 2 == 0
  let inside (k : Nat) : Bool :=
    let x := k * step
    if closed then low ≤ x && x ≤ high else low < x && x < high
  let below := centre / step
  let above := below + 1
  match inside below, inside above with
  | true, true =>
    let down := centre - below * step
    let up := above * step - centre
    if down < up then some below
    else if up < down then some above
    else if below % 2 == 0 then some below else some above
  | true, false => some below
  | false, true => some above
  | false, false => none

def shortestFrom (value : Binary) (lead : Int) : Nat → Nat → Nat × Int
  | 0, count => (value.mantissa, lead - count + 1)
  | tries + 1, count =>
    let unit := lead - count + 1
    match onGrid? value unit with
    | some k => (k, unit)
    | none => shortestFrom value lead tries (count + 1)

/-- The fewest digits that read back as the number, the nearest such digits to it. -/
def shortest (value : Binary) : Digits :=
  if value.mantissa == 0 then ⟨['0'], 1⟩
  else
    let lead := leadingExponent value.mantissa value.exponent
    let (k, unit) := shortestFrom value lead 18 1
    let all := (Nat.repr k).toList
    let kept := (all.reverse.dropWhile (· == '0')).reverse
    ⟨kept, unit + all.length⟩

def sign (negative : Bool) : String := if negative then "-" else ""

def exponentText (e : Int) : String :=
  let size := Nat.repr e.natAbs
  (if e < 0 then "e-" else "e+") ++ (if e.natAbs < 10 then "0" ++ size else size)

def scientific (d : Digits) : String :=
  let e := d.point - 1
  match d.digits with
  | [] => "0"
  | first :: [] => String.singleton first ++ exponentText e
  | first :: rest => String.ofList (first :: '.' :: rest) ++ exponentText e

def positional (d : Digits) : String :=
  if d.point ≤ 0 then
    String.ofList ('0' :: '.' :: (List.replicate d.point.natAbs '0' ++ d.digits))
  else
    let whole := d.point.toNat
    if d.digits.length ≤ whole then
      String.ofList (d.digits ++ List.replicate (whole - d.digits.length) '0')
    else String.ofList (d.digits.take whole ++ '.' :: d.digits.drop whole)

/-- The general form: an exponent is written when the first digit stands for less than `10 ^ -4` or
for `10 ^ 6` and more. -/
def general (x : Float) : String :=
  match Reading.ofFloat x with
  | .nan => "NaN"
  | .infinite negative => if negative then "-Inf" else "+Inf"
  | .finite negative value =>
    if value.mantissa == 0 then sign negative ++ "0"
    else
      let d := shortest value
      let e := d.point - 1
      sign negative ++ if e < -4 || 6 ≤ e then scientific d else positional d

/-- As the general form, but a whole number is written in full with one decimal. -/
def withPoint (x : Float) : String :=
  match Reading.ofFloat x with
  | .finite negative value =>
    let numerator := value.mantissa * pow 2 value.exponent
    let denominator := pow 2 (-value.exponent)
    if numerator % denominator == 0 then
      sign negative ++ Nat.repr (numerator / denominator) ++ ".0"
    else general x
  | _ => general x

end StoryFlow.Text.Decimal
