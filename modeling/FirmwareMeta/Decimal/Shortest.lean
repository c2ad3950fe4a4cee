/-!
Decimal digits of binary64 numbers. The digits of a number are the shortest that no other number
is nearer to, and of those the nearest. All comparisons are of naturals on a common grid.
-/
namespace FirmwareMeta.Decimal

/-- What the bits of a number say. -/
inductive Magnitude where
  | infinite
  | undefined
  /-- `significand * 2 ^ exponent`. It is narrow if the neighbour below is half as far away as
  the one above. -/
  | finite (significand : Nat) (exponent : Int) (narrow : Bool)
  deriving DecidableEq, Repr

def isNegative (bits : UInt64) : Bool := bits.toNat / 0x8000000000000000 == 1

/-- Values of the fraction and of the exponent's field. -/
def fractions : Nat := 0x10000000000000
def fields : Nat := 2048

def magnitude (bits : UInt64) : Magnitude :=
  let fraction : Nat := bits.toNat % fractions
  let field : Nat := bits.toNat / fractions % fields
  if field = fields - 1 then (if fraction = 0 then .infinite else .undefined)
  else if field = 0 then .finite fraction (-1074) false
  else .finite (fractions + fraction) ((field : Int) - 1075) (decide (fraction = 0 ∧ 1 < field))

/-- `digits * 10 ^ exponent`, as its digits from the first one on. -/
structure Digits where
  digits : List Char
  exponent : Int
  deriving DecidableEq, Repr

/-- The power of ten of the first digit of `n / d`, which are not zero. -/
def leadingPower (n d : Nat) : Int :=
  if d ≤ n then (Nat.toDigits 10 (n / d)).length - 1
  else
    -- The quotient of the reciprocal has one digit more, or as many if it is a power of ten.
    let k := (Nat.toDigits 10 (d / n)).length
    if d ≤ n * Nat.pow 10 (k - 1) then -((k : Int) - 1) else -(k : Int)

/-- The multiple of `10 ^ power` nearest to a number among those that lie between its bounds, all
given in quarters of `2 ^ exponent`. A tie goes to the even multiple. -/
def onGrid? (low value high : Nat) (closed : Bool) (exponent power : Int) : Option Nat :=
  -- On the common grid a quarter unit is `unit` and a multiple of the power is `step`.
  let unit := Nat.pow 2 (exponent - 2).toNat * Nat.pow 10 (-power).toNat
  let step := Nat.pow 2 (2 - exponent).toNat * Nat.pow 10 power.toNat
  let inside (c : Nat) : Bool :=
    if closed then low * unit ≤ c * step && c * step ≤ high * unit
    else low * unit < c * step && c * step < high * unit
  let below := value * unit / step
  let above := below + 1
  match inside below, inside above with
  | true, true =>
    let down := value * unit - below * step
    let up := above * step - value * unit
    if down < up || (down = up && below % 2 = 0) then some below else some above
  | true, false => some below
  | false, true => some above
  | false, false => none

/-- The shortest digits of `significand * 2 ^ exponent`, tried from `count` digits on. -/
def shortestFrom (significand : Nat) (exponent : Int) (narrow : Bool) (lead : Int)
    (count : Nat) : (more : Nat) → Digits
  | 0 =>
    ⟨Nat.toDigits 10 significand, 0⟩
  | more + 1 =>
    let value := 4 * significand
    let low := value - (if narrow then 1 else 2)
    let power := lead - ((count : Int) - 1)
    match onGrid? low value (value + 2) (significand % 2 = 0) exponent power with
    | some c => ⟨Nat.toDigits 10 c, power⟩
    | none => shortestFrom significand exponent narrow lead (count + 1) more

/-- Digits of a number that is not zero; seventeen are always enough. -/
def shortest (significand : Nat) (exponent : Int) (narrow : Bool) : Digits :=
  let n := significand * Nat.pow 2 exponent.toNat
  let d := Nat.pow 2 (-exponent).toNat
  shortestFrom significand exponent narrow (leadingPower n d) 1 17

/-- Digits without zeros at their end, and the power of ten of the first one. -/
def Digits.scientific (d : Digits) : List Char × Int :=
  let kept := (d.digits.reverse.dropWhile (· = '0')).reverse
  (kept, d.exponent + d.digits.length - 1)

/-- Digits around a decimal point, with at least one in front of it; a number without a fraction
has no point. -/
def positional (digits : List Char) (lead : Int) : List Char :=
  if lead < 0 then
    ['0', '.'] ++ List.replicate ((-lead).toNat - 1) '0' ++ digits
  else
    let whole := lead.toNat + 1
    let front := digits.take whole ++ List.replicate (whole - digits.length) '0'
    match digits.drop whole with
    | [] => front
    | fraction => front ++ '.' :: fraction

end FirmwareMeta.Decimal
