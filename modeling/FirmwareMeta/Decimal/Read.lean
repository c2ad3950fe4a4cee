import FirmwareMeta.Decimal.Shortest

/-!
Binary64 numbers from decimal numerals.
-/
namespace FirmwareMeta.Decimal

def isDigit (c : Char) : Bool := '0' ≤ c && c ≤ '9'

/-- The value of digits. Other characters are not looked at. -/
def naturalOf (digits : List Char) : Nat :=
  digits.foldl (fun n c => if isDigit c then 10 * n + (c.toNat - 48) else n) 0

/-- The bits of `digits * 10 ^ exponent`, rounded to nearest. A number outside of all magnitudes
is infinite or zero. -/
def bitsOf (negative : Bool) (digits : Nat) (exponent : Int) : UInt64 :=
  let lead := (Nat.toDigits 10 digits).length + exponent
  let magnitude : Float :=
    if digits = 0 ∨ lead < -400 then 0
    else if 400 < lead then 1 / 0
    else Float.ofScientific digits (decide (exponent < 0)) exponent.natAbs
  (if negative then -magnitude else magnitude).toBits

/-- An integer numeral with an optional sign. -/
def integerOf (text : List Char) : Int :=
  if text.head? = some '-' then -(naturalOf text : Int) else naturalOf text

/-- The bits of a numeral with an optional fraction and exponent. -/
def bitsOfNumeral (text : List Char) : UInt64 :=
  let isExponent (c : Char) : Bool := c == 'e' || c == 'E'
  let mantissa := text.takeWhile (!isExponent ·)
  let exponent := integerOf ((text.dropWhile (!isExponent ·)).drop 1)
  let fraction := (mantissa.dropWhile (· ≠ '.')).filter isDigit
  bitsOf (text.head? = some '-') (naturalOf mantissa) (exponent - fraction.length)

end FirmwareMeta.Decimal
