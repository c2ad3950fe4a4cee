import FirmwareMeta.Decimal.Shortest

/-!
Texts of binary64 numbers: the ways in which the digits are set out.
-/
namespace FirmwareMeta.Decimal

/-- How the texts of a format look. -/
structure Style where
  /-- Whether a number whose first digit has a given power of ten is written out. -/
  plain : Int → Bool
  /-- What ends a text that has no decimal point of its own. -/
  whole : String
  infinite : String
  undefined : String

namespace Style

/-- A power of ten behind one digit in front of the point; the sign of the power is shown. -/
def scientific (digits : List Char) (lead : Int) : List Char :=
  let fraction := match digits.drop 1 with
    | [] => []
    | rest => '.' :: rest
  let sign := if lead < 0 then '-' else '+'
  digits.take 1 ++ fraction ++ 'e' :: sign :: Nat.toDigits 10 lead.natAbs

def withPoint (s : Style) (text : List Char) : List Char :=
  if '.' ∈ text then text else text ++ s.whole.toList

/-- The text of a number from its bits. -/
def render (s : Style) (bits : UInt64) : String :=
  let sign := if isNegative bits then ['-'] else []
  match magnitude bits with
  | .undefined => s.undefined
  | .infinite => String.ofList sign ++ s.infinite
  | .finite 0 _ _ => String.ofList (sign ++ s.withPoint ['0'])
  | .finite significand exponent narrow =>
    let (digits, lead) := (shortest significand exponent narrow).scientific
    String.ofList (sign ++
      if s.plain lead then s.withPoint (positional digits lead) else scientific digits lead)

end Style
end FirmwareMeta.Decimal
