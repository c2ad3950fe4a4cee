/-!
Numerals in a radix up to sixteen. A numeral may open with one plus sign; it has at least one
digit, and its value lies below a limit that the reader names.
-/
namespace FirmwareMeta.Numeral

/-- The value of a digit, letters in either case, if it is below the radix. -/
def digit? (radix : Nat) (c : Char) : Option Nat :=
  let value :=
    if '0' ≤ c ∧ c ≤ '9' then c.toNat - 48
    else if 'a' ≤ c ∧ c ≤ 'f' then c.toNat - 87
    else if 'A' ≤ c ∧ c ≤ 'F' then c.toNat - 55
    else 16
  if value < radix ∧ value < 16 then some value else none

def digits? (radix : Nat) (digits : List Char) : Option Nat :=
  digits.foldlM (fun value c => (digit? radix c).map (radix * value + ·)) 0

/-- One leading plus sign is part of a numeral and a minus sign never is. -/
def read? (radix limit : Nat) (text : List Char) : Option Nat :=
  let digits := match text with
    | '+' :: rest => rest
    | _ => text
  if digits.isEmpty then none else (digits? radix digits).filter (· < limit)

/-- Hexadecimal digits, filled up with zeros to a width. -/
def hexDigits (width n : Nat) : List Char :=
  let digits := Nat.toDigits 16 n
  List.replicate (width - digits.length) '0' ++ digits

/-- A hexadecimal numeral of at least `width` digits behind `0x`. -/
def hex (width n : Nat) : String :=
  "0x" ++ String.ofList (hexDigits width n)

/-- The eight digits in which 32-bit addresses and checksums are shown. -/
def hexWord (n : Nat) : String := hex 8 n

end FirmwareMeta.Numeral
