import FirmwareMeta.Devicetree.Tree
import FirmwareMeta.Devicetree.Fault
import FirmwareMeta.Text.Numeral
import FirmwareMeta.Text.Blank

/-!
Words as numbers: an integer with optional suffix letters in a cell, and pairs of hexadecimal
digits in a byte string.
-/
namespace FirmwareMeta.Devicetree

def Cell.isSuffix (c : Char) : Bool :=
  c == 'U' || c == 'L' || c == 'u' || c == 'l'

/-- The number of values of a cell. -/
def Cell.limit : Nat := 0x10000000000000000

/-- An integer without its suffix: hexadecimal behind `0x`, octal behind another zero, and
decimal otherwise. -/
def Cell.digits? (text : List Char) : Option Nat :=
  match text with
  | '0' :: 'x' :: rest => Numeral.read? 16 limit rest
  | '0' :: 'X' :: rest => Numeral.read? 16 limit rest
  | '0' :: c :: rest => Numeral.read? 8 limit (c :: rest)
  | _ => Numeral.read? 10 limit text

def Cell.ofWord? (word : String) : Option Cell :=
  (digits? (Text.dropEnd isSuffix word.toList)).map fun n => .number (.ofNat n)

/-- The bytes of pairs of characters, each pair a numeral. -/
def Value.bytesOfPairs? : List Char → Option (List UInt8)
  | high :: low :: rest => do
    let byte ← Numeral.read? 16 256 [high, low]
    let more ← bytesOfPairs? rest
    pure (.ofNat byte :: more)
  | [_] => none
  | [] => some []

def Value.bytesOfWord (word : String) : Except Cause (List UInt8) :=
  if word.toList.length % 2 ≠ 0 then .error .oddDigits
  else match bytesOfPairs? word.toList with
    | some list => .ok list
    | none => .error .invalidByte

end FirmwareMeta.Devicetree
