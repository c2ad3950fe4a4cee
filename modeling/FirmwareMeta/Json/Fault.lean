import FirmwareMeta.Decimal.Style
import FirmwareMeta.Text.Quoted
import FirmwareMeta.Text.Line

/-!
Why a JSON text is refused, and where. While a text is read a fault keeps what is left of the
text; its line and column are counted once it is reported.
-/
namespace FirmwareMeta.Json

/-- What stands in a text where something else was expected. -/
inductive Found where
  | null
  | boolean (value : Bool)
  | integer (value : Int)
  /-- A binary64 number, as its bits. -/
  | float (bits : UInt64)
  | text (value : List Char)
  | sequence
  | map
  deriving DecidableEq, Repr

/-- Numbers are written out from five places behind the point to sixteen in front of it. -/
def numberStyle : Decimal.Style := ⟨fun lead => -5 ≤ lead && lead < 16, ".0", "inf", "NaN"⟩

def Found.show : Found → String
  | null => "null"
  | boolean value => "boolean `" ++ toString value ++ "`"
  | integer value => "integer `" ++ toString value ++ "`"
  | float bits => "floating point `" ++ numberStyle.render bits ++ "`"
  | text value => "string " ++ Text.quote value
  | sequence => "sequence"
  | map => "map"

inductive Cause where
  | listEnds
  | objectEnds
  | stringEnds
  | valueEnds
  | colon
  | listCommaOrEnd
  | objectCommaOrEnd
  | word
  | value
  | escape
  | number
  | numberRange
  | loneSurrogate
  | pairEnds
  | keyNotString
  | controlCharacter
  | trailingComma
  | trailingCharacters
  | wrongType (found : Found) (expected : String)
  | wrongValue (found : Found) (expected : String)
  | repeatedField (name : String)
  | missingField (name : String)
  | tooShort (length : Nat) (expected : String)
  deriving DecidableEq, Repr

def Cause.message : Cause → String
  | listEnds => "EOF while parsing a list"
  | objectEnds => "EOF while parsing an object"
  | stringEnds => "EOF while parsing a string"
  | valueEnds => "EOF while parsing a value"
  | colon => "expected `:`"
  | listCommaOrEnd => "expected `,` or `]`"
  | objectCommaOrEnd => "expected `,` or `\x7d`"
  | word => "expected ident"
  | value => "expected value"
  | escape => "invalid escape"
  | number => "invalid number"
  | numberRange => "number out of range"
  | loneSurrogate => "lone leading surrogate in hex escape"
  | pairEnds => "unexpected end of hex escape"
  | keyNotString => "key must be a string"
  | controlCharacter => "control character (\\u0000-\\u001F) found while parsing a string"
  | trailingComma => "trailing comma"
  | trailingCharacters => "trailing characters"
  | wrongType found expected => "invalid type: " ++ found.show ++ ", expected " ++ expected
  | wrongValue found expected => "invalid value: " ++ found.show ++ ", expected " ++ expected
  | repeatedField name => "duplicate field `" ++ name ++ "`"
  | missingField name => "missing field `" ++ name ++ "`"
  | tooShort length expected =>
    "invalid length " ++ toString length ++ ", expected " ++ expected

/-- A cause, the rest of the text, and the bytes of the rest that count as read. -/
structure Stop where
  cause : Cause
  rest : List Char
  ahead : Nat
  deriving DecidableEq, Repr

/-- A cause with its line and the bytes read of that line. -/
structure Fault where
  cause : Cause
  line : Nat
  column : Nat
  deriving DecidableEq, Repr

def Fault.message (f : Fault) : String :=
  f.cause.message ++ " at line " ++ toString f.line ++ " column " ++ toString f.column

/-- Line and column behind some bytes of a text that starts at a line and a column. -/
def place (line column : Nat) : Nat → List Char → Nat × Nat
  | bytes, [] => (line, column + bytes)
  | bytes, c :: rest =>
    if bytes < c.utf8Size then (line, column + bytes)
    else if c = '\n' then place (line + 1) 0 (bytes - 1) rest
    else place line (column + c.utf8Size) (bytes - c.utf8Size) rest

/-- A stop in a text as a fault. -/
def Stop.fault (text : List Char) (s : Stop) : Fault :=
  let read := Text.utf8Length text - Text.utf8Length s.rest + s.ahead
  let (line, column) := place 1 0 read text
  ⟨s.cause, line, column⟩

end FirmwareMeta.Json
