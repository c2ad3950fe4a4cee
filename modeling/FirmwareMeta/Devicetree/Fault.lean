import FirmwareMeta.Text.Quoted

/-!
Why a devicetree source is refused, and where.
-/
namespace FirmwareMeta.Devicetree

/-- What could have stood in a place. -/
inductive Expected where
  | directiveOrRoot
  | rootSlash
  | nodeOpening
  | statementEnd
  | item
  | itemName
  | definition
  | value
  | valueEnd
  | cell
  | byte
  deriving DecidableEq, Repr

def Expected.text : Expected → String
  | directiveOrRoot => "a directive or the root node"
  | rootSlash => "Root"
  | nodeOpening => "LBrace"
  | statementEnd => "Semi"
  | item => "a property, a child node or '\x7d'"
  | itemName => "a node or property name"
  | definition => "'\x7b', '=' or ';'"
  | value => "a property value"
  | valueEnd => "',' or ';' after property value"
  | cell => "a cell value or '>'"
  | byte => "a byte or ']'"

inductive Cause where
  | unterminatedComment
  /-- A text that begins no token, or a token that breaks off. -/
  | unexpected (text : List Char)
  | unterminatedDirective
  | expected (what : Expected)
  | invalidCell (word : String)
  | oddDigits
  | invalidByte
  deriving DecidableEq, Repr

def Cause.message : Cause → String
  | unterminatedComment => "unterminated comment"
  | unexpected text => "unexpected character " ++ Text.quote text
  | unterminatedDirective => "unterminated directive"
  | expected what => "expected " ++ what.text
  | invalidCell word => "invalid cell value " ++ Text.quote word.toList
  | oddDigits => "odd number of hex digits in byte string"
  | invalidByte => "invalid byte in byte string"

/-- A cause and its place, counted in bytes from the start of the source. -/
structure Fault where
  offset : Nat
  cause : Cause
  deriving DecidableEq, Repr

def Fault.message (f : Fault) : String :=
  "offset " ++ toString f.offset ++ ": " ++ f.cause.message

end FirmwareMeta.Devicetree
