import FirmwareMeta.Devicetree.Token
import FirmwareMeta.Devicetree.Tree
import FirmwareMeta.Text.Numeral

/-!
Devicetrees as source. A tree is written as symbols, these as tokens, and the tokens are spelled
out with blanks between them. A symbol is a token or a number, and how a number is written is left
to the caller.
-/
namespace FirmwareMeta.Devicetree

namespace Token

/-- A character of a string between its quotes. -/
def escape (c : Char) : List Char :=
  if c = '\x22' ∨ c = '\\' then ['\\', c] else [c]

def spell : Token → List Char
  | openBrace => ['\x7b']
  | closeBrace => ['\x7d']
  | openAngle => ['<']
  | closeAngle => ['>']
  | openBracket => ['[']
  | closeBracket => [']']
  | semicolon => [';']
  | equals => ['=']
  | comma => [',']
  | slash => ['/']
  | directive => "/dts-v1/".toList
  | label name => name.toList ++ [':']
  | reference target => '&' :: '\x7b' :: target.toList ++ ['\x7d']
  | text value => '\x22' :: value.toList.flatMap escape ++ ['\x22']
  | word name => name.toList

/-- Tokens with blanks between them. -/
def spellAll : List Token → List Char
  | [] => []
  | [t] => t.spell
  | t :: rest => t.spell ++ ' ' :: spellAll rest

end Token

/-- How a number is written. -/
structure Style where
  /-- Or else decimal. Bytes are hexadecimal in any case. -/
  hexadecimal : Bool
  /-- The least number of hexadecimal digits in a cell. -/
  width : Nat
  /-- Whether hexadecimal digits are capitals. -/
  capital : Bool

namespace Style

/-- Hexadecimal digits. -/
def digits (style : Style) (width n : Nat) : List Char :=
  let small := Numeral.hexDigits width n
  if style.capital then small.map Char.toUpper else small

def number (style : Style) (value : UInt64) : List Char :=
  if style.hexadecimal then '0' :: 'x' :: style.digits style.width value.toNat
  else Nat.toDigits 10 value.toNat

def byte (style : Style) (value : UInt8) : List Char := style.digits 2 value.toNat

end Style

/-- What a token is written for. -/
inductive Symbol where
  | token (token : Token)
  | number (value : UInt64)
  | byte (value : UInt8)

namespace Symbol

def write (style : Style) : Symbol → Token
  | token t => t
  | number value => .word (String.ofList (style.number value))
  | byte value => .word (String.ofList (style.byte value))

/-- Each symbol has a style of its own. -/
def writeAll (style : Nat → Style) (symbols : List Symbol) : List Token :=
  symbols.mapIdx fun i symbol => symbol.write (style i)

end Symbol

def Cell.symbol : Cell → Symbol
  | .number value => .number value
  | .reference target => .token (.reference target)

def Value.symbols : Value → List Symbol
  | .text value => [.token (.text value)]
  | .cells list => .token .openAngle :: list.map Cell.symbol ++ [.token .closeAngle]
  | .bytes list => .token .openBracket :: list.map Symbol.byte ++ [.token .closeBracket]
  | .reference target => [.token (.reference target)]

/-- Values with commas between them. -/
def Value.allSymbols : List Value → List Symbol
  | [] => []
  | [v] => v.symbols
  | v :: rest => v.symbols ++ .token .comma :: allSymbols rest

def Property.symbols (p : Property) : List Symbol :=
  .token (.word p.name) ::
    (if p.values.isEmpty then [.token .semicolon]
    else .token .equals :: Value.allSymbols p.values ++ [.token .semicolon])

mutual

/-- A node behind its labels and what it is opened with: properties, and then children. -/
def Node.symbols : Node → List Symbol
  | ⟨_, _, _, properties, children⟩ =>
    .token .openBrace :: properties.flatMap Property.symbols ++ Node.childSymbols children ++
      [.token .closeBrace, .token .semicolon]

def Node.childSymbols : List Node → List Symbol
  | [] => []
  | n :: rest =>
    n.labels.map (.token <| .label ·) ++ .token (.word n.name) :: n.symbols ++
      Node.childSymbols rest

end

def symbols (tree : Devicetree) : List Symbol :=
  tree.root.labels.map (.token <| .label ·) ++ .token .slash :: tree.root.symbols

/-- The source of a tree. -/
def print (style : Nat → Style) (tree : Devicetree) : String :=
  String.ofList (Token.spellAll (Symbol.writeAll style (symbols tree)))

/-! Trees that have a source -/

/-- A text that is a word as a whole. -/
def Token.isWord (text : String) : Bool :=
  match text.toList with
  | c :: rest => isWordStart c && rest.all isWordChar
  | [] => false

/-- A text that can be a label. -/
def Token.isIdentifier (text : String) : Bool :=
  match text.toList with
  | c :: rest => isLetter c && rest.all isLabelChar
  | [] => false

/-- A text that can be referred to in braces. -/
def Token.isTarget (text : String) : Bool := text.toList.all (· ≠ '\x7d')

def Cell.wellFormed : Cell → Bool
  | .number _ => true
  | .reference target => Token.isTarget target

def Value.wellFormed : Value → Bool
  | .cells list => list.all Cell.wellFormed
  | .reference target => Token.isTarget target
  | .text _ | .bytes _ => true

def Property.wellFormed (p : Property) : Bool :=
  Token.isWord p.name && p.values.all Value.wellFormed

/-- Below a node all names can be written, siblings differ by name, and paths follow from names. -/
inductive Node.WellFormed : Node → Prop where
  | intro {n : Node}
      (labels : ∀ l ∈ n.labels, Token.isIdentifier l)
      (properties : ∀ p ∈ n.properties, p.wellFormed)
      (distinct : (n.children.map (·.name)).Nodup)
      (names : ∀ c ∈ n.children, Token.isWord c.name)
      (paths : ∀ c ∈ n.children, c.path = Node.childPath n.path c.name)
      (children : ∀ c ∈ n.children, WellFormed c) :
      WellFormed n

structure WellFormed (tree : Devicetree) : Prop where
  name : tree.root.name = "/"
  path : tree.root.path = "/"
  labels : tree.root.labels.Nodup
  root : tree.root.WellFormed

end FirmwareMeta.Devicetree
