import FirmwareMeta.Decimal.Read
import FirmwareMeta.Text.Numeral
import FirmwareMeta.Toml.Table

/-!
The grammar of keys and values. Lists and tables in values may be nested to a depth.
-/
namespace FirmwareMeta.Toml

/-! Characters -/

def isBlank (c : Char) : Bool := c == ' ' || c == '\t'

def isDigit (c : Char) : Bool := '0' ≤ c && c ≤ '9'

def isHexDigit (c : Char) : Bool := (Numeral.digit? 16 c).isSome

def isOctalDigit (c : Char) : Bool := '0' ≤ c && c ≤ '7'

def isBinaryDigit (c : Char) : Bool := c == '0' || c == '1'

def isSign (c : Char) : Bool := c == '+' || c == '-'

/-- Characters that are not controls, and tabs. -/
def isPlain (c : Char) : Bool := c == '\t' || (' ' ≤ c && c != '\x7f')

/-- What stands for itself in a basic string, and in a literal one. -/
def isBasicChar (c : Char) : Bool := isPlain c && c != '\x22' && c != '\\'

def isLiteralChar (c : Char) : Bool := isPlain c && c != '\''

def isBareKeyChar (c : Char) : Bool :=
  ('a' ≤ c && c ≤ 'z') || ('A' ≤ c && c ≤ 'Z') || isDigit c || c == '-' || c == '_'

namespace Parser

variable {α : Type}

/-! White space -/

def blanks : Parser Unit := do
  let _ ← all isBlank

def newline : Parser Unit :=
  (char '\n').orTry (do char '\r'; char '\n')

def lineEnd : Parser Unit := newline.orTry ended

def comment : Parser Unit := do
  char '#'
  let _ ← all isPlain

/-- What may follow a value or a header in its line. -/
def lineRest : Parser Unit :=
  (do blanks; let _ ← comment.optional; lineEnd)
    |>.expected "newline" |>.expected "`#`"

/-- White space over several lines, at least one line end. -/
def blankLines : Parser Unit := do
  newline
  let _ ← many (newline.orTry (do let _ ← span isBlank 1 none))

/-- White space and comments over several lines. -/
def gap (bound : Nat) : Parser Unit := do
  match bound with
  | 0 => pure ()
  | bound + 1 => do
    blanks
    match ← next? with
    | some '#' => comment; newline; gap bound
    | some '\n' => newline; gap bound
    | some '\r' => newline; gap bound
    | _ => pure ()

def gaps : Parser Unit := do
  gap ((← get).rest.length + 1)

/-! Strings -/

/-- The character of a number that is written with so many hexadecimal digits. -/
def codePoint (digits : Nat) : Parser Char :=
  ((span isHexDigit 0 (some digits)).guard fun t => t.length == digits).convert fun t =>
    match Numeral.digits? 16 t with
    | some n => if h : n.isValidChar then .ok (Char.ofNatAux n h) else .error .outOfRange
    | none => .error .outOfRange

/-- Refuses a character behind a backslash that nothing is written with. -/
def badEscape : Parser Char := fun c =>
  let width := match c.rest with
    | ch :: _ => if ch.utf8Size = 1 then 1 else 0
    | [] => 0
  let expected := ["`b`", "`f`", "`n`", "`r`", "`t`", "`u`", "`U`", "`\\`", "`\"`"]
  .error ⟨true, c.offset + width, .label "escape sequence" :: expected.map .expected, none⟩

/-- A backslash and what follows it. -/
def escape : Parser Char := do
  char '\\'
  match ← next? with
  | some 'b' => advance 1; pure '\x08'
  | some 'f' => advance 1; pure '\x0c'
  | some 'n' => advance 1; pure '\n'
  | some 'r' => advance 1; pure '\r'
  | some 't' => advance 1; pure '\t'
  | some '\\' => advance 1; pure '\\'
  | some '\x22' => advance 1; pure '\x22'
  | some 'u' => advance 1; (codePoint 4).commit.label "unicode 4-digit hex code"
  | some 'U' => advance 1; (codePoint 8).commit.label "unicode 8-digit hex code"
  | some _ => badEscape
  | none => fail

def basicString : Parser (List Char) := do
  char '\x22'
  let parts ← many ((span isBasicChar 1 none).orTry (List.singleton <$> escape))
  (char '\x22').commit.label "basic string"
  pure parts.flatten

def literalString : Parser (List Char) :=
  (do
    char '\''
    let content ← all isLiteralChar
    (char '\'').commit
    pure content)
    |>.label "literal string"

def basicDelimiter : Parser Unit := text ['\x22', '\x22', '\x22']

def literalDelimiter : Parser Unit := text ['\'', '\'', '\'']

/-- A backslash at the end of a line and the white space from there on. -/
def joinedLine : Parser Unit := do
  char '\\'
  blanks
  blankLines

/-- A piece of a basic string over several lines. -/
def basicPiece : Parser (List Char) :=
  (span isBasicChar 1 none)
    |>.orTry (do joinedLine; let _ ← many joinedLine; pure [])
    |>.orTry (List.singleton <$> escape)
    |>.orTry (do newline; pure ['\n'])

/-- A piece of a literal string over several lines. -/
def literalPiece : Parser (List Char) :=
  (List.singleton <$> one isLiteralChar).orTry (do newline; pure ['\n'])

/-- Two quotes or one, in front of something that is not read. -/
def quotes (quote : Char) (following : Parser Unit) : Parser (List Char) :=
  (do text [quote, quote]; following.ahead; pure [quote, quote])
    |>.orTry (do char quote; following.ahead; pure [quote])

/-- Pieces with up to two quotes between them and behind them. -/
def pieces (piece : Parser (List Char)) (quote : Char) (delimiter : Parser Unit) :
    Parser (List Char) := do
  let first ← many piece
  let more ← many (do
    let between ← quotes quote (do let _ ← piece)
    let p ← piece
    let following ← many piece
    pure (between ++ p ++ following.flatten))
  let last ← (quotes quote delimiter).optional
  pure (first.flatten ++ more.flatten ++ last.getD [])

/-- A string over several lines. A line end behind the opening quotes does not count. -/
def longString (name : String) (piece : Parser (List Char)) (quote : Char)
    (delimiter : Parser Unit) : Parser (List Char) :=
  (do
    delimiter
    let _ ← newline.optional
    let content ← (pieces piece quote delimiter).commit
    delimiter.commit
    pure content)
    |>.label name

def string : Parser (List Char) :=
  (longString "multiline basic string" basicPiece '\x22' basicDelimiter)
    |>.orTry basicString
    |>.orTry (longString "multiline literal string" literalPiece '\'' literalDelimiter)
    |>.orTry literalString

/-! Keys -/

/-- Parts of a key, and lists and tables around a value. -/
def maxDepth : Nat := 80

def simpleKey : Parser (List Char) := do
  match ← next? with
  | some '\x22' => basicString
  | some '\'' => literalString
  | some _ => span isBareKeyChar 1 none
  | none => fail

/-- A key of one part or of several. -/
def key : Parser (List Key) :=
  (separated
    (do
      blanks
      let (name, at') ← simpleKey.spanned
      blanks
      pure (⟨String.ofList name, at'⟩ : Key))
    (char '.'))
    |>.label "key"
    |>.convert fun keys => if maxDepth ≤ keys.length then .error .tooDeep else .ok keys

/-! Numbers -/

/-- More digits, each with an underscore in front of it or not. -/
def moreDigits (holds : Char → Bool) : Parser Unit := do
  let _ ← many ((do let _ ← one holds).orTry
    (do char '_'; let _ ← (one holds).commit.expected "digit"))

def decimal : Parser Unit :=
  (do
    let _ ← (one isSign).optional
    (do let _ ← one (fun c => isDigit c && c != '0'); moreDigits isDigit).orTry
      (do let _ ← one isDigit))
    |>.label "integer"

def digitRun : Parser Unit := do
  let _ ← one isDigit
  moreDigits isDigit

def exponent : Parser Unit := do
  let _ ← one fun c => c == 'e' || c == 'E'
  let _ ← (one isSign).optional
  digitRun.commit

def fraction : Parser Unit := do
  char '.'
  digitRun.commit.expected "digit"

/-- Integers have 64 bits. -/
def integerValue (n : Int) : Except Cause Value :=
  if n < -0x8000000000000000 then .error .tooSmall
  else if 0x8000000000000000 ≤ n then .error .tooLarge
  else .ok (.integer n)

/-- An integer behind its radix. -/
def radixInteger (name : String) (radix : Nat) (holds : Char → Bool) : Parser Value :=
  let digits : Parser (List Char) := do
    advance 2
    (taken (do let _ ← one holds; moreDigits holds)).commit
  ((digits.label name).convert fun t =>
    integerValue ((Numeral.digits? radix (t.filter (· ≠ '_'))).getD 0)).commit

/-- A result whose reading is done; a cause of refusal is final from here on. -/
def settled (p : Parser (List Char)) (f : List Char → Except Cause Value) : Parser Value :=
  fun c =>
    match p c with
    | .error r => .error r
    | .ok (t, after) =>
      match f t with
      | .ok v => .ok (v, after)
      | .error cause => .error ⟨true, c.offset, [], some cause⟩

def integer : Parser Value := do
  match (← get).rest with
  | '0' :: 'x' :: _ => radixInteger "hexadecimal integer" 16 isHexDigit
  | '0' :: 'o' :: _ => radixInteger "octal integer" 8 isOctalDigit
  | '0' :: 'b' :: _ => radixInteger "binary integer" 2 isBinaryDigit
  | _ => settled (taken decimal) fun t => integerValue (Decimal.integerOf t)

def infinity : UInt64 := 0x7FF0000000000000
def notNumber : UInt64 := 0x7FF8000000000000
def signBit : UInt64 := 0x8000000000000000

/-- The bits of infinity, and of what is no number. -/
def infinityName : Parser UInt64 := do
  text ['i', 'n', 'f']
  pure infinity

def notNumberName : Parser UInt64 := do
  text ['n', 'a', 'n']
  pure notNumber

def namedFloat : Parser Value := do
  let sign ← (one isSign).optional
  let bits ← infinityName.orTry notNumberName
  pure (.float (if sign = some '-' then bits ^^^ signBit else bits))

/-- A numeral with a fraction or an exponent. It is not too large. -/
def numeral : Parser Value := fun c =>
  let form : Parser Unit := do
    decimal
    exponent.orTry (do fraction; let _ ← exponent.optional)
  match form.taken c with
  | .error r => .error r
  | .ok (t, after) =>
    let bits := Decimal.bitsOfNumeral (t.filter (· ≠ '_'))
    if bits = infinity then .error ⟨true, c.offset, [], none⟩ else .ok (.float bits, after)

def float : Parser Value := (numeral.orTry namedFloat).label "floating-point number"

/-! Dates and times -/

/-- A number of so many digits. -/
def digitsOf (count : Nat) : Parser Nat :=
  Decimal.naturalOf <$> span isDigit count (some count)

/-- A number of two digits between bounds. -/
def twoDigits (least most : Nat) : Parser Nat :=
  (digitsOf 2).convert fun n => if least ≤ n ∧ n ≤ most then .ok n else .error .outOfRange

def isLeapYear (year : Nat) : Bool := year % 4 = 0 && (year % 100 ≠ 0 || year % 400 = 0)

def daysIn (year month : Nat) : Nat :=
  if month = 2 then (if isLeapYear year then 29 else 28)
  else if month ∈ [4, 6, 9, 11] then 30
  else 31

def date : Parser Unit := do
  let year ← digitsOf 4
  char '-'
  let month ← (twoDigits 1 12).commit
  (char '-').commit
  let _ ← ((twoDigits 1 31).convert fun day =>
    if daysIn year month < day then .error .outOfRange else .ok ()).commit

def time : Parser Unit := do
  let _ ← twoDigits 0 23
  char ':'
  commit do
    let _ ← twoDigits 0 59
    char ':'
    let _ ← twoDigits 0 60
    let _ ← (do char '.'; let _ ← span isDigit 1 none : Parser Unit).optional

def timeOffset : Parser Unit :=
  (do let _ ← one fun c => c == 'Z' || c == 'z')
    |>.orTry (do
      let _ ← one isSign
      commit do
        let _ ← twoDigits 0 23
        char ':'
        let _ ← twoDigits 0 59)
    |>.label "time offset"

/-- What may follow a date. -/
def timeBehind : Parser Unit := do
  let _ ← one fun c => c == 'T' || c == 't' || c == ' '
  time
  let _ ← timeOffset.optional

def fullDate : Parser Unit := do
  date
  let _ ← timeBehind.optional

def dateTime : Parser Value := do
  (fullDate.label "date-time").orTry (time.label "time")
  pure .datetime

/-! Values -/

/-- What to say of a text that is no value. -/
def likeString (p : Parser α) : Parser α :=
  ((p.label "string").expected "`\"`").expected "`'`"

/-- A list, given the parser of its items. -/
def array (item : Parser (Value × Span)) : Parser Value := do
  char '['
  commit do
    if (← next?) ≠ some ']' then
      let items ← separatedOrNone (do gaps; let _ ← item; gaps) (char ',')
      if !items.isEmpty then
        let _ ← (char ',').optional
      gaps
  ((char ']').commit.label "array").expected "`]`"
  pure .array

/-- A key and its value. -/
def keyValue (item : Parser (Value × Span)) (behind : Parser Unit) :
    Parser (List Key × Value × Span) := do
  let path ← key
  commit do
    let _ ← ((one (· == '=')).expected "`.`").expected "`=`"
    blanks
    let v ← item
    behind
    pure (path, v)

/-- A table in a value, given the parser of its values. -/
def inlineTable (item : Parser (Value × Span)) : Parser Value := do
  char '\x7b'
  let pairs := do
    let pairs ← separatedOrNone (keyValue item blanks) (char ',')
    blanks
    pure pairs
  let _ ← (pairs.convert Table.ofPairs).commit
  ((char '\x7d').commit.label "inline table").expected "`\x7d`"
  pure .inlineTable

/-- A value that begins with a character and holds no other values. -/
def scalar (first : Char) : Parser Value :=
  match first with
  | '\x22' => .text <$> String.ofList <$> string
  | '\'' => .text <$> String.ofList <$> string
  | '_' => integer.expected "leading digit"
  | '.' => float.expected "leading digit"
  | 't' => likeString do (text ['t', 'r', 'u', 'e']).commit; pure (.boolean true)
  | 'f' => likeString do (text ['f', 'a', 'l', 's', 'e']).commit; pure (.boolean false)
  | 'i' => likeString (.float <$> infinityName)
  | 'n' => likeString (.float <$> notNumberName)
  | c =>
    if isSign c || isDigit c then (dateTime.orTry float).orTry integer else likeString fail

/-- Refuses to go deeper. -/
def tooDeep : Parser Value := fun c => .error ⟨true, c.offset, [], some .tooDeep⟩

/-- A value inside of which lists and tables may be nested to a depth. -/
def value (depth : Nat) : Parser (Value × Span) :=
  spanned do
    match depth, ← next? with
    | _, none => fail
    | depth, some c =>
      if c = '[' ∨ c = '\x7b' then
        match depth with
        | 0 => tooDeep
        | depth + 1 => if c = '[' then array (value depth) else inlineTable (value depth)
      else scalar c

end Parser
end FirmwareMeta.Toml
