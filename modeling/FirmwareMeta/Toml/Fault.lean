/-!
Why a TOML text is refused, where, and how that is shown: the line with the place marked below
it, and the message.
-/
namespace FirmwareMeta.Toml

/-- Bytes of a text, from `start` up to `stop`. -/
structure Span where
  start : Nat
  stop : Nat
  deriving DecidableEq, Repr

/-- What a parser knows about what it is reading. -/
inductive Hint where
  /-- What is being read. -/
  | label (name : String)
  /-- What could stand in the place. -/
  | expected (what : String)
  deriving DecidableEq, Repr

def Hint.label? : Hint → Option String
  | label name => some name
  | expected _ => none

def Hint.expected? : Hint → Option String
  | label _ => none
  | expected what => some what

inductive Cause where
  /-- A key that is there already, with the path of the table if that is known. -/
  | duplicateKey (key : String) (table : Option (List String))
  /-- A path that leads through something that is no table. -/
  | notTable (path : List String) (type : String)
  | outOfRange
  | tooLarge
  | tooSmall
  | tooDeep
  deriving DecidableEq, Repr

def Cause.message : Cause → String
  | duplicateKey key none => "duplicate key `" ++ key ++ "`"
  | duplicateKey key (some []) => "duplicate key `" ++ key ++ "` in document root"
  | duplicateKey key (some path) =>
    "duplicate key `" ++ key ++ "` in table `" ++ ".".intercalate path ++ "`"
  | notTable path type =>
    "dotted key `" ++ ".".intercalate path ++ "` attempted to extend non-table type (" ++
      type ++ ")"
  | outOfRange => "value is out of range"
  | tooLarge => "number too large to fit in target type"
  | tooSmall => "number too small to fit in target type"
  | tooDeep => "recursion limit exceeded"

/-- Where and why a parser does not go on. -/
structure Refusal where
  /-- Whether no other way to read the text is tried. -/
  final : Bool
  offset : Nat
  /-- The innermost first. -/
  hints : List Hint
  cause : Option Cause
  deriving DecidableEq, Repr

/-- The innermost label, all that was expected and the cause, each on a line. -/
def Refusal.message (r : Refusal) : String :=
  let label := match r.hints.findSome? Hint.label? with
    | some name => ["invalid " ++ name]
    | none => []
  let expected := match r.hints.filterMap Hint.expected? with
    | [] => []
    | what => ["expected " ++ ", ".intercalate what]
  let cause := match r.cause with
    | some cause => [cause.message]
    | none => []
  "\n".intercalate (label ++ expected ++ cause)

/-- A message about a part of a text. -/
structure Fault where
  span : Span
  message : String
  deriving DecidableEq, Repr

/-- The byte at which the character of a byte starts, and the one behind that character. Behind
the text both are the end. -/
def characterAt (start offset : Nat) : List Char → Span
  | [] => ⟨start, start⟩
  | c :: rest =>
    if offset < start + c.utf8Size then ⟨start, start + c.utf8Size⟩
    else characterAt (start + c.utf8Size) offset rest

def Refusal.fault (text : List Char) (r : Refusal) : Fault :=
  ⟨characterAt 0 r.offset text, r.message⟩

/-- Line and column of a byte, both counted from zero, in a text that starts at a byte, a line
and a column. In front of a byte inside its line columns are characters, and bytes if the
character at the byte has several. The end counts as one column behind the last byte. -/
def position (offset start line column bytes : Nat) : List Char → Nat × Nat
  | [] => (line, column)
  | [c] =>
    if offset < start + c.utf8Size then (line, if c.utf8Size = 1 then column else bytes)
    else (line, column + 1)
  | c :: rest =>
    if offset < start + c.utf8Size then (line, if c.utf8Size = 1 then column else bytes)
    else if c = '\n' then position offset (start + 1) (line + 1) 0 0 rest
    else position offset (start + c.utf8Size) line (column + 1) (bytes + c.utf8Size) rest

/-- The text of a line. -/
def lineAt (line : Nat) (text : List Char) : List Char :=
  match line, text with
  | 0, text => text.takeWhile (· ≠ '\n')
  | line + 1, text => lineAt line (text.dropWhile (· ≠ '\n')).tail

/-- The fault as it is shown. At least one place is marked, and no more than the line has
bytes. -/
def Fault.render (text : List Char) (f : Fault) : String :=
  let (line, column) := position f.span.start 0 0 0 0 text
  let content := String.ofList (lineAt line text)
  let number := toString (line + 1)
  let blanks (n : Nat) : String := String.ofList (List.replicate n ' ')
  let marked := max 1 (min (f.span.stop - f.span.start) content.utf8ByteSize)
  "TOML parse error at line " ++ number ++ ", column " ++ toString (column + 1) ++ "\n" ++
    blanks (number.length + 1) ++ "|\n" ++
    number ++ " | " ++ content ++ "\n" ++
    blanks (number.length + 1) ++ "|" ++ blanks (column + 1) ++
    String.ofList (List.replicate marked '^') ++ "\n" ++
    f.message ++ "\n"

end FirmwareMeta.Toml
