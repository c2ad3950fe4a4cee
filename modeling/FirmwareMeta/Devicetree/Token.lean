import FirmwareMeta.Devicetree.Fault

/-!
Tokens of devicetree source. The text is read from the left; what stands there is a gap, the
longest token, or a fault. All of the source is read before any of it is given a meaning.
-/
namespace FirmwareMeta.Devicetree

inductive Token where
  | openBrace
  | closeBrace
  | openAngle
  | closeAngle
  | openBracket
  | closeBracket
  | semicolon
  | equals
  | comma
  | slash
  /-- A name between slashes, such as `/dts-v1/`. -/
  | directive
  /-- A name with a colon behind it. -/
  | label (name : String)
  /-- A name behind an ampersand, or a text in braces there. -/
  | reference (target : String)
  | text (value : String)
  /-- A name of a node or property, a number, or digits of bytes. -/
  | word (text : String)
  deriving DecidableEq, Repr

namespace Token

def isLetter (c : Char) : Bool :=
  ('a' ≤ c && c ≤ 'z') || ('A' ≤ c && c ≤ 'Z') || c == '_'

def isDigit (c : Char) : Bool := '0' ≤ c && c ≤ '9'

def isLabelChar (c : Char) : Bool := isLetter c || isDigit c

def isDirectiveStart (c : Char) : Bool := 'a' ≤ c && c ≤ 'z'

def isDirectiveChar (c : Char) : Bool := isDirectiveStart c || isDigit c || c == '-'

def isWordStart (c : Char) : Bool :=
  isLabelChar c || c == '.' || c == '+' || c == '-' || c == '@' || c == '#' || c == '?'

def isWordChar (c : Char) : Bool := isWordStart c || c == ','

def isBlank (c : Char) : Bool :=
  c == ' ' || c == '\t' || c == '\r' || c == '\n' || c == '\x0c'

/-- The characters up to and including the end of a comment, if it has one. -/
def commentLength? : List Char → Option Nat
  | '*' :: '/' :: _ => some 2
  | _ :: rest => (commentLength? rest).map (· + 1)
  | [] => none

/-- What stands between the quotes of a string, and whether it is closed. A backslash needs a
character behind it, and that is no newline. -/
def stringBody : List Char → List Char × Bool
  | '\x22' :: _ => ([], true)
  | '\\' :: '\n' :: _ => ([], false)
  | '\\' :: c :: rest =>
    let (body, closed) := stringBody rest
    ('\\' :: c :: body, closed)
  | ['\\'] => ([], false)
  | c :: rest =>
    let (body, closed) := stringBody rest
    (c :: body, closed)
  | [] => ([], false)

/-- The character that a backslash and another character stand for. -/
def unescaped : Char → Char
  | 'n' => '\n'
  | 't' => '\t'
  | 'r' => '\r'
  | '0' => '\x00'
  | c => c

def unescape : List Char → List Char
  | '\\' :: c :: rest => unescaped c :: unescape rest
  | ['\\'] => []
  | c :: rest => c :: unescape rest
  | [] => []

end Token

/-- What stands at the front of a text, and how many characters of it follow the first one. -/
inductive Lexeme where
  | gap (more : Nat)
  | token (token : Token) (more : Nat)
  | fault (cause : Cause)
  deriving DecidableEq, Repr

namespace Lexeme

/-- Behind a slash: a comment, a directive or nothing. A small letter there begins a
directive in any case. -/
def ofSlash (rest : List Char) : Lexeme :=
  match rest with
  | '/' :: line => .gap ((line.takeWhile (· ≠ '\n')).length + 1)
  | '*' :: text =>
    match Token.commentLength? text with
    | some n => .gap (n + 1)
    | none => .fault .unterminatedComment
  | c :: _ =>
    if Token.isDirectiveStart c then
      let name := rest.takeWhile Token.isDirectiveChar
      if (rest.drop name.length).head? = some '/' then .token .directive (name.length + 1)
      else .fault (.unexpected ('/' :: name))
    else .token .slash 0
  | [] => .token .slash 0

def ofAmpersand (rest : List Char) : Lexeme :=
  match rest with
  | '\x7b' :: text =>
    let target := text.takeWhile (· ≠ '\x7d')
    if target.length < text.length then
      .token (.reference (String.ofList target)) (target.length + 2)
    else .fault (.unexpected ('&' :: rest))
  | c :: _ =>
    if Token.isLetter c then
      let target := rest.takeWhile Token.isLabelChar
      .token (.reference (String.ofList target)) target.length
    else .fault (.unexpected ['&'])
  | [] => .fault (.unexpected ['&'])

def ofQuote (rest : List Char) : Lexeme :=
  let (body, closed) := Token.stringBody rest
  if closed then .token (.text (String.ofList (Token.unescape body))) (body.length + 1)
  else .fault (.unexpected ('\x22' :: body))

/-- A word, or a label if the whole word can be one and a colon follows. -/
def ofName (first : Char) (rest : List Char) : Lexeme :=
  let more := rest.takeWhile Token.isWordChar
  let name := first :: more
  if Token.isLetter first && name.all Token.isLabelChar
      && (rest.drop more.length).head? == some ':' then
    .token (.label (String.ofList name)) (more.length + 1)
  else .token (.word (String.ofList name)) more.length

/-- What begins with a character. -/
def read (c : Char) (rest : List Char) : Lexeme :=
  match c with
  | '\x7b' => .token .openBrace 0
  | '\x7d' => .token .closeBrace 0
  | '<' => .token .openAngle 0
  | '>' => .token .closeAngle 0
  | '[' => .token .openBracket 0
  | ']' => .token .closeBracket 0
  | ';' => .token .semicolon 0
  | '=' => .token .equals 0
  | ',' => .token .comma 0
  | '/' => ofSlash rest
  | '&' => ofAmpersand rest
  | '\x22' => ofQuote rest
  | c =>
    if Token.isBlank c then .gap 0
    else if Token.isWordStart c then ofName c rest
    else .fault (.unexpected [c])

end Lexeme

/-- A token and the byte at which it begins. -/
structure Placed where
  token : Token
  offset : Nat
  deriving DecidableEq, Repr

/-- The tokens of a text that starts at a byte. The first `skip` characters belong to what was
read before. -/
def Placed.scan (skip offset : Nat) : List Char → Except Fault (List Placed)
  | [] => .ok []
  | c :: rest =>
    let next := offset + c.utf8Size
    match skip with
    | skip + 1 => scan skip next rest
    | 0 =>
      match Lexeme.read c rest with
      | .gap more => scan more next rest
      | .token token more =>
        match scan more next rest with
        | .ok tokens => .ok (⟨token, offset⟩ :: tokens)
        | .error fault => .error fault
      | .fault cause => .error ⟨offset, cause⟩

/-- The tokens of a source. -/
def Token.read (source : String) : Except Fault (List Placed) :=
  Placed.scan 0 0 source.toList

end FirmwareMeta.Devicetree
