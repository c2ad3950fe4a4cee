import FirmwareMeta.Text.Line
import FirmwareMeta.Text.Blank

/-!
The line grammars of flat option files: the CMake cache (`NAME:TYPE=VALUE`) and Kconfig
(`CONFIG_NAME=VALUE`). A dialect says which lines count and how a line splits into key and
value.
-/
namespace FirmwareMeta.Config

inductive Dialect where
  | cmakeCache
  | kconfig
  deriving DecidableEq, Repr

/-- The text in front of the first occurrence of a character, and the text behind it. -/
def splitAt? (mark : Char) (text : List Char) : Option (List Char × List Char) :=
  match text.dropWhile (· ≠ mark) with
  | [] => none
  | _ :: after => some (text.takeWhile (· ≠ mark), after)

namespace Dialect

def name : Dialect → String
  | cmakeCache => "CMake cache"
  | kconfig => "Kconfig"

/-- Lines of the cache with fewer bytes, the terminator counted as one, say nothing. -/
def shortLine : Nat := 4

/-- Whether a line counts. The line has its terminator, and that is a single newline. -/
def accepts : Dialect → List Char → Bool
  | cmakeCache, line =>
    !(['#'].isPrefixOf line || ['/', '/'].isPrefixOf line || Text.utf8Length line < shortLine)
  | kconfig, line =>
    "CONFIG_".toList.isPrefixOf line || "SB_CONFIG_".toList.isPrefixOf line

/-- Key and value of a line without its terminator. In the cache the key ends at the first colon
in front of the first equals sign. -/
def split? : Dialect → List Char → Option (List Char × List Char)
  | cmakeCache, line => do
    let (key, value) ← splitAt? '=' line
    let (key, _) ← splitAt? ':' key
    pure (key, value)
  | kconfig, line => splitAt? '=' line

end Dialect

/-- A line that counts but has no key and value. Lines are numbered from one. -/
structure SyntaxError where
  line : Nat
  text : List Char
  deriving DecidableEq, Repr

def SyntaxError.message (e : SyntaxError) : String :=
  "line " ++ toString e.line ++ ": malformed entry \"" ++ String.ofList e.text ++ "\""

/-- A line whose CRLF terminator is reduced to a newline. -/
def unixLine (line : List Char) : List Char :=
  match line.reverse with
  | '\n' :: '\r' :: rest => (('\n') :: rest).reverse
  | _ => line

/-- What a line contributes: nothing, an assignment, or an error. -/
def readLine (dialect : Dialect) (number : Nat) (line : List Char) :
    Except SyntaxError (Option (List Char × List Char)) :=
  let line := unixLine line
  if !dialect.accepts line then .ok none
  else
    let text := Text.dropEnd (fun c => c = '\n' || c = '\r') line
    match dialect.split? text with
    | some (key, value) => .ok (some (key, Text.trim value))
    | none => .error ⟨number, text⟩

end FirmwareMeta.Config
