import FirmwareMeta.Association
import FirmwareMeta.Config.Dialect
import FirmwareMeta.Text.Numeral
import FirmwareMeta.Word

/-!
The options of a configuration file, in the order of their first assignment. A later assignment
changes the value and keeps the place.
-/
namespace FirmwareMeta.Config

structure Options where
  entries : List (String × String)
  deriving DecidableEq, Repr

namespace Options

def empty : Options := ⟨[]⟩

/-- Assigns a value in a list of entries that has each key once. -/
def assignIn (key value : String) : List (String × String) → List (String × String)
  | [] => [(key, value)]
  | (k, v) :: rest => if k = key then (key, value) :: rest else (k, v) :: assignIn key value rest

def assign (o : Options) (key value : String) : Options :=
  ⟨assignIn key value o.entries⟩

/-- Takes in the lines of a text from a number on. -/
def readLines (dialect : Dialect) (o : Options) : Nat → List (List Char) →
    Except SyntaxError Options
  | _, [] => .ok o
  | number, line :: rest =>
    match readLine dialect number line with
    | .error e => .error e
    | .ok none => readLines dialect o (number + 1) rest
    | .ok (some (key, value)) =>
      readLines dialect (o.assign (String.ofList key) (String.ofList value)) (number + 1) rest

def parse (dialect : Dialect) (text : String) : Except SyntaxError Options :=
  readLines dialect empty 1 (Text.cut text.toList)

def get? (o : Options) (key : String) : Option String := o.entries.lookup key

theorem get?_assign (o : Options) (key value q : String) :
    (o.assign key value).get? q = if q = key then some value else o.get? q := by
  unfold assign get?
  generalize o.entries = entries
  induction entries with
  | nil => rw [assignIn, Association.lookup_cons]
  | cons x rest ih =>
    obtain ⟨k, v⟩ := x
    rw [assignIn]
    split
    · rename_i same
      rw [Association.lookup_cons, Association.lookup_cons, same]
      split <;> rfl
    · rename_i different
      rw [Association.lookup_cons, Association.lookup_cons, ih]
      grind

def contains (o : Options) (key : String) : Bool := (o.get? key).isSome

def size (o : Options) : Nat := o.entries.length

/-- A value without one pair of surrounding double quotes. -/
def unquote (value : String) : String :=
  match value.toList with
  | '\x22' :: rest =>
    if rest.getLast? = some '\x22' then String.ofList rest.dropLast else value
  | _ => value

def unquoted? (o : Options) (key : String) : Option String := (o.get? key).map unquote

/-- A word in decimal notation, or in hexadecimal behind `0x`. -/
def word? (value : String) : Option UInt32 :=
  let read := match value.toList with
    | '0' :: 'x' :: digits => Numeral.read? 16 Word.limit digits
    | '0' :: 'X' :: digits => Numeral.read? 16 Word.limit digits
    | digits => Numeral.read? 10 Word.limit digits
  read.map .ofNat

end Options
end FirmwareMeta.Config
