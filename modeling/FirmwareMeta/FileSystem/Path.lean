/-!
Path names as text. Joining keeps the text of both parts; two paths are equivalent when their
components agree, so that repeated separators, `.` inside a path and a separator at its end do
not count, while `..` does.
-/
namespace FirmwareMeta

structure Path where
  text : String
  deriving DecidableEq, Repr

namespace Path

inductive Component where
  | root
  | here
  | up
  | name (text : String)
  deriving DecidableEq, Repr

/-- The pieces of a text between its separators. -/
def split (text : List Char) : List (List Char) :=
  text.foldr (fun c pieces =>
    if c = '/' then [] :: pieces
    else match pieces with
      | [] => [[c]]
      | piece :: rest => (c :: piece) :: rest) [[]]

def isAbsolute (p : Path) : Bool :=
  p.text.toList.head? = some '/'

/-- The component of a piece that does not open the path; `.` and an empty piece have none. -/
def Component.inner? : List Char → Option Component
  | [] => none
  | ['.'] => none
  | ['.', '.'] => some .up
  | piece => some (.name (String.ofList piece))

def Component.first? : List Char → Option Component
  | ['.'] => some .here
  | piece => inner? piece

/-- The components of a path. A leading separator is the root. -/
def components (p : Path) : List Component :=
  match split p.text.toList with
  | [] => []
  | first :: rest =>
    let inner := rest.filterMap Component.inner?
    if p.isAbsolute then .root :: inner
    else match Component.first? first with
      | some component => component :: inner
      | none => inner

def equivalent (p q : Path) : Bool := p.components == q.components

/-- `q` seen from the directory `p`. -/
def join (p q : Path) : Path :=
  if q.isAbsolute || p.text.isEmpty then q
  else if p.text.toList.getLast? = some '/' then ⟨p.text ++ q.text⟩
  else ⟨p.text ++ "/" ++ q.text⟩

/-- The last component, if it is a name. -/
def fileName? (p : Path) : Option String :=
  match p.components.getLast? with
  | some (.name text) => some text
  | _ => none

/-- The part of the last name behind its last dot, unless that dot opens the name. -/
def extension? (p : Path) : Option String := do
  let name ← p.fileName?
  let tail := name.toList.reverse.takeWhile (· ≠ '.')
  if tail.length + 1 < name.length then some (String.ofList tail.reverse) else none

/-- Extensions are compared without regard to the case of ASCII letters. -/
def hasExtension (p : Path) (extension : String) : Bool :=
  p.extension?.any fun e => e.toLower == extension.toLower

/-- Pieces from the last one back, without those at the end that are no component. The opening
piece stays. -/
def dropVoid : List (List Char) → List (List Char)
  | [first] => [first]
  | piece :: rest => if (Component.inner? piece).isNone then dropVoid rest else piece :: rest
  | [] => []

/-- The path without its last component; `none` for the root and for an empty path. -/
def parent? (p : Path) : Option Path :=
  let joined (pieces : List (List Char)) : Path :=
    match pieces.reverse with
    | [[]] => ⟨"/"⟩
    | pieces => ⟨"/".intercalate (pieces.map String.ofList)⟩
  match dropVoid (split p.text.toList).reverse with
  | [] => none
  | [[]] => none
  | [_] => some ⟨""⟩
  | _ :: before => some (joined (dropVoid before))

end Path
end FirmwareMeta
