import FirmwareMeta.FileSystem.Path

/-!
A file system without links as plain data: the entries below a root, the directory that relative
paths start from, and the operations of a program on it. Paths are resolved component by
component, so each directory on the way has to exist, also in front of `..`.
-/
namespace FirmwareMeta

/-- Why an operation on files or on the standard output fails. -/
inductive IoError where
  | notFound
  | notDirectory
  | isDirectory
  | busy
  | invalidArgument
  | nameTooLong
  | nullInPath
  | notText
  | other (text : String)
  deriving DecidableEq, Repr

def IoError.message : IoError → String
  | notFound => "No such file or directory (os error 2)"
  | notDirectory => "Not a directory (os error 20)"
  | isDirectory => "Is a directory (os error 21)"
  | busy => "Device or resource busy (os error 16)"
  | invalidArgument => "Invalid argument (os error 22)"
  | nameTooLong => "File name too long (os error 36)"
  | nullInPath => "file name contained an unexpected NUL byte"
  | notText => "stream did not contain valid UTF-8"
  | other text => text

inductive FileKind where
  | file
  | directory
  deriving DecidableEq, Repr

inductive Entry where
  | file (content : ByteArray)
  | directory

def Entry.kind : Entry → FileKind
  | file _ => .file
  | directory => .directory

/-- A place in the tree: the names on the way to it, the innermost first. -/
abbrev Location := List String

structure FileSystem where
  /-- What is below the root, each place once. -/
  entries : List (Location × Entry)
  /-- Where relative paths start. -/
  here : Location

namespace FileSystem

/-- Bytes in a name and, with the one that ends it, in a path. -/
def maxName : Nat := 255
def maxPath : Nat := 4096

def get? (fs : FileSystem) (place : Location) : Option Entry :=
  if place = [] then some .directory else fs.entries.lookup place

def kindOf? (fs : FileSystem) (place : Location) : Option FileKind :=
  (fs.get? place).map Entry.kind

/-- Puts an entry in a place, instead of one that is there. -/
def put (fs : FileSystem) (place : Location) (e : Entry) : FileSystem :=
  { fs with entries := if (fs.entries.lookup place).isSome
      then fs.entries.map fun (l, old) => if l = place then (l, e) else (l, old)
      else fs.entries ++ [(place, e)] }

def erase (fs : FileSystem) (place : Location) : FileSystem :=
  { fs with entries := fs.entries.filter (·.1 ≠ place) }

/-- Whether a text can name an entry in its directory. -/
def isName (name : String) : Bool :=
  !name.isEmpty && name ≠ "." && name ≠ ".." && '/' ∉ name.toList && '\x00' ∉ name.toList &&
    name.utf8ByteSize ≤ maxName

/-- Each place is there once and has a name in a directory that is there too, and so is the
directory where paths start. -/
structure WellFormed (fs : FileSystem) : Prop where
  once : (fs.entries.map (·.1)).Nodup
  inside : ∀ entry ∈ fs.entries, ∃ name parent, entry.1 = name :: parent ∧ isName name ∧
    fs.get? parent = some .directory
  started : fs.get? fs.here = some .directory

/-- Follows pieces of a path. Only a directory can be followed further; an empty piece and `.`
stay in it. -/
def follow (fs : FileSystem) : Location → List (List Char) → Except IoError Location
  | place, [] => .ok place
  | place, piece :: rest =>
    match fs.get? place with
    | none => .error .notFound
    | some (.file _) => .error .notDirectory
    | some .directory =>
      if piece = [] ∨ piece = ['.'] then follow fs place rest
      else if piece = ['.', '.'] then follow fs place.tail rest
      else
        let name := String.ofList piece
        if maxName < name.utf8ByteSize then .error .nameTooLong
        else follow fs (name :: place) rest

def origin (fs : FileSystem) (p : Path) : Location :=
  if p.isAbsolute then [] else fs.here

/-- Where a path leads, whether or not there is an entry at its end. -/
def locate (fs : FileSystem) (p : Path) : Except IoError Location :=
  if p.text.isEmpty then .error .notFound
  else if '\x00' ∈ p.text.toList then .error .nullInPath
  else if maxPath ≤ p.text.utf8ByteSize then .error .nameTooLong
  else fs.follow (fs.origin p) (Path.split p.text.toList)

def find (fs : FileSystem) (p : Path) : Except IoError Entry :=
  match fs.locate p with
  | .error e => .error e
  | .ok place =>
    match fs.get? place with
    | some e => .ok e
    | none => .error .notFound

def kind? (fs : FileSystem) (p : Path) : Option FileKind :=
  match fs.find p with
  | .ok e => some e.kind
  | .error _ => none

def read (fs : FileSystem) (p : Path) : Except IoError ByteArray :=
  match fs.find p with
  | .ok (.file content) => .ok content
  | .ok .directory => .error .isDirectory
  | .error e => .error e

/-- The path of a location from the root. -/
def absolute (place : Location) : String :=
  place.foldr (fun name text => text ++ "/" ++ name) ""

/-- The pieces in front of the last one, the last one, and whether separators follow it. -/
def lastPiece (p : Path) : List (List Char) × List Char × Bool :=
  let pieces := (Path.split p.text.toList).reverse
  let inner := pieces.dropWhile (·.isEmpty)
  (inner.tail.reverse, inner.headD [], decide (inner.length < pieces.length))

/-- The entry that a path names in its directory, which has to exist. The path of a file that is
made, replaced or removed ends in a name. -/
def slot (fs : FileSystem) (p : Path) (nameless : IoError) : Except IoError (Location × Bool) :=
  if p.text.isEmpty then .error .notFound
  else if '\x00' ∈ p.text.toList then .error .invalidArgument
  else if maxPath ≤ p.text.utf8ByteSize then .error .nameTooLong
  else
    let (before, last, closed) := lastPiece p
    match fs.follow (fs.origin p) (before ++ [[]]) with
    | .error e => .error e
    | .ok directory =>
      if last = [] ∨ last = ['.'] ∨ last = ['.', '.'] then .error nameless
      else
        let name := String.ofList last
        if maxName < name.utf8ByteSize then .error .nameTooLong
        else .ok (name :: directory, closed)

/-- What the names of temporary files start with. -/
def temporaryMark : List Char := ['.', 't', 'm', 'p']

/-- Whether a name is one that temporary files are given: the mark and six letters or digits. -/
def isTemporary (name : String) : Bool :=
  temporaryMark.isPrefixOf name.toList && name.toList.length = 10 &&
    (name.toList.drop 4).all Char.isAlphanum

/-- A choice of names for temporary files. A name that is chosen is free. As the choice depends on
all that is there, it can be another one at each time. -/
structure Naming where
  pick : FileSystem → Location → Option String
  temporary {fs : FileSystem} {place : Location} {name : String} :
    pick fs place = some name → isTemporary name = true
  free {fs : FileSystem} {place : Location} {name : String} :
    pick fs place = some name → fs.get? (name :: place) = none

/-- The letters and digits of names, in the order in which they are tried. -/
def nameLetters : List Char :=
  "XYZABCDEFGHIJKLMNOPQRSTUVWabcdefghijklmnopqrstuvwxyz0123456789".toList

def temporaryName (n : Nat) : String :=
  String.ofList (temporaryMark ++ (List.range 6).map fun k =>
    nameLetters.getD (n / nameLetters.length.pow (5 - k) % nameLetters.length) 'X')

theorem isTemporary_temporaryName (n : Nat) : isTemporary (temporaryName n) = true := by
  have some_letter : 0 < nameLetters.length := by decide +kernel
  have letters : ∀ i < nameLetters.length, (nameLetters.getD i 'X').isAlphanum = true := by
    decide +kernel
  simp only [isTemporary, temporaryName, String.toList_ofList, Bool.and_eq_true]
  refine ⟨⟨?_, ?_⟩, ?_⟩
  · exact List.isPrefixOf_iff_prefix.mpr (List.prefix_append _ _)
  · simp [temporaryMark]
  · rw [show 4 = temporaryMark.length from rfl, List.drop_left, List.all_map, List.all_eq_true]
    exact fun k _ => letters _ (Nat.mod_lt _ some_letter)

/-- How many names are tried for a temporary file. -/
def maxAttempts : Nat := 65536

/-- The first name in a fixed order that is free. -/
def Naming.first : Naming where
  pick fs place := ((List.range (min (fs.entries.length + 1) maxAttempts)).map temporaryName).find?
    fun name => (fs.get? (name :: place)).isNone
  temporary h := by
    obtain ⟨n, _, rfl⟩ := List.mem_map.mp (List.mem_of_find?_eq_some h)
    exact isTemporary_temporaryName n
  free h := by simpa using List.find?_some h

/-- Makes a temporary file in a directory and gives its path from the root. A failure carries
the path that was tried. -/
def stage (fs : FileSystem) (naming : Naming) (directory : Path) (content : ByteArray) :
    Except (IoError × Path) (Path × FileSystem) :=
  let base := Path.join ⟨absolute fs.here⟩ directory
  let tried := base.join ⟨".tmpXXXXXX"⟩
  if maxPath ≤ tried.text.utf8ByteSize then .error (.nameTooLong, tried)
  else match fs.locate (directory.join ⟨""⟩) with
    | .error e => .error (e, tried)
    | .ok place =>
      match naming.pick fs place with
      | some name => .ok (base.join ⟨name⟩, fs.put (name :: place) (.file content))
      | none => .error (.other "too many temporary files exist", base)

/-- Moves a file to a path. It replaces a file there, but no directory. -/
def rename (fs : FileSystem) (source target : Path) : Except IoError FileSystem :=
  match fs.locate source with
  | .error e => .error e
  | .ok old =>
    match fs.slot target .busy with
    | .error e => .error e
    | .ok (place, closed) =>
      match fs.get? old with
      | none => .error .notFound
      | some moved =>
        if closed then .error .notDirectory
        else if fs.kindOf? place = some .directory then .error .isDirectory
        else .ok ((fs.erase old).put place moved)

/-- Removes a file. -/
def remove (fs : FileSystem) (p : Path) : Except IoError FileSystem :=
  match fs.slot p .isDirectory with
  | .error e => .error e
  | .ok (place, closed) =>
    match fs.get? place with
    | none => .error .notFound
    | some .directory => .error .isDirectory
    | some (.file _) => if closed then .error .notDirectory else .ok (fs.erase place)

/-- Removes a file if that is possible. -/
def discard (fs : FileSystem) (p : Path) : FileSystem :=
  match fs.remove p with
  | .ok left => left
  | .error _ => fs

/-- Makes a directory and those around it; what is there stays. -/
def makeDirectory (fs : FileSystem) (place : Location) : FileSystem :=
  match place with
  | [] => fs
  | name :: parent =>
    let fs := fs.makeDirectory parent
    if (fs.get? (name :: parent)).isSome then fs else fs.put (name :: parent) .directory

/-- A file system that is empty but for its starting directory. -/
def emptyAt (here : Location) : FileSystem :=
  makeDirectory ⟨[], here⟩ here

end FileSystem
end FirmwareMeta
