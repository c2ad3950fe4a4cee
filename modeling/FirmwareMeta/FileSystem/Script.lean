import FirmwareMeta.FileSystem.Basic

/-!
Programs as data. A script is a value or an operation followed by a script for each answer, so
what a run may touch can be read off it; `Script.run` gives it its meaning in a world of plain
data, and the program's outer layer gives it the same meaning on real files.
-/
namespace FirmwareMeta

inductive Level where
  | debug
  | info
  | warn
  deriving DecidableEq, Repr

/-- A line of the log. -/
structure Event where
  level : Level
  message : String
  deriving DecidableEq, Repr

def Level.name : Level → String
  | debug => "DEBUG"
  | info => "INFO"
  | warn => "WARN"

/-- Debug events are shown on request only. -/
def Event.shown (verbose : Bool) (e : Event) : Bool :=
  verbose || e.level != .debug

def Event.line (e : Event) : String := e.level.name ++ " " ++ e.message

inductive StageError where
  | create (error : IoError) (tried : Path)
  | write (error : IoError)
  deriving DecidableEq, Repr

/-- What a program can ask of its surroundings. -/
inductive Operation where
  | kind (path : Path)
  | read (path : Path)
  /-- Puts a text into a new temporary file of a directory. -/
  | stage (directory : Path) (text : String)
  | rename (source target : Path)
  | remove (path : Path)
  | print (text : String)
  | log (event : Event)
  deriving DecidableEq, Repr

abbrev Operation.Answer : Operation → Type
  | kind _ => Option FileKind
  | read _ => Except IoError ByteArray
  | stage .. => Except StageError Path
  | rename .. => Except IoError Unit
  | remove _ => Except IoError Unit
  | print _ => Except IoError Unit
  | log _ => Unit

inductive Script (α : Type) where
  | done (value : α)
  | perform (operation : Operation) (next : operation.Answer → Script α)

namespace Script

def bind {α β : Type} : Script α → (α → Script β) → Script β
  | done value, f => f value
  | perform operation next, f => perform operation fun answer => (next answer).bind f

instance : Monad Script where
  pure := done
  bind := bind

def ask (operation : Operation) : Script operation.Answer :=
  perform operation done

theorem bind_done {α : Type} (s : Script α) : s.bind done = s := by
  induction s with
  | done => rfl
  | perform operation next ih => simp only [bind, ih]

theorem bind_assoc {α β γ : Type} (s : Script α) (f : α → Script β) (g : β → Script γ) :
    (s.bind f).bind g = s.bind fun a => (f a).bind g := by
  induction s with
  | done => rfl
  | perform operation next ih => simp only [bind, ih]

instance : LawfulMonad Script :=
  .mk' Script bind_done (fun _ _ => rfl) bind_assoc

end Script

/-- An output that takes all that is printed or a number of bytes. -/
structure Output where
  room : Option Nat
  /-- The error of an output that has no more room. -/
  full : IoError
  text : String

namespace Output

/-- The longest beginning of a text that a number of bytes can hold. -/
def clip (room : Nat) : List Char → List Char
  | [] => []
  | c :: rest => if c.utf8Size ≤ room then c :: clip (room - c.utf8Size) rest else []

def print (o : Output) (text : String) : Except IoError Unit × Output :=
  match o.room with
  | none => (.ok (), { o with text := o.text ++ text })
  | some room =>
    if text.utf8ByteSize ≤ room then
      (.ok (), { o with text := o.text ++ text, room := some (room - text.utf8ByteSize) })
    else
      let part := String.ofList (clip room text.toList)
      (.error o.full, { o with text := o.text ++ part, room := some 0 })

end Output

/-- How temporary files are made: the names that they are given, and what cannot be written to
them. As both depend on all that is there, they can be others at each time. -/
structure Temporaries where
  naming : FileSystem.Naming
  /-- Why writing a content fails where some files are there. -/
  refuse : FileSystem → ByteArray → Option IoError

/-- The first names that are free, and room for all that is written. -/
def Temporaries.first : Temporaries := ⟨.first, fun _ _ => none⟩

/-- The surroundings of a run: files, the standard output and the log so far, and how temporary
files are made. -/
structure World where
  files : FileSystem
  output : Output
  events : List Event
  temporaries : Temporaries

/-- One operation in a world. -/
def World.perform (w : World) : (operation : Operation) → operation.Answer × World
  | .kind p => (w.files.kind? p, w)
  | .read p => (w.files.read p, w)
  | .stage directory text =>
    match w.files.stage w.temporaries.naming directory text.toUTF8 with
    | .ok (p, files) =>
      match w.temporaries.refuse w.files text.toUTF8 with
      | none => (.ok p, { w with files })
      -- A temporary file that does not take its content is removed again.
      | some e => (.error (.write e), { w with files := files.discard p })
    | .error (e, tried) => (.error (.create e tried), w)
  | .rename source target =>
    match w.files.rename source target with
    | .ok files => (.ok (), { w with files })
    | .error e => (.error e, w)
  | .remove p =>
    match w.files.remove p with
    | .ok files => (.ok (), { w with files })
    | .error e => (.error e, w)
  | .print text =>
    let (answer, output) := w.output.print text
    (answer, { w with output })
  | .log event => ((), { w with events := w.events ++ [event] })

namespace Script

/-- The value of a script in a world, and the world that it leaves. -/
def run {α : Type} : Script α → World → α × World
  | done value, w => (value, w)
  | perform operation next, w =>
    let (answer, w) := w.perform operation
    (next answer).run w

/-- The operations of a run in their order. -/
def operations {α : Type} : Script α → World → List Operation
  | done _, _ => []
  | perform operation next, w =>
    let (answer, w) := w.perform operation
    operation :: (next answer).operations w

theorem run_bind {α β : Type} (s : Script α) (f : α → Script β) (w : World) :
    (s.bind f).run w = (f (s.run w).1).run (s.run w).2 := by
  induction s generalizing w with
  | done => rfl
  | perform operation next ih => exact ih _ _

theorem operations_bind {α β : Type} (s : Script α) (f : α → Script β) (w : World) :
    (s.bind f).operations w =
      s.operations w ++ (f (s.run w).1).operations (s.run w).2 := by
  induction s generalizing w with
  | done => rfl
  | perform operation next ih => exact congrArg (operation :: ·) (ih _ _)

end Script
end FirmwareMeta
