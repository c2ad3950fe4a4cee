import FirmwareMeta.Command.Help
import FirmwareMeta.Command.Run

/-!
The program on real files: the meaning of each operation of a script, and the entry point.
-/
namespace FirmwareMeta.Main

/-- The number of an error of the operating system. -/
def errorNumber? : IO.Error → Option UInt32
  | .alreadyExists _ n _ => some n
  | .otherError n _ => some n
  | .resourceBusy n _ => some n
  | .unsupportedOperation n _ => some n
  | .illegalOperation n _ => some n
  | .noFileOrDirectory _ n _ => some n
  | .invalidArgument _ n _ => some n
  | .permissionDenied _ n _ => some n
  | .resourceExhausted _ n _ => some n
  | .inappropriateType _ n _ => some n
  | .noSuchThing _ n _ => some n
  | _ => none

def ioError (e : IO.Error) : IoError :=
  match errorNumber? e with
  | some n =>
    -- Some calls give the number with a minus sign.
    match if n.toNat < 0x80000000 then n.toNat else Word.limit - n.toNat with
    | 2 => .notFound
    | 16 => .busy
    | 20 => .notDirectory
    | 21 => .isDirectory
    | 22 => .invalidArgument
    | 36 => .nameTooLong
    | _ => .other e.toString
  | none => .other e.toString

def attempt {α : Type} (action : IO α) : IO (Except IoError α) := do
  match ← action.toBaseIO with
  | .ok value => pure (.ok value)
  | .error e => pure (.error (ioError e))

/-- A directory can be opened but not read. -/
def kind (path : Path) : IO (Option FileKind) := do
  match ← attempt (IO.FS.Handle.mk path.text .read) with
  | .error _ => pure none
  | .ok handle =>
    match ← attempt (handle.read 1) with
    | .error .isDirectory => pure (some .directory)
    | _ => pure (some .file)

def temporaryName : IO String := do
  let letters := "abcdefghijklmnopqrstuvwxyz0123456789".toList
  let picked ← (List.range 6).mapM fun _ => do
    pure (letters.getD (← IO.rand 0 35) 'a')
  pure (".tmp" ++ String.ofList picked)

/-- Makes a file that is not there yet. A name that is taken is tried again with another one. -/
def create (directory : Path) (attempts : Nat) : IO (Except StageError (Path × IO.FS.Handle)) := do
  let path := directory.join ⟨← temporaryName⟩
  match attempts, ← (IO.FS.Handle.mk path.text .writeNew).toBaseIO with
  | _, .ok handle => pure (.ok (path, handle))
  | more + 1, .error (.alreadyExists ..) => create directory more
  | _, .error e => do
    let here := toString (← IO.currentDir)
    pure (.error (.create (ioError e) (Path.join ⟨here⟩ path)))

def stage (directory : Path) (text : String) : IO (Except StageError Path) := do
  match ← create directory 100 with
  | .error e => pure (.error e)
  | .ok (path, handle) =>
    match ← attempt (do handle.write text.toUTF8; handle.flush) with
    | .ok () => pure (.ok path)
    | .error e =>
      let _ ← attempt (IO.FS.removeFile path.text)
      pure (.error (.write e))

def print (text : String) : IO Unit := do
  let output ← IO.getStdout
  output.putStr text
  output.flush

def perform (verbose : Bool) : (operation : Operation) → IO operation.Answer
  | .kind path => kind path
  | .read path => attempt (IO.FS.readBinFile path.text)
  | .stage directory text => stage directory text
  | .rename source target => attempt (IO.FS.rename source.text target.text)
  | .remove path => attempt (IO.FS.removeFile path.text)
  | .print text => attempt (print text)
  | .log event => do if event.shown verbose then IO.eprintln event.line

def interpret {α : Type} (verbose : Bool) : Script α → IO α
  | .done value => pure value
  | .perform operation next => do interpret verbose (next (← perform verbose operation))

/-- Terminals get styled text, unless the environment decides. -/
def isStyled : IO Bool := do
  if let some value ← IO.getEnv "CLICOLOR_FORCE" then
    if value ≠ "0" then return true
  if (← IO.getEnv "NO_COLOR").isSome then return false
  if (← IO.getEnv "CLICOLOR") = some "0" then return false
  (← IO.getStdout).isTty

def run (arguments : List String) : IO UInt32 := do
  let styled ← isStyled
  let result ← interpret (Command.isVerbose arguments)
    (ExceptT.run (Command.run styled arguments))
  match result with
  | .ok () => pure ()
  | .error (.usage usage) => IO.eprintln usage.text
  | .error e => IO.eprint ((e.report? styled).getD "")
  pure (UInt32.ofNat (Command.exitCode result))

end FirmwareMeta.Main

def main (arguments : List String) : IO UInt32 := FirmwareMeta.Main.run arguments
