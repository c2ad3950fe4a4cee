import FirmwareMeta.FileSystem.Script
import FirmwareMeta.Text.Quoted

/-!
Saving texts together. Each text is staged in a temporary file next to its path before the first
one is moved into place, and a failure takes back what was done: temporary files go, and so does
each file that was moved already.
-/
namespace FirmwareMeta.Build

inductive SaveError where
  | stage (path : Path) (error : StageError)
  | move (path : Path) (error : IoError)
  deriving DecidableEq, Repr

def SaveError.message : SaveError → String
  | stage path (.create error tried) =>
    "failed to create temporary file for " ++ path.text ++ ": " ++ error.message ++
      " at path " ++ Text.quote tried.text.toList
  | stage path (.write error) =>
    "failed to write output file " ++ path.text ++ ": " ++ error.message
  | move path error => "failed to move output into " ++ path.text ++ ": " ++ error.message

abbrev Saving := ExceptT SaveError Script

/-- A staged text: the temporary file and the path that it is for. -/
structure Staged where
  temporary : Path
  path : Path
  deriving DecidableEq, Repr

namespace Saving

def ask (operation : Operation) : Saving operation.Answer :=
  ExceptT.lift (Script.ask operation)

/-- The directory of a file's path, in which it is staged. -/
def directoryOf (path : Path) : Path :=
  match path.parent? with
  | some directory => if directory.text.isEmpty then ⟨"."⟩ else directory
  | none => ⟨"."⟩

/-- Removes temporary files. That one is gone already does not matter. -/
def discard (temporaries : List Path) : Saving Unit :=
  temporaries.forM fun path => do
    let _ ← ask (.remove path)

/-- Removes files that were moved into place. -/
def retract (paths : List Path) : Saving Unit :=
  paths.forM fun path => do
    if let .error e ← ask (.remove path) then
      ask (.log ⟨.warn, "failed to remove " ++ path.text ++ ": " ++ e.message⟩)

/-- Stages texts behind some that are staged. -/
def stageAll (staged : List Staged) : List (Path × String) → Saving (List Staged)
  | [] => pure staged
  | (path, text) :: rest => do
    match ← ask (.stage (directoryOf path) text) with
    | .ok temporary => stageAll (staged ++ [⟨temporary, path⟩]) rest
    | .error e =>
      discard (staged.map (·.temporary))
      throw (.stage path e)

/-- Moves staged texts into place behind some that are there. -/
def moveAll (moved : List Path) : List Staged → Saving Unit
  | [] => pure ()
  | s :: rest => do
    match ← ask (.rename s.temporary s.path) with
    | .ok () =>
      ask (.log ⟨.info, "wrote " ++ s.path.text⟩)
      moveAll (moved ++ [s.path]) rest
    | .error e =>
      retract moved
      discard (s.temporary :: rest.map (·.temporary))
      throw (.move s.path e)

end Saving

/-- Saves texts in files, all or none of them. -/
def save (texts : List (Path × String)) : Saving Unit := do
  let staged ← Saving.stageAll [] texts
  Saving.moveAll [] staged

end FirmwareMeta.Build
