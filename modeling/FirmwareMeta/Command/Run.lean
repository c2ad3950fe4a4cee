import FirmwareMeta.Build.Context
import FirmwareMeta.Build.Saving
import FirmwareMeta.Command.Plan
import FirmwareMeta.Image.IntelHex.Writer
import FirmwareMeta.Update.Listing

/-!
Runs of the program, from the arguments to the outputs or the error that is reported. What a
build makes is made in full before anything is written.
-/
namespace FirmwareMeta.Command

inductive RunError where
  | usage (usage : Usage)
  | plan (error : PlanError)
  | failure (failure : Failure)
  | save (error : Build.SaveError)
  | print (error : IoError)
  deriving DecidableEq, Repr

namespace RunError

/-- What went wrong. Usage has a text of its own. -/
def message? : RunError → Option String
  | usage _ => none
  | plan error => some error.message
  | failure f => some f.message
  | save error => some error.message
  | print error => some ("failed to write to stdout: " ++ error.message)

/-- The line for the error output, with a red label on request. -/
def report? (styled : Bool) (e : RunError) : Option String :=
  let label := if styled then "\x1b[1;31merror:\x1b[0m" else "error:"
  e.message?.map fun message => label ++ " " ++ message ++ "\n"

end RunError

abbrev Run := ExceptT RunError Script

/-- Makes the outputs of a build that are asked for, if it has any. -/
def build (selection : Build.Selection) (layout : Build.Layout) : Run Unit := do
  match ← (Build.Context.load layout).adapt .failure with
  | none => pure ()
  | some context =>
    let artifacts ← (context.artifacts selection).adapt .failure
    (Build.save (artifacts.map fun a => (a.path, IntelHex.print a.image))).adapt .save

/-- The listing of the record at the lowest address of an image. Payloads are checked if there
are any. -/
def listing (styled : Bool) (image : Image) : Except Failure String := do
  let address := image.minAddress?.getD 0
  let data := (image.run? address).getD []
  let r ← Failure.lift .record (Update.Record.decode data)
  let payloads := data.drop r.encodedSize
  if !payloads.isEmpty then
    let _ ← Update.verify image address
  pure (Update.Listing.text styled address r payloads)

def dump (styled : Bool) (input : Path) : Run Unit := do
  let image ← (Build.loadImage input).adapt .failure
  let text ← (Job.ofExcept (listing styled image)).adapt .failure
  if let .error e ← ExceptT.lift (Script.ask (.print text)) then throw (.print e)

def Plan.run (styled : Bool) : Plan → Run Unit
  | build selection layout => Command.build selection layout
  | dump input => Command.dump styled input

/-- A run of the program. The listing is styled on request. -/
def run (styled : Bool) (arguments : List String) : Run Unit := do
  match parse arguments with
  | .error usage => throw (.usage usage)
  | .ok invocation =>
    let plan ← (Plan.ofInvocation invocation).adapt .plan
    plan.run styled

/-- Whether debug events are shown, which they are not if the arguments are refused. -/
def isVerbose (arguments : List String) : Bool :=
  match parse arguments with
  | .ok invocation => invocation.verbose
  | .error _ => false

def exitCode : Except RunError Unit → Nat
  | .ok () => 0
  | .error _ => 1

end FirmwareMeta.Command
