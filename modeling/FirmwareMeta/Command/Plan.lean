import FirmwareMeta.Build.Input
import FirmwareMeta.Command.Line
import FirmwareMeta.Command.Overrides

/-!
Plans: what a run is to do once the command line and the override file are read. Paths of the
command line stand as they are; those of an override file start from the build directory.
-/
namespace FirmwareMeta.Command

/-- An input that the command line and an override file can both name. -/
inductive Input where
  | description
  | softDeviceImage
  | installer
  deriving DecidableEq, Repr

def Input.name : Input → String
  | description => "hardware description"
  | softDeviceImage => "SoftDevice image"
  | installer => "installer directory"

inductive PlanError where
  | directoryMissing (path : Path)
  | overridesUnread (path : Path) (error : IoError)
  /-- A fault in an override file, as it is shown. -/
  | overridesInvalid (path : Path) (fault : String)
  | namedTwice (input : Input)
  | outputRepeated (path : Path)
  deriving DecidableEq, Repr

def PlanError.message : PlanError → String
  | directoryMissing path => "build directory does not exist: " ++ path.text
  | overridesUnread path error =>
    "config error: failed to read layout file " ++ path.text ++ ": " ++ error.message
  | overridesInvalid path fault =>
    "config error: invalid layout file " ++ path.text ++ ": " ++ fault
  | namedTwice input => input.name ++ " specified in both config and cli"
  | outputRepeated path => "output file used more than once: " ++ path.text

inductive Plan where
  | build (selection : Build.Selection) (layout : Build.Layout)
  | dump (input : Path)
  deriving DecidableEq, Repr

/-- The path of an input from the two places that may name it. -/
def Input.choose (input : Input) : Option Path → Option Path → Except PlanError (Option Path)
  | some _, some _ => .error (.namedTwice input)
  | some path, none => .ok (some path)
  | none, path => .ok path

/-- The standard layout with what the options and the overrides put in its place. -/
def BuildOptions.layout (options : BuildOptions) (overrides : Overrides) :
    Except PlanError Build.Layout := do
  let inside := Option.map options.directory.join
  let description ← Input.description.choose options.description (inside overrides.description)
  let softDeviceImage ←
    Input.softDeviceImage.choose options.softDeviceImage (inside overrides.softDeviceImage)
  let installer ← Input.installer.choose options.installer (inside overrides.installer)
  let standard := Build.Layout.standard options.directory
  let layout : Build.Layout :=
    { directory := options.directory
      description
      softDeviceImage := softDeviceImage.getD standard.softDeviceImage
      installer := installer.getD standard.installer
      entryOutput := (inside overrides.entryOutput).getD standard.entryOutput
      recordOutput := (inside overrides.recordOutput).getD standard.recordOutput
      bundleOutput := (inside overrides.bundleOutput).getD standard.bundleOutput }
  match Build.repeated? layout.outputs with
  | some path => throw (.outputRepeated path)
  | none => pure layout

/-- The name of the override file that a build directory may hold. -/
def overridesName : String := "bm-metadata.toml"

namespace Plan

abbrev Planning := ExceptT PlanError Script

def ask (operation : Operation) : Planning operation.Answer :=
  ExceptT.lift (Script.ask operation)

def loadOverrides (path : Path) : Planning Overrides := do
  ask (.log ⟨.debug, "loading config " ++ path.text⟩)
  match ← ask (.read path) with
  | .error e => throw (.overridesUnread path e)
  | .ok content =>
    match String.fromUTF8? content with
    | none => throw (.overridesUnread path .notText)
    | some text =>
      match Overrides.parse text with
      | .ok overrides => pure overrides
      | .error fault => throw (.overridesInvalid path fault)

/-- The override file that is named, or the one that the build directory holds. -/
def overridesPath (directory : Path) (named : Option Path) : Planning (Option Path) :=
  match named with
  | some path => pure (some path)
  | none => do
    let path := directory.join ⟨overridesName⟩
    pure (if (← ask (.kind path)) = some .file then some path else none)

def ofInvocation (invocation : Invocation) : Planning Plan :=
  match invocation.request with
  | .dump input => pure (.dump input)
  | .build selection options => do
    if (← ask (.kind options.directory)) ≠ some .directory then
      throw (.directoryMissing options.directory)
    let overrides ← match ← overridesPath options.directory invocation.config with
      | some path => loadOverrides path
      | none => pure Overrides.none
    pure (.build selection (← ExceptT.mk (pure (options.layout overrides))))

end Plan
end FirmwareMeta.Command
