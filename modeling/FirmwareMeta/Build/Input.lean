import FirmwareMeta.Config.Settings
import FirmwareMeta.FileSystem.Script
import FirmwareMeta.Install.Entry
import FirmwareMeta.Update.Bundle

/-!
Reading the files of a build. A job is a script that may fail; a failure ends it.
-/
namespace FirmwareMeta

abbrev Job := ExceptT Failure Script

namespace Job

def ask (operation : Operation) : Job operation.Answer :=
  ExceptT.lift (Script.ask operation)

def log (level : Level) (message : String) : Job Unit := ask (.log ⟨level, message⟩)

def ofExcept {α : Type} (result : Except Failure α) : Job α := ExceptT.mk (pure result)

def isFile (path : Path) : Job Bool := do
  pure ((← ask (.kind path)) == some .file)

def isDirectory (path : Path) : Job Bool := do
  pure ((← ask (.kind path)) == some .directory)

def readBytes (path : Path) : Job ByteArray := do
  match ← ask (.read path) with
  | .ok content => pure content
  | .error e => throw (.io path e)

def readText (path : Path) : Job String := do
  match String.fromUTF8? (← readBytes path) with
  | some text => pure text
  | none => throw (.io path .notText)

end Job

namespace Build

/-- The settings of a file. That it is not there is reported as such: a part of the build has
not been made then. -/
def loadSettings (dialect : Config.Dialect) (path : Path) : Job Config.Settings := do
  if (← Job.ask (.kind path)).isNone then throw (.configMissing path)
  let text ← Job.readText path
  let options ← Job.ofExcept
    (Failure.lift (.configSyntax path) (Config.Options.parse dialect text))
  Job.log .debug ("loaded " ++ toString options.size ++ " options from " ++ dialect.name ++
    " file " ++ path.text)
  pure ⟨some path, options⟩

/-- A description from the text of a file, which is JSON if its name says so. -/
def describe (path : Path) (text : String) : Except DescriptionFault Hardware.Description :=
  if path.hasExtension "json" then
    match Hardware.Description.ofJson text with
    | .ok d => .ok d
    | .error fault => .error (.json fault)
  else
    match Devicetree.parse text with
    | .ok tree => .ok (.ofDevicetree tree)
    | .error fault => .error (.source fault)

def loadDescription (path : Path) : Job Hardware.Description := do
  if !(← Job.isFile path) then throw (.artifactMissing path)
  let text ← Job.readText path
  let d ← Job.ofExcept (Failure.lift (.description (some path)) (describe path text))
  Job.log .debug
    ("loaded " ++ toString d.nodes.length ++ " devicetree nodes from " ++ path.text)
  pure d

def resolvePartitions (nodes : List Hardware.NodeInfo) (names : List String) :
    Job Hardware.PartitionTable := do
  let table ← Job.ofExcept
    (Failure.lift (.description none) (Hardware.PartitionTable.resolve nodes names))
  table.partitions.forM fun p => Job.log .debug p.summary
  pure table

def loadImage (path : Path) : Job Image := do
  let text ← Job.readText path
  Job.ofExcept (Failure.lift (Failure.ofReadError (some path)) (IntelHex.parse text))

/-- The bytes of an update image: those of an Intel HEX file from the lowest to the highest
address, or those of any other file. -/
def loadPayload (role : Role) (path : Path) : Job Update.Payload := do
  if !(← Job.isFile path) then throw (.artifactMissing path)
  let data ← if path.hasExtension "hex" then Image.contiguous <$> loadImage path
    else ByteArray.toList <$> Job.readBytes path
  if data.isEmpty then throw (.artifactMissing path)
  Job.log .debug (role.name ++ " payload " ++ path.text ++ ": " ++ toString data.length ++
    " bytes, crc " ++ Numeral.hexWord (crc32 data).toNat)
  pure ⟨role, path, data⟩

end Build
end FirmwareMeta
