import FirmwareMeta.Build.Input
import FirmwareMeta.Build.Layout

/-!
Builds, and the outputs that are made from them. A build without a SoftDevice has none.
-/
namespace FirmwareMeta.Build

/-- A part of a build: its output directory and its settings. -/
structure Part where
  directory : Path
  settings : Config.Settings

namespace Part

def load (directory : Path) : Job Part := do
  let output := directory.join ⟨"zephyr"⟩
  if !(← Job.isDirectory output) then throw (.artifactMissing output)
  let settings ← loadSettings .kconfig (output.join ⟨".config"⟩)
  pure ⟨output, settings⟩

/-- The file of a part that ends in some text; the part's settings say how it begins. -/
def artifact (p : Part) (ending : String) : Except Failure Path := do
  let name ← p.settings.requireUnquoted "CONFIG_KERNEL_BIN_NAME"
  pure (p.directory.join ⟨name ++ ending⟩)

end Part

/-- What all outputs of a build are made from. -/
structure Context where
  layout : Layout
  application : Part
  loader : Option Part
  partitions : Hardware.PartitionTable

/-- An image and the path that it goes to. -/
structure Artifact where
  path : Path
  image : Image
  deriving DecidableEq, Repr

def appDirectoryKey : String := "APP_DIR"
def noSoftDeviceKey : String := "SB_CONFIG_SOFTDEVICE_NONE"
def noLoaderKey : String := "SB_CONFIG_BM_FIRMWARE_LOADER_NONE"
def loaderNameKey : String := "SB_CONFIG_BM_FIRMWARE_LOADER_IMAGE_NAME"

/-- The name of the application, which is the last one of its directory. -/
def applicationName (cache : Config.Settings) : Except Failure String := do
  let directory ← cache.require appDirectoryKey
  match Path.fileName? ⟨directory⟩ with
  | some name => pure name
  | none => throw (.optionInvalid appDirectoryKey directory)

namespace Context

/-- The firmware loader, if the build has one. -/
def loadLoader (layout : Layout) (sysbuild : Config.Settings) : Job (Option Part) := do
  if sysbuild.options.contains noLoaderKey then
    Job.log .warn "firmware loader disabled, describing the SoftDevice only"
    pure none
  else
    let name ← Job.ofExcept (sysbuild.requireUnquoted loaderNameKey)
    some <$> Part.load (layout.directory.join ⟨name⟩)

/-- The context of a build, or none if there is nothing to make. -/
def load (layout : Layout) : Job (Option Context) := do
  let directory := layout.directory
  let cache ← loadSettings .cmakeCache (directory.join ⟨"CMakeCache.txt"⟩)
  let sysbuild ← loadSettings .kconfig ((directory.join ⟨"zephyr"⟩).join ⟨".config"⟩)
  if sysbuild.options.contains noSoftDeviceKey then
    Job.log .info "SoftDevice disabled, no metadata to generate"
    return none
  let name ← Job.ofExcept (applicationName cache)
  let application ← Part.load (directory.join ⟨name⟩)
  let description ← loadDescription
    (layout.description.getD (application.directory.join ⟨"zephyr.dts"⟩))
  let partitions ← resolvePartitions description.nodes Hardware.standardPartitions
  let loader ← loadLoader layout sysbuild
  pure (some ⟨layout, application, loader, partitions⟩)

/-- The install entry, in the metadata partition. -/
def entry (c : Context) : Job Artifact := do
  let geometry ← Job.ofExcept (Install.Geometry.ofSettings c.application.settings)
  let e ← Job.ofExcept (Install.Entry.make c.partitions c.loader.isSome geometry)
  let partition ← Job.ofExcept (c.partitions.require Hardware.metadata)
  Job.log .debug ("install entry: " ++ toString geometry.entrySize ++ " bytes for " ++
    toString geometry.imageCount ++ " images at " ++ Numeral.hexWord partition.start.toNat)
  let image ← Job.ofExcept (e.image partition.start)
  pure ⟨c.layout.entryOutput, image⟩

def loadInstaller (c : Context) : Job Image := do
  let part ← Part.load c.layout.installer
  let path ← Job.ofExcept (part.artifact ".hex")
  if !(← Job.isFile path) then throw (.artifactMissing path)
  let image ← loadImage path
  if image.isEmpty then throw (.artifactMissing path)
  pure image

/-- The update record behind the installer, and the bundle of it and the payloads. -/
def update (c : Context) : Job (List Artifact) := do
  let softDevice ← loadPayload .softDevice c.layout.softDeviceImage
  let loader ← c.loader.mapM fun part => do
    loadPayload .firmwareLoader (← Job.ofExcept (part.artifact ".signed.hex"))
  let r ← Job.ofExcept (Update.Record.make c.partitions softDevice loader)
  let installer ← c.loadInstaller
  let bundle ← Job.ofExcept
    (Update.Bundle.make installer r (softDevice :: loader.toList))
  Job.log .debug (bundle.summary r)
  pure [⟨c.layout.recordOutput, bundle.record⟩, ⟨c.layout.bundleOutput, bundle.combined⟩]

/-- The outputs that are asked for. -/
def artifacts (c : Context) (selection : Selection) : Job (List Artifact) := do
  let entry ← if selection.hasEntry then List.singleton <$> c.entry else pure []
  let update ← if selection.hasUpdate then c.update else pure []
  pure (entry ++ update)

end Context
end FirmwareMeta.Build
