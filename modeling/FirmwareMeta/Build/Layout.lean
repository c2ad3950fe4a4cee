import FirmwareMeta.FileSystem.Path

/-!
Where a build keeps its inputs and where the outputs go.
-/
namespace FirmwareMeta.Build

structure Layout where
  directory : Path
  /-- The hardware description, if it is not the devicetree of the application. -/
  description : Option Path
  softDeviceImage : Path
  installer : Path
  entryOutput : Path
  recordOutput : Path
  bundleOutput : Path
  deriving DecidableEq, Repr

/-- The layout of a build directory that nothing overrides. -/
def Layout.standard (directory : Path) : Layout where
  directory
  description := none
  softDeviceImage := directory.join ⟨"softdevice.signed.hex"⟩
  installer := directory.join ⟨"installer"⟩
  entryOutput := directory.join ⟨"flash_metadata.hex"⟩
  recordOutput := directory.join ⟨"metadata.hex"⟩
  bundleOutput := directory.join ⟨"combined_signed_update_images.hex"⟩

def Layout.outputs (l : Layout) : List Path := [l.entryOutput, l.recordOutput, l.bundleOutput]

/-- The first of some paths that is equivalent to a later one. -/
def repeated? : List Path → Option Path
  | [] => none
  | p :: rest => if rest.any p.equivalent then some p else repeated? rest

/-- Which outputs a run makes. -/
inductive Selection where
  | entry
  | update
  | all
  deriving DecidableEq, Repr

namespace Selection

def hasEntry : Selection → Bool
  | entry => true
  | update => false
  | all => true

def hasUpdate : Selection → Bool
  | entry => false
  | update => true
  | all => true

end Selection
end FirmwareMeta.Build
