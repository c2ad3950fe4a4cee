import FirmwareMeta.FileSystem.Path
import FirmwareMeta.Toml.Decode

/-!
Override files: paths that a layout has instead of its own.
-/
namespace FirmwareMeta.Command

structure Overrides where
  description : Option Path
  softDeviceImage : Option Path
  installer : Option Path
  entryOutput : Option Path
  recordOutput : Option Path
  bundleOutput : Option Path
  deriving DecidableEq, Repr

namespace Overrides

def none : Overrides := ⟨.none, .none, .none, .none, .none, .none⟩

def keys : List String :=
  ["hardware_description", "softdevice_image", "installer_dir", "flash_metadata_output",
   "metadata_output", "combined_output"]

/-- The overrides of a file's text, or what is shown about its first fault. -/
def parse (text : String) : Except String Overrides :=
  let read : Except Toml.Fault Overrides := do
    let table ← Toml.parse text
    let texts ← Toml.Table.texts "path string" keys table
    let path (key : String) : Option Path := (texts.lookup key).map Path.mk
    pure
      { description := path "hardware_description"
        softDeviceImage := path "softdevice_image"
        installer := path "installer_dir"
        entryOutput := path "flash_metadata_output"
        recordOutput := path "metadata_output"
        bundleOutput := path "combined_output" }
  match read with
  | .ok overrides => .ok overrides
  | .error fault => .error (fault.render text.toList)

end Overrides
end FirmwareMeta.Command
