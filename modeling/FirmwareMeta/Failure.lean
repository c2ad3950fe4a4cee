import FirmwareMeta.Config.Dialect
import FirmwareMeta.Devicetree.Fault
import FirmwareMeta.FileSystem.Basic
import FirmwareMeta.Image.IntelHex.Reader
import FirmwareMeta.Json.Fault
import FirmwareMeta.Update.Role

/-!
Why metadata cannot be made or read, with the wording of each cause.
-/
namespace FirmwareMeta

/-- What is wrong with a hardware description. -/
inductive DescriptionFault where
  | source (fault : Devicetree.Fault)
  | json (fault : Json.Fault)
  /-- A partition whose node has no numeric `reg`. -/
  | noReg (node : String)
  | shortReg (node : String) (cells : Nat)
  | wideCell (node : String) (value : UInt64)
  deriving DecidableEq, Repr

def DescriptionFault.message : DescriptionFault → String
  | source fault => fault.message
  | json fault => fault.message
  | noReg node => node ++ ": partition has no numeric reg"
  | shortReg node cells =>
    node ++ ": reg has " ++ toString cells ++ " cells, expected address and size"
  | wideCell node value =>
    node ++ ": reg cell " ++ Numeral.hex 1 value.toNat ++ " exceeds 32 bits"

namespace Install

/-- Options of the application that give the size of an install entry and its images. -/
def entrySizeKey : String := "CONFIG_BM_INSTALL_ENTRY_SIZE"
def imageCountKey : String := "CONFIG_BM_INSTALL_IMAGES"

end Install

/-- Parts of a configuration that do not fit together. -/
inductive Inconsistency where
  | loaderWithoutSlot
  | imageCount (count : UInt32)
  | entrySize (size count used : UInt32)
  | emptyInstaller
  deriving DecidableEq, Repr

def Inconsistency.message : Inconsistency → String
  | loaderWithoutSlot => Install.imageCountKey ++ " is 1 but the firmware loader is enabled"
  | imageCount count =>
    Install.imageCountKey ++ " is " ++ toString count ++ ", only 1 or 2 images are supported"
  | entrySize size count used =>
    Install.entrySizeKey ++ " is " ++ toString size ++ ", but " ++ toString count ++
      " images need at least " ++ toString used ++ " bytes"
  | emptyInstaller => "installer image is empty"

/-- How payloads and the record that describes them differ. -/
inductive Mismatch where
  | count (blocks payloads : Nat)
  | undescribed (role : Role) (source : Path)
  | noData (address : Nat)
  | incomplete (role : Role) (address : Nat)
  | checksum (role : Role) (address : Nat) (computed recorded : UInt32)
  deriving DecidableEq, Repr

def Mismatch.message : Mismatch → String
  | count blocks payloads =>
    toString blocks ++ " image blocks but " ++ toString payloads ++ " payloads"
  | undescribed role source => role.name ++ " block does not describe " ++ source.text
  | noData address => "no data at " ++ Numeral.hexWord address
  | incomplete role address =>
    role.name ++ " payload at " ++ Numeral.hexWord address ++ " is incomplete"
  | checksum role address computed recorded =>
    role.name ++ " payload at " ++ Numeral.hexWord address ++ " has crc " ++
      Numeral.hexWord computed.toNat ++ ", recorded " ++ Numeral.hexWord recorded.toNat

/-- Why bytes are no update record. -/
inductive RecordError where
  | tooShort
  | magic (found : List UInt8)
  | filler
  | unknownId (id : UInt8)
  | checksum (recorded computed : UInt32)
  deriving DecidableEq, Repr

def RecordError.message : RecordError → String
  | tooShort => "record too short"
  | magic found =>
    let pairs := found.map fun b => String.ofList (Numeral.hexDigits 2 b.toNat)
    "invalid magic [" ++ ", ".intercalate pairs ++ "]"
  | filler => "invalid filler bytes in image block"
  | unknownId id => "unknown image id " ++ Numeral.hex 2 id.toNat
  | checksum recorded computed =>
    "checksum mismatch: recorded " ++ Numeral.hexWord recorded.toNat ++ ", computed " ++
      Numeral.hexWord computed.toNat

inductive Failure where
  | configMissing (path : Path)
  | configSyntax (path : Path) (error : Config.SyntaxError)
  /-- An option that is not set, in the file that was read. -/
  | optionUnset (key : String) (source : Option Path)
  | optionInvalid (key value : String)
  | inconsistent (cause : Inconsistency)
  | partitionMissing (name : String)
  | artifactMissing (path : Path)
  | description (source : Option Path) (fault : DescriptionFault)
  | intelHex (source : Option Path) (error : IntelHex.LineError)
  | image (error : Image.WriteError)
  | mismatch (cause : Mismatch)
  | record (error : RecordError)
  | io (path : Path) (error : IoError)
  deriving DecidableEq, Repr

def Image.WriteError.message : Image.WriteError → String
  | overlap address => "image data overlaps at address " ++ Numeral.hexWord address
  | overflow address length =>
    toString length ++ " bytes at " ++ Numeral.hexWord address ++
      " exceed the 32-bit address space"

namespace Failure

/-- The name of a kind of source, and of the source if it is known. -/
def origin (kind : String) : Option Path → String
  | some path => kind ++ " " ++ path.text ++ ": "
  | none => kind ++ ": "

def message : Failure → String
  | configMissing path => "config file does not exist: " ++ path.text
  | configSyntax path error => "unable to parse " ++ path.text ++ ": " ++ error.message
  | optionUnset key (some path) => key ++ " is not set in " ++ path.text
  | optionUnset key none => key ++ " is not set"
  | optionInvalid key value => "invalid value for " ++ key ++ ": \"" ++ value ++ "\""
  | inconsistent cause => "inconsistent configuration: " ++ cause.message
  | partitionMissing name => "partition " ++ name ++ " not found in devicetree"
  | artifactMissing path => "build artifact does not exist: " ++ path.text
  | description source fault => origin "devicetree" source ++ fault.message
  | intelHex (some path) error => "Intel HEX file " ++ path.text ++ ": " ++ error.message
  | intelHex none error => "Intel HEX: " ++ error.message
  | image error => error.message
  | mismatch cause => "payload mismatch: " ++ cause.message
  | record error => "invalid update metadata: " ++ error.message
  | io path error => path.text ++ ": " ++ error.message

/-- A failure to read an image, in a file if there is one. -/
def ofReadError (source : Option Path) : IntelHex.ReadError → Failure
  | .line error => intelHex source error
  | .write error => image error

/-- A result with its error as a failure. -/
def lift {ε α : Type} (f : ε → Failure) : Except ε α → Except Failure α
  | .ok x => .ok x
  | .error e => .error (f e)

end Failure
end FirmwareMeta
