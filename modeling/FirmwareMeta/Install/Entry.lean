import FirmwareMeta.Config.Settings
import FirmwareMeta.Crc32
import FirmwareMeta.Hardware.Partition

/-!
Install entries, for devices that are flashed directly: an address and a size for each image,
zeros up to the configured size, and the checksum of all that. Words are little-endian.
-/
namespace FirmwareMeta.Install

/-- The size of an entry and the number of its images, as the application is configured. -/
structure Geometry where
  entrySize : UInt32
  imageCount : UInt32
  deriving DecidableEq, Repr

def Geometry.ofSettings (s : Config.Settings) : Except Failure Geometry := do
  let entrySize ← s.requireWord entrySizeKey
  let imageCount ← s.requireWord imageCountKey
  pure ⟨entrySize, imageCount⟩

/-- Where an image goes. -/
structure Region where
  address : UInt32
  size : UInt32
  deriving DecidableEq, Repr

def Region.ofPartition (p : Hardware.Partition) : Region := ⟨p.start, p.size⟩

def Region.bytes (r : Region) : List UInt8 := Word.bytes r.address ++ Word.bytes r.size

/-- The region of an image that there is not. -/
def Region.empty : Region := ⟨0, 0⟩

/-- Bytes of a region and of the checksum. -/
def regionSize : UInt32 := 8
def checksumSize : UInt32 := 4

/-- Bytes that the images and the checksum take. -/
def Geometry.used (g : Geometry) : UInt32 := regionSize * g.imageCount + checksumSize

/-- Bytes of the configured size that are left. -/
def Geometry.padding (g : Geometry) : Except Inconsistency UInt32 :=
  if g.entrySize < g.used then .error (.entrySize g.entrySize g.imageCount g.used)
  else .ok (g.entrySize - g.used)

structure Entry where
  regions : List Region
  padding : Nat
  deriving DecidableEq, Repr

namespace Entry

/-- The region of the firmware loader, which a build may do without. -/
def loaderRegion (table : Hardware.PartitionTable) (withLoader : Bool) : Except Failure Region :=
  if withLoader then Region.ofPartition <$> table.require Hardware.slot1 else .ok .empty

/-- The regions that a number of images has. -/
def regionsOf (count : UInt32) (softDevice loader : Region) (withLoader : Bool) :
    Except Inconsistency (List Region) :=
  if count = 1 then (if withLoader then .error .loaderWithoutSlot else .ok [softDevice])
  else if count = 2 then .ok [softDevice, loader]
  else .error (.imageCount count)

/-- The entry of a build with or without a firmware loader. Without it a second image has an
empty region. -/
def make (table : Hardware.PartitionTable) (withLoader : Bool) (g : Geometry) :
    Except Failure Entry := do
  let softDevice ← table.require Hardware.softDevice
  let loader ← loaderRegion table withLoader
  let regions ← Failure.lift .inconsistent
    (regionsOf g.imageCount (.ofPartition softDevice) loader withLoader)
  let padding ← Failure.lift .inconsistent g.padding
  pure ⟨regions, padding.toNat⟩

def encodedSize (e : Entry) : Nat :=
  e.regions.length * regionSize.toNat + e.padding + checksumSize.toNat

/-- What the checksum covers. -/
def body (e : Entry) : List UInt8 :=
  e.regions.flatMap Region.bytes ++ List.replicate e.padding 0

def encode (e : Entry) : List UInt8 := e.body ++ Word.bytes (crc32 e.body)

/-- The entry at an address, normally the start of the metadata partition. -/
def image (e : Entry) (address : UInt32) : Except Failure Image :=
  Failure.lift .image (Image.ofBytes address.toNat e.encode)

end Entry
end FirmwareMeta.Install
