import FirmwareMeta.Crc32
import FirmwareMeta.Hardware.Partition

/-!
Update records, which the installer reads: four magic bytes, one block of 24 bytes for each
image and the checksum of all that. A block gives the partition of its image and where the
payload is among the payloads. The number of blocks is not written down; the checksum tells
where they end. Words are little-endian.
-/
namespace FirmwareMeta

/-- The partition that an image goes to. -/
def Role.partition : Role → String
  | softDevice => Hardware.softDevice
  | firmwareLoader => Hardware.slot1

namespace Update

/-- The bytes of an image, and the file that they come from. -/
structure Payload where
  role : Role
  source : Path
  data : List UInt8
  deriving DecidableEq, Repr

structure Block where
  partitionAddress : UInt32
  partitionSize : UInt32
  /-- Where the payload starts, counted from the start of the first one. -/
  offset : UInt32
  size : UInt32
  checksum : UInt32
  role : Role
  deriving DecidableEq, Repr

structure Record where
  blocks : List Block
  deriving DecidableEq, Repr

def magic : List UInt8 := [0x92, 0x11, 0xF2, 0xE9]

/-- The bytes that fill up a block. -/
def filler : List UInt8 := [0xFF, 0xFF, 0xFF]

def blockSize : Nat := 24

/-- A record has at most so many blocks. -/
def maxBlocks : Nat := 2

namespace Block

def encode (b : Block) : List UInt8 :=
  Word.bytes b.partitionAddress ++ (Word.bytes b.partitionSize ++ (Word.bytes b.offset ++
    (Word.bytes b.size ++ (Word.bytes b.checksum ++ b.role.id :: filler))))

/-- A block from the bytes behind an offset. -/
def decode (data : List UInt8) (offset : Nat) : Except RecordError Block :=
  match Word.at? data offset, Word.at? data (offset + 4), Word.at? data (offset + 8),
    Word.at? data (offset + 12), Word.at? data (offset + 16), data.drop (offset + 20) with
  | some address, some size, some start, some length, some checksum, id :: a :: b :: c :: _ =>
    if [a, b, c] ≠ filler then .error .filler
    else match Role.ofId? id with
      | some role => .ok ⟨address, size, start, length, checksum, role⟩
      | none => .error (.unknownId id)
  | _, _, _, _, _, _ => .error .tooShort

end Block

namespace Record

/-- Adds the block of a payload. The payloads follow each other; `used` bytes are behind. -/
def addPayload (table : Hardware.PartitionTable) : List Block × Nat → Payload →
    Except Failure (List Block × Nat)
  | (blocks, used), p => do
    let partition ← table.require p.role.partition
    if p.data.isEmpty then throw (.artifactMissing p.source)
    if Word.limit ≤ used + p.data.length then throw (.image (.overflow used p.data.length))
    let block : Block :=
      ⟨partition.start, partition.size, .ofNat used, .ofNat p.data.length, crc32 p.data, p.role⟩
    pure (blocks ++ [block], used + p.data.length)

/-- The record of some payloads, in their order. -/
def ofPayloads (table : Hardware.PartitionTable) (payloads : List Payload) :
    Except Failure Record := do
  let (blocks, _) ← payloads.foldlM (addPayload table) ([], 0)
  pure ⟨blocks⟩

/-- The record of the SoftDevice's payload and, behind it, of that of the firmware loader. -/
def make (table : Hardware.PartitionTable) (softDevice : Payload) (loader : Option Payload) :
    Except Failure Record :=
  ofPayloads table (softDevice :: loader.toList)

/-- The bytes of all payloads together. -/
def payloadSize (r : Record) : Nat := r.blocks.foldr (fun b n => b.size.toNat + n) 0

def encodedSize (r : Record) : Nat := magic.length + r.blocks.length * blockSize + 4

/-- What the checksum covers. -/
def body (r : Record) : List UInt8 := magic ++ r.blocks.flatMap Block.encode

def encode (r : Record) : List UInt8 := r.body ++ Word.bytes (crc32 r.body)

/-- Reads on behind some blocks, with `room` for more. The record ends where the checksum of
what is behind stands; a record has at least one block. -/
def decodeFrom (data : List UInt8) (blocks : List Block) (room : Nat) :
    Except RecordError Record :=
  let position := magic.length + blocks.length * blockSize
  match Word.at? data position with
  | none => .error .tooShort
  | some recorded =>
    let computed := crc32 (data.take position)
    if !blocks.isEmpty && recorded == computed then .ok ⟨blocks⟩
    else match Block.decode data position, room with
      | .ok block, room + 1 => decodeFrom data (blocks ++ [block]) room
      | .ok _, 0 => .error (.checksum recorded computed)
      | .error e, _ => .error (if blocks.isEmpty then e else .checksum recorded computed)

/-- The record at the front of some bytes; what is behind it does not matter. -/
def decode (data : List UInt8) : Except RecordError Record :=
  if data.length < magic.length then .error .tooShort
  else if data.take magic.length ≠ magic then .error (.magic (data.take magic.length))
  else decodeFrom data [] maxBlocks

end Record
end Update
end FirmwareMeta
