import FirmwareMeta.Update.Record

/-!
Bundles: a record directly behind the installer, and the payloads directly behind the record.
`verify` reads a bundle back and checks each payload against its block.
-/
namespace FirmwareMeta.Update

structure Bundle where
  /-- The first address behind the installer. -/
  recordAddress : Nat
  /-- The first address behind the record. -/
  payloadAddress : Nat
  record : Image
  combined : Image
  deriving DecidableEq, Repr

/-- The address `length` bytes behind another one, if there is such an address. -/
def addressBehind (address length : Nat) : Except Failure Nat :=
  if address + length < Word.limit then .ok (address + length)
  else .error (.image (.overflow address length))

def Block.describes (b : Block) (p : Payload) : Bool :=
  b.role = p.role && b.size.toNat = p.data.length && b.checksum = crc32 p.data

/-- Whether payloads are those that a record describes, one for each block in order. -/
def Record.check (r : Record) (payloads : List Payload) : Except Mismatch Unit :=
  if r.blocks.length ≠ payloads.length then .error (.count r.blocks.length payloads.length)
  else match (r.blocks.zip payloads).find? fun (b, p) => !b.describes p with
    | some (b, p) => .error (.undescribed b.role p.source)
    | none => .ok ()

namespace Bundle

/-- Writes a payload where its block says. -/
def addPayload (payloadAddress : Nat) (image : Image) : Block × Payload → Except Failure Image
  | (b, p) => do
    let address ← addressBehind payloadAddress b.offset.toNat
    Failure.lift .image (image.write address p.data)

def make (installer : Image) (r : Record) (payloads : List Payload) : Except Failure Bundle := do
  Failure.lift .mismatch (r.check payloads)
  match installer.maxAddress? with
  | none => throw (.inconsistent .emptyInstaller)
  | some last =>
    let bytes := r.encode
    if Word.limit ≤ last + 1 then throw (.image (.overflow last bytes.length))
    let recordAddress := last + 1
    let payloadAddress ← addressBehind recordAddress bytes.length
    let record ← Failure.lift .image (Image.ofBytes recordAddress bytes)
    let combined ← (r.blocks.zip payloads).foldlM (addPayload payloadAddress) record
    pure ⟨recordAddress, payloadAddress, record, combined⟩

/-- What the log says about a bundle. -/
def summary (b : Bundle) (r : Record) : String :=
  "metadata at " ++ Numeral.hexWord b.recordAddress ++ " (" ++ toString r.encode.length ++
    " bytes), payloads at " ++ Numeral.hexWord b.payloadAddress ++ " (" ++
    toString r.payloadSize ++ " bytes)"

end Bundle

/-- Checks the payload of a block in an image. -/
def Block.verify (image : Image) (payloadAddress : Nat) (b : Block) : Except Failure Unit := do
  let address ← addressBehind payloadAddress b.offset.toNat
  match image.read? address b.size.toNat with
  | none => throw (.mismatch (.incomplete b.role address))
  | some payload =>
    if crc32 payload ≠ b.checksum then
      throw (.mismatch (.checksum b.role address (crc32 payload) b.checksum))

/-- The record at an address of an image, all of whose payloads are there and sound. -/
def verify (image : Image) (address : Nat) : Except Failure Record := do
  match image.run? address with
  | none => throw (.mismatch (.noData address))
  | some data =>
    let r ← Failure.lift .record (Record.decode data)
    let payloadAddress ← addressBehind address r.encodedSize
    r.blocks.forM (Block.verify image payloadAddress)
    pure r

end FirmwareMeta.Update
