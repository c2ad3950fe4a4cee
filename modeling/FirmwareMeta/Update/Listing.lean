import FirmwareMeta.Text.ByteSize
import FirmwareMeta.Update.Record

/-!
Records for a reader: a line for each property, in which a label of ten columns stands in front
of the value, and an empty line between the groups.
-/
namespace FirmwareMeta

/-- A text for a terminal, in bold on request. -/
def Text.bold (styled : Bool) (text : String) : String :=
  if styled then "\x1b[1m" ++ text ++ "\x1b[0m" else text

namespace Update.Listing

def line (styled : Bool) (label value : String) : String :=
  let filled := label ++ String.ofList (List.replicate (10 - label.length) ' ')
  Text.bold styled filled ++ " " ++ value ++ "\n"

/-- A size for a reader and as a number of bytes. -/
def size (bytes : UInt32) : String :=
  Text.byteSize bytes.toNat ++ " (" ++ toString bytes ++ ")"

/-- A block. `status` is what is known about its payload. -/
def block (styled : Bool) (status : String) (b : Block) : String :=
  "\n" ++ line styled "image" (b.role.name ++ " (" ++ toString b.role.id ++ ")") ++
    line styled "partition"
      (Numeral.hexWord b.partitionAddress.toNat ++ " " ++ size b.partitionSize) ++
    line styled "blob" (Numeral.hex 1 b.offset.toNat ++ " " ++ size b.size) ++
    line styled "crc" (Numeral.hexWord b.checksum.toNat ++ " " ++ status)

/-- A record at an address with the payload bytes behind it, which have been checked. -/
def text (styled : Bool) (address : Nat) (r : Record) (payloads : List UInt8) : String :=
  let status := if payloads.isEmpty then "payload not included" else "verified"
  line styled "address" (Numeral.hexWord address) ++
    line styled "length" (toString r.encodedSize ++ " B") ++
    line styled "checksum" (Numeral.hexWord (crc32 r.body).toNat ++ " (valid)") ++
    String.join (r.blocks.map (block styled status)) ++
    if payloads.isEmpty then ""
    else "\n" ++ line styled "payloads" (Text.byteSize payloads.length ++ " (" ++
      Numeral.hexWord (crc32 payloads).toNat ++ ")")

end Update.Listing
end FirmwareMeta
