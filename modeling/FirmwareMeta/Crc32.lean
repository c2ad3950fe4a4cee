/-!
The checksum CRC-32/ISO-HDLC: reflected, with all bits set at the start and inverted at the end.
-/
namespace FirmwareMeta

/-- One step of the division by the reflected polynomial. -/
def Crc32.shift (r : UInt32) : UInt32 :=
  if r &&& 1 = 1 then (r >>> 1) ^^^ 0xEDB88320 else r >>> 1

def Crc32.feed (r : UInt32) (byte : UInt8) : UInt32 :=
  let r := r ^^^ byte.toUInt32
  shift (shift (shift (shift (shift (shift (shift (shift r)))))))

/-- The register after some bytes. -/
def Crc32.register (start : UInt32) (data : List UInt8) : UInt32 :=
  data.foldl feed start

def crc32 (data : List UInt8) : UInt32 :=
  ~~~ Crc32.register 0xFFFFFFFF data

theorem Crc32.register_append (start : UInt32) (a b : List UInt8) :
    register start (a ++ b) = register (register start a) b :=
  List.foldl_append

end FirmwareMeta
