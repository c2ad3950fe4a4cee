import FirmwareMeta.Image.IntelHex.Record
import FirmwareMeta.Image.Sparse

/-!
Images as Intel HEX text: data records of at most sixteen bytes that cross no 64 KiB boundary,
and a linear address record wherever the upper half of the address changes.
-/
namespace FirmwareMeta.IntelHex

/-- Data bytes per record. -/
def recordLength : Nat := 16

/-- Number of addresses that share their upper half. -/
def bank : Nat := 0x10000

/-- The bytes of one data record and their address. -/
structure Piece where
  address : Nat
  bytes : List UInt8
  deriving DecidableEq, Repr

def Piece.upper (p : Piece) : Nat := p.address / bank

def Piece.record (p : Piece) : Record :=
  .data (.ofNat (p.address % bank)) p.bytes

/-- Number of bytes in a piece that starts at an address and is followed by more. -/
def room (address : Nat) : Nat := min recordLength (bank - address % bank)

theorem room_pos (address : Nat) : 0 < room address := by
  simp only [room, recordLength, bank]
  omega

/-- The pieces of a run of bytes, behind those in `before`, which has the last one first. -/
def piecesFrom (before : List Piece) (address : Nat) (bytes : List UInt8) : List Piece :=
  if bytes = [] then before.reverse
  else
    let size := room address
    piecesFrom (⟨address, bytes.take size⟩ :: before) (address + size) (bytes.drop size)
termination_by bytes.length
decreasing_by
  rename_i h
  have := room_pos address
  have := List.length_pos_iff.2 h
  simp
  omega

def pieces (image : Image) : List Piece :=
  image.segments.flatMap fun s => piecesFrom [] s.start s.bytes.toList

/-- The records of a piece behind one with the given upper half. -/
def Piece.records (p : Piece) (before : Nat) : List Record :=
  if p.upper = before then [p.record] else [.linearAddress (.ofNat p.upper), p.record]

/-- The records of an image. In front of the first piece the upper half is zero. -/
def records (image : Image) : List Record :=
  let ps := pieces image
  (ps.zip (0 :: ps.map (·.upper))).flatMap (fun (p, before) => p.records before) ++ [.endOfFile]

/-- The image as text, each line ended by a newline. -/
def print (image : Image) : String :=
  String.ofList ((records image).flatMap fun r => r.line ++ ['\n'])

end FirmwareMeta.IntelHex
