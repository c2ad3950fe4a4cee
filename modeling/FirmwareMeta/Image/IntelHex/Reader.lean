import FirmwareMeta.Image.IntelHex.Record
import FirmwareMeta.Image.Sparse
import FirmwareMeta.Text.Line

/-!
Images from Intel HEX text. Reading stops at the end-of-file record or at the end of the text;
empty lines are skipped.
-/
namespace FirmwareMeta.IntelHex

inductive ReadError where
  | line (error : LineError)
  | write (error : Image.WriteError)
  deriving DecidableEq, Repr

/-- What the records so far have built: the base of the offsets and the written bytes. -/
structure Loaded where
  base : Nat
  image : Image
  finished : Bool

def Loaded.start : Loaded := ⟨0, Image.empty, false⟩

/-- Takes a record in. A start address is no data. -/
def Loaded.add : Loaded → Record → Except ReadError Loaded
  | ⟨base, image, finished⟩, .data offset bytes =>
    let address := base + offset.toNat
    if Word.limit ≤ address then .error (.write (.overflow base bytes.length))
    else match image.write address bytes with
      | .ok image => .ok ⟨base, image, finished⟩
      | .error e => .error (.write e)
  | l, .segmentAddress base => .ok { l with base := 16 * base.toNat }
  | l, .linearAddress upper => .ok { l with base := 0x10000 * upper.toNat }
  | l, .startSegment .. => .ok l
  | l, .startLinear .. => .ok l
  | l, .endOfFile => .ok { l with finished := true }

/-- Takes a line in. Nothing behind the end-of-file record is looked at. -/
def Loaded.addLine (l : Loaded) (line : List Char) : Except ReadError Loaded :=
  if l.finished || line.isEmpty then .ok l
  else match Record.ofLine line with
    | .ok record => l.add record
    | .error e => .error (.line e)

def parse (text : String) : Except ReadError Image :=
  match ((Text.cut text.toList).map Text.body).foldlM Loaded.addLine Loaded.start with
  | .ok loaded => .ok loaded.image
  | .error e => .error e

end FirmwareMeta.IntelHex
