import FirmwareMeta.Text.Numeral

/-!
Records of the Intel HEX format and their lines. A line is a colon and pairs of hexadecimal
digits: length, 16-bit offset, type, payload and a checksum that makes the sum of all bytes
zero.
-/
namespace FirmwareMeta.IntelHex

inductive Record where
  | data (offset : UInt16) (bytes : List UInt8)
  | endOfFile
  /-- Sets the base address to sixteen times a value. -/
  | segmentAddress (base : UInt16)
  | startSegment (code pointer : UInt16)
  /-- Sets the upper half of the base address. -/
  | linearAddress (upper : UInt16)
  | startLinear (upper lower : UInt16)
  deriving DecidableEq, Repr

/-- What is wrong with a line. -/
inductive LineError where
  | missingColon
  | invalidCharacter
  | tooShort
  | tooLong
  | unevenLength
  | checksum (computed recorded : UInt8)
  | lengthMismatch
  | lengthForType
  | unknownType (type : UInt8)
  deriving DecidableEq, Repr

/-- Two digits, letters in upper case. -/
def pair (byte : UInt8) : List Char :=
  let digit (n : Nat) : Char := (Nat.digitChar n).toUpper
  [digit (byte.toNat / 16), digit (byte.toNat % 16)]

def LineError.message : LineError → String
  | missingColon => "missing start code ':'"
  | invalidCharacter => "invalid characters encountered in record"
  | tooShort => "too short"
  | tooLong => "too long"
  | unevenLength => "record does not contain a whole number of bytes"
  | checksum computed recorded =>
    "invalid checksum '" ++ String.ofList (pair computed) ++ "', expecting '" ++
      String.ofList (pair recorded) ++ "'"
  | lengthMismatch => "payload length does not match record header"
  | lengthForType => "payload length invalid for record type"
  | unknownType type =>
    "unsupported IHEX record type '" ++ String.ofList (pair type) ++ "'"

/-- The byte that brings the sum of all bytes to zero. -/
def checksum (bytes : List UInt8) : UInt8 :=
  0 - bytes.foldl (· + ·) 0

/-- Bytes from pairs of digits; `none` for another character or a lone digit. -/
def unhex? : List Char → Option (List UInt8)
  | [] => some []
  | high :: low :: rest => do
    let h ← Numeral.digit? 16 high
    let l ← Numeral.digit? 16 low
    let bytes ← unhex? rest
    pure (.ofNat (16 * h + l) :: bytes)
  | [_] => none

/-- A 16-bit number from its bytes, the high one first, and its bytes. -/
def halfWord (high low : UInt8) : UInt16 :=
  .ofNat (256 * high.toNat + low.toNat)

def halfBytes (h : UInt16) : List UInt8 :=
  [.ofNat (h.toNat / 256), .ofNat h.toNat]

/-- Digits in a line with no payload and with the longest one. -/
def shortest : Nat := 10
def longest : Nat := 520

/-- Data bytes that the length byte can count. -/
def maxPayload : Nat := 255

namespace Record

/-- A record from its offset, type and payload. The offset matters to data only. -/
def ofFields (offset : UInt16) (type : UInt8) (payload : List UInt8) :
    Except LineError Record :=
  match type, payload with
  | 0, bytes => .ok (.data offset bytes)
  | 1, [] => .ok .endOfFile
  | 2, [a, b] => .ok (.segmentAddress (halfWord a b))
  | 3, [a, b, c, d] => .ok (.startSegment (halfWord a b) (halfWord c d))
  | 4, [a, b] => .ok (.linearAddress (halfWord a b))
  | 5, [a, b, c, d] => .ok (.startLinear (halfWord a b) (halfWord c d))
  | type, _ => .error (if type ≤ 5 then .lengthForType else .unknownType type)

/-- A record from the bytes of its line in front of the checksum. -/
def ofBytes (bytes : List UInt8) : Except LineError Record :=
  match bytes with
  | length :: high :: low :: type :: payload =>
    if payload.length = length.toNat then ofFields (halfWord high low) type payload
    else .error .lengthMismatch
  | _ => .error .tooShort

/-- A record from its line, which has no terminator. -/
def ofLine (line : List Char) : Except LineError Record :=
  match line with
  | ':' :: digits =>
    if digits.any (fun c => (Numeral.digit? 16 c).isNone) then .error .invalidCharacter
    else if digits.length < shortest then .error .tooShort
    else if longest < digits.length then .error .tooLong
    else match unhex? digits with
      | none => .error .unevenLength
      | some bytes =>
        let recorded := bytes.getLast?.getD 0
        let body := bytes.dropLast
        if checksum body = recorded then ofBytes body
        else .error (.checksum (checksum body) recorded)
  | _ => .error .missingColon

def offset : Record → UInt16
  | data offset _ => offset
  | _ => 0

def type : Record → UInt8
  | data .. => 0
  | endOfFile => 1
  | segmentAddress _ => 2
  | startSegment .. => 3
  | linearAddress _ => 4
  | startLinear .. => 5

def payload : Record → List UInt8
  | data _ bytes => bytes
  | endOfFile => []
  | segmentAddress base => halfBytes base
  | startSegment code pointer => halfBytes code ++ halfBytes pointer
  | linearAddress upper => halfBytes upper
  | startLinear upper lower => halfBytes upper ++ halfBytes lower

/-- The bytes of a record's line in front of the checksum. -/
def bytes (r : Record) : List UInt8 :=
  .ofNat r.payload.length :: halfBytes r.offset ++ r.type :: r.payload

/-- The line of a record, without a terminator. -/
def line (r : Record) : List Char :=
  ':' :: (r.bytes ++ [checksum r.bytes]).flatMap pair

end Record
end FirmwareMeta.IntelHex
