import FirmwareMeta.Proofs.Crc32.Bits

/-! Checksums of 32 bits by their parameters. Catalogues divide with the most significant bit first;
for the parameters with the name CRC-32/ISO-HDLC that gives the checksum of this library, whose
register is the reversed one. -/
namespace FirmwareMeta.Crc32

structure Parameters where
  /-- The polynomial without its leading term. -/
  polynomial : BitVec 32
  start : BitVec 32
  /-- Whether the bits of a byte go in from the least significant one. -/
  reflectedIn : Bool
  /-- Whether the register is read from its other end. -/
  reflectedOut : Bool
  /-- What is added in the end. -/
  final : BitVec 32

namespace Parameters

/-- One step of the division, most significant bit first. -/
def next (p : Parameters) (r : BitVec 32) (b : Bool) : BitVec 32 :=
  if r.msb ^^ b then r <<< 1 ^^^ p.polynomial else r <<< 1

def message (p : Parameters) (data : List UInt8) : List Bool :=
  data.flatMap fun byte =>
    let bits := (List.range 8).map byte.toNat.testBit
    if p.reflectedIn then bits else bits.reverse

def checksum (p : Parameters) (data : List UInt8) : BitVec 32 :=
  let r := (p.message data).foldl p.next p.start
  (if p.reflectedOut then r.reverse else r) ^^^ p.final

/-- The parameters that catalogues call CRC-32/ISO-HDLC. -/
def isoHdlc : Parameters where
  polynomial := 0x04C11DB7
  start := 0xFFFFFFFF
  reflectedIn := true
  reflectedOut := true
  final := 0xFFFFFFFF

end Parameters

open Parameters (isoHdlc)

theorem getLsbD_reverse (r : UInt32) {i : Nat} (low : i < 32) :
    r.toBitVec.reverse.getLsbD i = bit r (31 - i) := by
  rw [BitVec.getLsbD_reverse, BitVec.getMsbD_eq_getLsbD, bit]
  simp [low]

theorem reverse_push (r : UInt32) (b : Bool) :
    (push r b).toBitVec.reverse = isoHdlc.next r.toBitVec.reverse b := by
  have polynomial : isoHdlc.polynomial = (0xEDB88320 : UInt32).toBitVec.reverse := by
    decide +kernel
  -- Moving down is moving up from the other end; the bit that goes in is moved out again.
  have moved : ∀ i < 32,
      (r.toBitVec.reverse <<< 1).getLsbD i = bit (r ^^^ ofBit b) (31 - i + 1) := by
    intro i low
    rw [BitVec.getLsbD_shiftLeft, bit_xor, bit_ofBit]
    cases i with
    | zero => simp [bit_ge]
    | succ i =>
      have place : 31 - (i + 1) + 1 = 31 - i := by omega
      have high : 31 - i ≠ 0 := by omega
      rw [Nat.add_sub_cancel, getLsbD_reverse r (by omega), place]
      simp [low, high]
  have out : r.toBitVec.reverse.msb = bit r 0 := BitVec.msb_reverse
  apply BitVec.eq_of_getLsbD_eq
  intro i low
  rw [getLsbD_reverse _ low, push, bit_shift, ← moved i low, Parameters.next, out, polynomial,
    bit_xor, bit_ofBit, ← getLsbD_reverse _ low]
  cases bit r 0 <;> cases b <;> simp

theorem reverse_foldl_push (r : UInt32) (bits : List Bool) :
    (bits.foldl push r).toBitVec.reverse = bits.foldl isoHdlc.next r.toBitVec.reverse := by
  induction bits generalizing r with
  | nil => rfl
  | cons b rest ih => rw [List.foldl_cons, ih, reverse_push, List.foldl_cons]

theorem reverse_reverse (r : BitVec 32) : r.reverse.reverse = r := by
  apply BitVec.eq_of_getLsbD_eq
  intro i _
  rw [BitVec.getLsbD_reverse, BitVec.getMsbD_reverse]

theorem toBitVec_crc32 (data : List UInt8) : (crc32 data).toBitVec = isoHdlc.checksum data := by
  have message : isoHdlc.message data = data.flatMap bitsOf := rfl
  have start : isoHdlc.start = (0xFFFFFFFF : UInt32).toBitVec.reverse := by decide +kernel
  rw [Parameters.checksum, message, start, ← reverse_foldl_push, ← register_eq, crc32]
  simp only [isoHdlc, if_true, reverse_reverse, UInt32.toBitVec_not]
  exact BitVec.xor_allOnes.symm

end FirmwareMeta.Crc32
