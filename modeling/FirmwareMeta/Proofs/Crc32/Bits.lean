import FirmwareMeta.Crc32
import Mathlib.Logic.Function.Iterate

/-! The register of the checksum bit by bit. `bit_shift` says what a step does to each bit, and the
rest follows from it: a step is linear and loses nothing, and the bits of up to four bytes may go in
at once. -/
namespace FirmwareMeta.Crc32

variable {r s : UInt32} {bits others : List Bool}

/-- A bit of a register, counted from the least significant one. -/
def bit (r : UInt32) (i : Nat) : Bool := r.toBitVec.getLsbD i

theorem ext_bit (same : ∀ i < 32, bit r i = bit s i) : r = s := by
  apply UInt32.toBitVec_inj.mp
  exact BitVec.eq_of_getLsbD_eq same

theorem bit_ge {i : Nat} (high : 32 ≤ i) : bit r i = false :=
  BitVec.getLsbD_of_ge _ _ high

@[simp] theorem bit_zero (i : Nat) : bit 0 i = false := by
  simp [bit]

@[simp] theorem bit_xor (r s : UInt32) (i : Nat) : bit (r ^^^ s) i = (bit r i ^^ bit s i) := by
  simp [bit]

theorem bit_not (r : UInt32) {i : Nat} (low : i < 32) : bit (~~~r) i = !bit r i := by
  simp [bit, low]

theorem bit_double (r : UInt32) (i : Nat) :
    bit (r <<< 1) (i + 1) = (decide (i + 1 < 32) && bit r i) := by
  simp [bit]

theorem bit_double_zero (r : UInt32) : bit (r <<< 1) 0 = false := by
  simp [bit]

theorem and_one (r : UInt32) : r &&& 1 = 1 ↔ bit r 0 = true := by
  rw [← UInt32.toBitVec_inj, UInt32.toBitVec_and, bit]
  change r.toBitVec &&& 1#32 = 1#32 ↔ _
  rw [BitVec.and_one_eq_setWidth_ofBool_getLsbD]
  cases r.toBitVec.getLsbD 0 <;> decide

/-- All bits move down by one place, and the lowest one goes to the places of the polynomial. -/
theorem bit_shift (r : UInt32) (i : Nat) :
    bit (shift r) i = (bit r (i + 1) ^^ (bit r 0 && bit 0xEDB88320 i)) := by
  unfold shift
  cases odd : bit r 0 with
  | false =>
    rw [if_neg (by simp [and_one, odd])]
    simp [bit, Nat.add_comm 1 i]
  | true =>
    rw [if_pos (by simp [and_one, odd])]
    simp [bit, Nat.add_comm 1 i]

theorem shift_xor (r s : UInt32) : shift (r ^^^ s) = shift r ^^^ shift s := by
  apply ext_bit
  intro i _
  simp only [bit_shift, bit_xor]
  cases bit r 0 <;> cases bit s 0 <;> simp <;> grind

/-- The highest bit of the polynomial is set, so the highest bit behind a step is the lowest one in
front of it. -/
theorem shift_injective : Function.Injective shift := by
  intro r s same
  have moved : ∀ i, bit (shift r) i = bit (shift s) i := fun i => by rw [same]
  simp only [bit_shift] at moved
  have low : bit r 0 = bit s 0 := by
    have top : bit 0xEDB88320 31 = true := by decide
    simpa [bit_ge, top] using moved 31
  apply ext_bit
  intro i _
  cases i with
  | zero => exact low
  | succ i => simpa [low] using moved i

/-! Words of bits -/

/-- A bit as a word. -/
def ofBit (b : Bool) : UInt32 := if b then 1 else 0

theorem bit_ofBit (b : Bool) (i : Nat) : bit (ofBit b) i = (b && decide (i = 0)) := by
  cases b with
  | false => simp [ofBit]
  | true =>
    change (1#32).getLsbD i = _
    simp [BitVec.getLsbD_one]

/-- Bits as a word, the first one the least significant. -/
def word : List Bool → UInt32
  | [] => 0
  | b :: rest => ofBit b ^^^ (word rest <<< 1)

theorem bit_word (bits : List Bool) (i : Nat) :
    bit (word bits) i = (decide (i < 32) && bits[i]?.getD false) := by
  induction bits generalizing i with
  | nil => simp [word]
  | cons b rest ih =>
    rw [word, bit_xor, bit_ofBit]
    cases i with
    | zero => simp [bit_double_zero]
    | succ i =>
      rw [bit_double, ih]
      by_cases inside : i + 1 < 32 <;> simp [inside]
      omega

/-- Bits that fit into a word are told apart by it. -/
theorem word_injective (count : bits.length = others.length) (fits : bits.length ≤ 32)
    (same : word bits = word others) : bits = others := by
  apply List.ext_getElem count
  intro i inside also
  have : bit (word bits) i = bit (word others) i := by rw [same]
  simpa [bit_word, inside, also, Nat.lt_of_lt_of_le inside fits] using this

theorem shift_double_word (fits : bits.length < 32) : shift (word bits <<< 1) = word bits := by
  apply ext_bit
  intro i low
  rw [bit_shift, bit_double, bit_double_zero, bit_word]
  by_cases inside : i + 1 < 32
  · simp [inside]
  · have behind : bits[i]? = none := List.getElem?_eq_none (by omega)
    simp [behind]

/-! Messages as bits -/

/-- A bit of a message goes into the register. -/
def push (r : UInt32) (b : Bool) : UInt32 := shift (r ^^^ ofBit b)

/-- Bits that fit into a register may go in all at once. -/
theorem foldl_push (r : UInt32) (fits : bits.length ≤ 32) :
    bits.foldl push r = shift^[bits.length] (r ^^^ word bits) := by
  induction bits generalizing r with
  | nil => simp [word]
  | cons b rest ih =>
    have short : rest.length < 32 := fits
    calc (b :: rest).foldl push r
      _ = shift^[rest.length] (push r b ^^^ word rest) := ih _ (Nat.le_of_lt short)
      _ = shift^[rest.length] (shift (r ^^^ ofBit b) ^^^ shift (word rest <<< 1)) := by
        rw [push, shift_double_word short]
      _ = shift^[(b :: rest).length] (r ^^^ word (b :: rest)) := by
        rw [← shift_xor, UInt32.xor_assoc, List.length_cons, Function.iterate_succ_apply, word]

/-- The bits of a byte, the least significant first. -/
def bitsOf (byte : UInt8) : List Bool := (List.range 8).map byte.toNat.testBit

@[simp] theorem length_bitsOf (byte : UInt8) : (bitsOf byte).length = 8 := by
  simp [bitsOf]

theorem word_bitsOf (byte : UInt8) : word (bitsOf byte) = byte.toUInt32 := by
  apply ext_bit
  intro i low
  rw [bit_word]
  change _ = byte.toUInt32.toNat.testBit i
  rw [UInt8.toNat_toUInt32, bitsOf, List.getElem?_map]
  by_cases inside : i < 8
  · simp [low, inside]
  · have small : byte.toNat < 2 ^ i :=
      Nat.lt_of_lt_of_le byte.toNat_lt (Nat.pow_le_pow_right (by decide) (Nat.le_of_not_lt inside))
    simp [inside, Nat.testBit_lt_two_pow small]

theorem bitsOf_injective : Function.Injective bitsOf := by
  intro a b same
  have words := congrArg word same
  rw [word_bitsOf, word_bitsOf] at words
  exact UInt8.toUInt32_inj.mp words

theorem feed_eq (r : UInt32) (byte : UInt8) : feed r byte = (bitsOf byte).foldl push r := by
  rw [foldl_push r (by simp), word_bitsOf, length_bitsOf]
  rfl

theorem register_eq (r : UInt32) (data : List UInt8) :
    register r data = (data.flatMap bitsOf).foldl push r := by
  induction data generalizing r with
  | nil => rfl
  | cons byte rest ih =>
    rw [List.flatMap_cons, List.foldl_append, ← feed_eq]
    exact ih (feed r byte)

theorem length_flatMap_bitsOf (data : List UInt8) :
    (data.flatMap bitsOf).length = 8 * data.length := by
  induction data with
  | nil => rfl
  | cons byte rest ih =>
    rw [List.flatMap_cons, List.length_append, ih, length_bitsOf, List.length_cons]
    omega

end FirmwareMeta.Crc32
