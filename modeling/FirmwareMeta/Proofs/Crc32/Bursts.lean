import FirmwareMeta.Proofs.Crc32.Bits
import FirmwareMeta.Word
import Mathlib.Algebra.Group.Nat.Defs
import Mathlib.Tactic.ByContra

/-! Damage that the checksum catches: messages of one length that differ within four bytes in a row
have different checksums, and so have messages that carry their checksum behind them. -/
namespace FirmwareMeta

variable {a b : List UInt8} {first : Nat} {r : UInt32}

namespace Crc32

theorem register_injective (data : List UInt8) : Function.Injective (register · data) := by
  intro r s same
  induction data generalizing r s with
  | nil => exact same
  | cons byte rest ih =>
    have fed : shift^[8] (r ^^^ byte.toUInt32) = shift^[8] (s ^^^ byte.toUInt32) := ih same
    exact (UInt32.xor_left_inj _).mp (shift_injective.iterate 8 fed)

theorem flatMap_bitsOf_injective (count : a.length = b.length)
    (same : a.flatMap bitsOf = b.flatMap bitsOf) : a = b := by
  induction a generalizing b with
  | nil => exact (List.length_eq_zero_iff.mp count.symm).symm
  | cons x a ih =>
    cases b with
    | nil => contradiction
    | cons y b =>
      obtain ⟨head, tail⟩ := List.append_inj same (by simp)
      rw [bitsOf_injective head, ih (Nat.succ.inj count) tail]

/-- Up to four bytes are told apart by any register that they go into. -/
theorem register_window (count : a.length = b.length) (short : a.length ≤ 4)
    (same : register r a = register r b) : a = b := by
  have size : (a.flatMap bitsOf).length = (b.flatMap bitsOf).length := by
    rw [length_flatMap_bitsOf, length_flatMap_bitsOf, count]
  have fits : (a.flatMap bitsOf).length ≤ 32 := by
    rw [length_flatMap_bitsOf]
    omega
  rw [register_eq, register_eq, foldl_push r fits, foldl_push r (size ▸ fits), ← size] at same
  have words := (UInt32.xor_right_inj r).mp (shift_injective.iterate _ same)
  exact flatMap_bitsOf_injective count (word_injective size fits words)

/-! A message with its checksum -/

theorem bitsOf_ofNat (w : UInt32) (k : Nat) :
    bitsOf (.ofNat (w.toNat / 2 ^ k)) = (List.range 8).map fun i => bit w (k + i) := by
  apply List.map_congr_left
  intro i inside
  have low : i < 8 := List.mem_range.mp inside
  change _ = w.toNat.testBit (k + i)
  rw [UInt8.toNat_ofNat', Nat.testBit_mod_two_pow, Nat.testBit_div_two_pow, Nat.add_comm]
  simp [low]

theorem flatMap_bitsOf_bytes (w : UInt32) :
    (Word.bytes w).flatMap bitsOf = (List.range 32).map (bit w) := by
  calc (Word.bytes w).flatMap bitsOf
    _ = bitsOf (.ofNat (w.toNat / 2 ^ 0)) ++ (bitsOf (.ofNat (w.toNat / 2 ^ 8)) ++
          (bitsOf (.ofNat (w.toNat / 2 ^ 16)) ++ (bitsOf (.ofNat (w.toNat / 2 ^ 24)) ++ []))) := by
      rw [Nat.pow_zero, Nat.div_one]
      rfl
    _ = (List.range 32).map (bit w) := by
      simp only [bitsOf_ofNat]
      rfl

/-- A word goes into the register all at once. -/
theorem register_bytes (r w : UInt32) : register r (Word.bytes w) = shift^[32] (r ^^^ w) := by
  have size : ((Word.bytes w).flatMap bitsOf).length = 32 := length_flatMap_bitsOf _
  have same : word ((Word.bytes w).flatMap bitsOf) = w := by
    apply ext_bit
    intro i low
    rw [bit_word, flatMap_bitsOf_bytes]
    simp [low]
  rw [register_eq, foldl_push r (Nat.le_of_eq size), same, size]

/-- With its checksum behind it every message leaves the same register. -/
theorem register_checksum (data : List UInt8) :
    register 0xFFFFFFFF (data ++ Word.bytes (crc32 data)) = shift^[32] 0xFFFFFFFF := by
  have ones : ∀ s : UInt32, s ^^^ ~~~s = 0xFFFFFFFF := by
    intro s
    apply ext_bit
    intro i low
    have set : bit 0xFFFFFFFF i = true := by
      change (BitVec.allOnes 32).getLsbD i = true
      rw [BitVec.getLsbD_allOnes, decide_eq_true low]
    rw [bit_xor, bit_not _ low, set, Bool.xor_not_self]
  rw [register_append, register_bytes, crc32, ones]

end Crc32

/-! Bursts -/

/-- Lists of one length that differ, and only within four places in a row. -/
structure Burst (a b : List UInt8) (first : Nat) : Prop where
  count : a.length = b.length
  differ : a ≠ b
  near : ∀ i, a[i]? ≠ b[i]? → first ≤ i ∧ i < first + 4

/-- The registers are equal in front of the differing bytes, and equal ones behind them would come
from equal bytes. -/
theorem Burst.register_ne (burst : Burst a b first) (r : UInt32) :
    Crc32.register r a ≠ Crc32.register r b := by
  have front : a.take first = b.take first := by
    apply List.ext_getElem?
    intro i
    rw [List.getElem?_take, List.getElem?_take]
    split
    · by_contra differ
      have := burst.near i differ
      omega
    · rfl
  have tail : a.drop (first + 4) = b.drop (first + 4) := by
    apply List.ext_getElem?
    intro i
    rw [List.getElem?_drop, List.getElem?_drop]
    by_contra differ
    have := burst.near _ differ
    omega
  have split : ∀ l : List UInt8,
      l = l.take first ++ ((l.drop first).take 4 ++ l.drop (first + 4)) := by
    intro l
    rw [← List.drop_drop, List.take_append_drop, List.take_append_drop]
  intro same
  apply burst.differ
  rw [split a, split b, front, tail] at same ⊢
  simp only [Crc32.register_append] at same
  have window := Crc32.register_injective _ same
  have count : ((a.drop first).take 4).length = ((b.drop first).take 4).length := by
    simp [burst.count]
  rw [Crc32.register_window count (List.length_take_le _ _) window]

theorem Burst.crc32_ne (burst : Burst a b first) : crc32 a ≠ crc32 b :=
  fun same => burst.register_ne _ (UInt32.not_inj.mp same)

end FirmwareMeta
