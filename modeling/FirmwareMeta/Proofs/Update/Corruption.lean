import FirmwareMeta.Proofs.Crc32.Bursts
import FirmwareMeta.Proofs.Crc32.Parameters
import FirmwareMeta.Proofs.Image.Shape
import FirmwareMeta.Proofs.Update.Verification

/-! Damage within four bytes in a row does not pass unnoticed, whether it hits a payload or the
record itself. -/
namespace FirmwareMeta.Update

variable {image other : Image} {address base first : Nat} {data : List UInt8} {b : Block}
  {r s : Record}

/-! Payloads -/

/-- The payload of a block stands at an address. -/
def Block.Covers (b : Block) (base a : Nat) : Prop :=
  base + b.offset.toNat ≤ a ∧ a < base + b.offset.toNat + b.size.toNat

/-- Where an image can be read, one of the same shape can be; only the checksum may be another. -/
theorem Block.verify_same_shape (same : image.SameShape other) (normal : image.Normal)
    (also : other.Normal) (passed : b.verify image base = .ok ()) :
    b.verify other base = .ok () ∨
      ∃ computed, b.verify other base =
        .error (.mismatch (.checksum b.role (base + b.offset.toNat) computed b.checksum)) := by
  simp only [Block.verify, bind_ok_iff, addressBehind_ok_iff] at passed
  obtain ⟨_, ⟨low, rfl⟩, checked⟩ := passed
  have target : addressBehind base b.offset.toNat = .ok (base + b.offset.toNat) :=
    addressBehind_ok_iff.mpr ⟨low, rfl⟩
  cases read : image.read? (base + b.offset.toNat) b.size.toNat with
  | none =>
    rw [read] at checked
    contradiction
  | some payload =>
    obtain ⟨found, there⟩ := same.read?_some normal also read
    have step : b.verify other base =
        if crc32 found ≠ b.checksum then
          .error (.mismatch (.checksum b.role (base + b.offset.toNat) (crc32 found) b.checksum))
        else .ok () := by
      simp only [Block.verify, target, bind, Except.bind, there]
      rfl
    rw [step]
    split
    · exact Or.inr ⟨_, rfl⟩
    · exact Or.inl rfl

/-- Two payloads of a block that differ within four bytes in a row do not both fit its checksum. -/
theorem Block.not_sound_of_burst (sound : b.Sound image base)
    (differ : ∃ a, image.byte? a ≠ other.byte? a)
    (near : ∀ a, image.byte? a ≠ other.byte? a → first ≤ a ∧ a < first + 4 ∧ b.Covers base a) :
    ¬b.Sound other base := by
  rintro ⟨found, found_size, found_held, found_fits⟩
  obtain ⟨payload, size, held, fits⟩ := sound
  have burst : Burst payload found (first - (base + b.offset.toNat)) := by
    refine ⟨size.trans found_size.symm, ?_, ?_⟩
    · rintro rfl
      obtain ⟨a, differ⟩ := differ
      obtain ⟨_, _, low, high⟩ := near a differ
      have place : a = base + b.offset.toNat + (a - (base + b.offset.toNat)) := by omega
      apply differ
      rw [place, held _ (by omega), found_held _ (by omega)]
    · intro i differ
      have inside : i < b.size.toNat := by
        by_contra outside
        apply differ
        rw [List.getElem?_eq_none (by omega), List.getElem?_eq_none (by omega)]
      rw [← held i (by omega), ← found_held i (by omega)] at differ
      have := near _ differ
      omega
  exact burst.crc32_ne (fits.trans found_fits.symm)

/-- The record is read again from an image of the same shape that has the same bytes there. -/
theorem decode_of_same_front (same : image.SameShape other) (normal : image.Normal)
    (also : other.Normal) (read : image.run? address = some data)
    (decoded : Record.decode data = .ok r)
    (front : ∀ a < address + r.encodedSize, image.byte? a = other.byte? a) :
    ∃ run, other.run? address = some run ∧ Record.decode run = .ok r := by
  obtain ⟨run, there, count⟩ := same.run?_some normal also read
  have held := (normal.run?_eq_some_iff.mp read).2.held
  have run_held := (also.run?_eq_some_iff.mp there).2.held
  obtain ⟨after, whole⟩ := (Record.decode_ok_iff_front.mp decoded).2.2.1
  have fits : r.encode.length ≤ data.length := by
    rw [← whole, List.length_append]
    omega
  have start : r.encode <+: run := by
    rw [List.prefix_iff_eq_take]
    apply List.ext_getElem?
    intro i
    rw [List.getElem?_take]
    split
    · rename_i low
      have place : address + i < address + r.encodedSize := by
        rw [← Record.length_encode]
        omega
      rw [← run_held i (by omega), ← front _ place, held i (by omega), ← whole,
        List.getElem?_append_left low]
    · rw [List.getElem?_eq_none (by omega)]
  obtain ⟨rest, rfl⟩ := start
  exact ⟨_, there, Record.decode_encode_append decoded rest⟩

/-- The checksum is the one of the catalogues, and it catches damage of a payload: an image that is
verified is no longer so once up to four bytes in a row of one payload are changed, and the cause
given is the checksum of a block. -/
theorem verify_rejects_corrupted_payload :
    (∀ data, (crc32 data).toBitVec = Crc32.Parameters.isoHdlc.checksum data) ∧
    ∀ (image other : Image) (address first : Nat) (r : Record) (b : Block),
      image.Reachable → other.Reachable → verify image address = .ok r → b ∈ r.blocks →
      image.SameShape other → (∃ a, image.byte? a ≠ other.byte? a) →
      (∀ a, image.byte? a ≠ other.byte? a →
        first ≤ a ∧ a < first + 4 ∧ b.Covers (address + r.encodedSize) a) →
      ∃ c ∈ r.blocks, ∃ computed, verify other address = .error (.mismatch
        (.checksum c.role (address + r.encodedSize + c.offset.toNat) computed c.checksum)) := by
  refine ⟨Crc32.toBitVec_crc32, ?_⟩
  intro image other address first r b reachable also verified mem same differ near
  have normal := reachable.normal
  have other_normal := also.normal
  obtain ⟨data, read, decoded, low, checked⟩ := verify_steps verified
  have front : ∀ a < address + r.encodedSize, image.byte? a = other.byte? a := by
    intro a before
    by_contra changed
    have := (near a changed).2.2.1
    omega
  obtain ⟨run, there, again⟩ := decode_of_same_front same normal other_normal read decoded front
  have damaged : b.verify other (address + r.encodedSize) ≠ .ok () := by
    intro passed
    have filled : 1 ≤ b.size.toNat := by
      obtain ⟨a, changed⟩ := differ
      have := (near a changed).2.2
      simp only [Block.Covers] at this
      omega
    have sound := (Block.verify_ok_iff normal filled).mp (checked b mem)
    exact Block.not_sound_of_burst sound differ near
      ((Block.verify_ok_iff other_normal filled).mp passed)
  cases result : r.blocks.forM (Block.verify other (address + r.encodedSize)) with
  | ok _ => exact absurd (forM_ok_iff.mp result b mem) damaged
  | error e =>
    obtain ⟨c, inside, failed⟩ := exists_of_forM_error result
    rcases c.verify_same_shape same normal other_normal (checked c inside) with
      passed | ⟨computed, mismatch⟩
    · rw [passed] at failed
      contradiction
    · rw [mismatch] at failed
      cases failed
      refine ⟨c, inside, computed, ?_⟩
      rw [verify_eq there again low, result]
      rfl

/-- The block of a payload of five bytes. -/
def shortBlock : Block := ⟨0x27000, 0x2E000, 0, 5, crc32 [1, 2, 3, 4, 5], .softDevice⟩

/-- A record of that block at the start of an image, and some bytes behind it. -/
def shortImage (payload : List UInt8) : Image :=
  Image.empty.attempt 0 (Record.encode ⟨[shortBlock]⟩ ++ payload)

theorem byte?_shortImage (a b c d e : UInt8) (address : Nat) :
    (shortImage [a, b, c, d, e]).byte? address =
      (Record.encode ⟨[shortBlock]⟩ ++ [a, b, c, d, e])[address]? := by
  have written : shortImage [a, b, c, d, e] =
      ⟨[⟨0, (Record.encode ⟨[shortBlock]⟩ ++ [a, b, c, d, e]).toArray⟩]⟩ := rfl
  rw [written]
  simp [Image.byte?, Segment.byte?]

theorem verify_rejects_corrupted_payload_four_bytes :
    verify (shortImage [1, 2, 3, 4, 5]) 0 = .ok ⟨[shortBlock]⟩ ∧
      ∃ c ∈ [shortBlock], ∃ computed, verify (shortImage [1, 0x22, 3, 4, 0x55]) 0 =
        .error (.mismatch (.checksum c.role (0 + 32 + c.offset.toNat) computed c.checksum)) := by
  have verified : verify (shortImage [1, 2, 3, 4, 5]) 0 = .ok ⟨[shortBlock]⟩ := by
    decide +kernel
  have reachable : ∀ payload, (shortImage payload).Reachable := fun _ => .attempt _ _ .empty
  have count : (Record.encode ⟨[shortBlock]⟩).length = 32 := rfl
  refine ⟨verified, verify_rejects_corrupted_payload.2 _ _ 0 33 _ shortBlock (reachable _)
    (reachable _) verified List.mem_cons_self ?_ ⟨33, ?_⟩ ?_⟩
  · intro a
    rw [byte?_shortImage, byte?_shortImage, List.getElem?_eq_none_iff, List.getElem?_eq_none_iff]
    rfl
  · rw [byte?_shortImage, byte?_shortImage]
    decide +kernel
  · intro a changed
    rw [byte?_shortImage, byte?_shortImage] at changed
    have behind : 33 ≤ a ∧ a < 37 := by
      by_contra outside
      apply changed
      by_cases front : a < 32
      · rw [List.getElem?_append_left (by omega), List.getElem?_append_left (by omega)]
      · obtain rfl | high : a = 32 ∨ 37 ≤ a := by omega
        · rfl
        · rw [List.getElem?_eq_none (by simp [count]; omega),
            List.getElem?_eq_none (by simp [count]; omega)]
    have size : Record.encodedSize ⟨[shortBlock]⟩ = 32 := rfl
    have place : shortBlock.offset.toNat = 0 ∧ shortBlock.size.toNat = 5 := ⟨rfl, rfl⟩
    simp only [Block.Covers, size, place]
    omega

/-! Records -/

/-- Damage of a record leaves no record of as many blocks, and none at all of a record of one
block. -/
theorem decode_rejects_corrupted_record (r : Record) (data : List UInt8) (first : Nat)
    (burst : Burst r.encode data first) :
    (∀ s, Record.decode data = .ok s → s.blocks.length ≠ r.blocks.length) ∧
      (r.blocks.length = 1 → ∃ e, Record.decode data = .error e) := by
  have fewer : ∀ s, Record.decode data = .ok s → s.blocks.length ≠ r.blocks.length := by
    intro s decoded same
    have whole := (Record.decode_ok_iff_front.mp decoded).2.2.1
    have size : s.encode.length = data.length := by
      rw [← burst.count, Record.length_encode_eq, Record.length_encode_eq, same]
    have bytes : s.encode = data := whole.eq_of_length size
    -- Both carry the checksum of what is in front of it.
    have registers := (Crc32.register_checksum r.body).trans (Crc32.register_checksum s.body).symm
    apply burst.register_ne 0xFFFFFFFF
    rw [← bytes]
    exact registers
  refine ⟨fewer, fun one => ?_⟩
  cases decoded : Record.decode data with
  | error e => exact ⟨e, rfl⟩
  | ok s =>
    obtain ⟨some_block, _, whole, _⟩ := Record.decode_ok_iff_front.mp decoded
    have fits := whole.length_le
    rw [← burst.count, Record.length_encode_eq, Record.length_encode_eq, one] at fits
    have := List.length_pos_iff.mpr some_block
    exact absurd (by omega) (fewer s decoded)

/-- The last byte in front of the checksum and the first byte of the checksum are cleared. -/
def damagedRecord : List UInt8 := ((Record.encode ⟨[shortBlock]⟩).set 27 0).set 28 0

theorem decode_rejects_corrupted_record_border :
    Burst (Record.encode ⟨[shortBlock]⟩) damagedRecord 26 ∧
      ∃ e, Record.decode damagedRecord = .error e := by
  have burst : Burst (Record.encode ⟨[shortBlock]⟩) damagedRecord 26 := by
    refine ⟨by simp [damagedRecord], by decide +kernel, fun i differ => ?_⟩
    by_contra outside
    apply differ
    rw [damagedRecord, List.getElem?_set_ne (by omega), List.getElem?_set_ne (by omega)]
  exact ⟨burst, (decode_rejects_corrupted_record _ _ 26 burst).2 rfl⟩

end FirmwareMeta.Update
