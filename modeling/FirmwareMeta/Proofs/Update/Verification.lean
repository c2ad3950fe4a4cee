import FirmwareMeta.Proofs.Failure
import FirmwareMeta.Proofs.Image.Reading
import FirmwareMeta.Proofs.Update.Format
import FirmwareMeta.Proofs.Update.Placement

/-! Verifying an image is reading the record at an address and finding each payload where its block
says. A bundle passes, whichever payloads of the right sizes and checksums it was made from. -/
namespace FirmwareMeta.Update

open Hardware (PartitionTable)

variable {image : Image} {address base offset : Nat} {data : List UInt8} {b : Block} {r : Record}
  {table : PartitionTable} {payloads others : List Payload} {blocks : List Block}

/-- The payload of a block stands where the block says. -/
def Block.Sound (image : Image) (base : Nat) (b : Block) : Prop :=
  ∃ payload, payload.length = b.size.toNat ∧ image.Holds (base + b.offset.toNat) payload ∧
    crc32 payload = b.checksum

theorem addressBehind_ok_iff {length target : Nat} :
    addressBehind address length = .ok target ↔
      address + length < Word.limit ∧ address + length = target := by
  unfold addressBehind
  split <;> simp [*]

/-- A block that passes has its payload in the image, be it as short as it may. -/
theorem Block.sound_of_verify (normal : image.Normal) (checked : b.verify image base = .ok ()) :
    b.Sound image base := by
  simp only [Block.verify, bind_ok_iff, addressBehind_ok_iff] at checked
  obtain ⟨_, ⟨_, rfl⟩, checked⟩ := checked
  split at checked
  · contradiction
  · rename_i payload read
    obtain ⟨size, held⟩ := normal.of_read? read
    refine ⟨payload, size, held, ?_⟩
    by_contra differs
    rw [if_pos differs] at checked
    contradiction

theorem Block.verify_ok_iff (normal : image.Normal) (filled : 1 ≤ b.size.toNat) :
    b.verify image base = .ok () ↔ b.Sound image base := by
  constructor
  · exact sound_of_verify normal
  · rintro ⟨payload, size, held, fits⟩
    have low := normal.lt_limit (held.taken (Nat.le_refl _) (by omega))
    simp only [Block.verify, bind_ok_iff, addressBehind_ok_iff]
    refine ⟨_, ⟨low, rfl⟩, ?_⟩
    rw [(normal.read?_eq_some_iff filled).mpr ⟨size, held⟩]
    simp only [fits, ne_eq, not_true_eq_false, ↓reduceIte]
    rfl

/-- Behind a record that is read, only its blocks are left to check. -/
theorem verify_eq (read : image.run? address = some data) (decoded : Record.decode data = .ok r)
    (low : address + r.encodedSize < Word.limit) : verify image address =
      r.blocks.forM (Block.verify image (address + r.encodedSize)) >>= fun _ => .ok r := by
  have target : addressBehind address r.encodedSize = .ok (address + r.encodedSize) :=
    addressBehind_ok_iff.mpr ⟨low, rfl⟩
  simp only [verify, read, decoded, Failure.lift, target, bind, Except.bind]
  rfl

theorem verify_steps (verified : verify image address = .ok r) :
    ∃ data, image.run? address = some data ∧ Record.decode data = .ok r ∧
      address + r.encodedSize < Word.limit ∧
      ∀ b ∈ r.blocks, b.verify image (address + r.encodedSize) = .ok () := by
  unfold verify at verified
  split at verified
  · contradiction
  · rename_i data read
    simp only [bind_ok_iff, Failure.lift_ok_iff, addressBehind_ok_iff, forM_ok_iff] at verified
    obtain ⟨_, decoded, _, ⟨low, rfl⟩, _, checked, ⟨⟩⟩ := verified
    exact ⟨data, read, decoded, low, checked⟩

/-- An image passes exactly if its bytes from an address on are read as a record all of whose
payloads are sound. -/
theorem verify_eq_ok_iff (normal : image.Normal) (filled : ∀ b ∈ r.blocks, 1 ≤ b.size.toNat) :
    verify image address = .ok r ↔ ∃ data, image.Run address data ∧ Record.decode data = .ok r ∧
      ∀ b ∈ r.blocks, b.Sound image (address + r.encodedSize) := by
  constructor
  · intro passed
    obtain ⟨data, read, decoded, _, checked⟩ := verify_steps passed
    exact ⟨data, (normal.run?_eq_some_iff.mp read).2, decoded, fun b mem =>
      (Block.verify_ok_iff normal (filled b mem)).mp (checked b mem)⟩
  · rintro ⟨data, run, decoded, sound⟩
    have some_bytes : data ≠ [] := by
      rintro rfl
      contradiction
    -- Any block's payload lies behind the record, so there are addresses behind it.
    have low : address + r.encodedSize < Word.limit := by
      obtain ⟨b, mem⟩ := List.exists_mem_of_ne_nil _ (Record.decode_ok_iff_front.mp decoded).1
      obtain ⟨payload, size, held, _⟩ := sound b mem
      have := filled b mem
      have := normal.lt_limit (held.taken (Nat.le_refl _) (by omega))
      omega
    have read := normal.run?_eq_some_iff.mpr ⟨some_bytes, run⟩
    rw [verify_eq read decoded low, bind_ok_iff]
    exact ⟨(), forM_ok_iff.mpr fun b mem =>
      (Block.verify_ok_iff normal (filled b mem)).mpr (sound b mem), rfl⟩

/-! Bundles -/

/-- Payloads that a record describes tile it like those that it was made from. -/
theorem Tiled.of_describes (tiled : Tiled table offset payloads blocks)
    (count : blocks.length = others.length)
    (described : ∀ pair ∈ blocks.zip others, pair.1.describes pair.2 = true) :
    Tiled table offset others blocks := by
  induction tiled generalizing others with
  | nil =>
    obtain rfl := List.length_eq_zero_iff.mp count.symm
    exact .nil
  | @cons offset p rest blocks partition found filled small _ ih =>
    cases others with
    | nil => contradiction
    | cons q others =>
      obtain ⟨same, described⟩ := List.forall_mem_cons.mp described
      simp only [Block.describes, Payload.block_size p partition offset (by omega),
        Bool.and_eq_true, decide_eq_true_eq] at same
      obtain ⟨⟨role, size⟩, sum⟩ := same
      have block : p.block partition offset = q.block partition offset := by
        simp only [Payload.block] at role sum ⊢
        rw [role, size, sum]
      have other_filled : q.data ≠ [] := by
        rw [← List.length_pos_iff, ← size]
        exact List.length_pos_iff.mpr filled
      rw [block]
      refine .cons (role ▸ found) other_filled (size ▸ small) ?_
      exact size ▸ ih (Nat.succ.inj count) described

theorem describes_of_check (checked : r.check payloads = .ok ()) :
    r.blocks.length = payloads.length ∧
      ∀ pair ∈ r.blocks.zip payloads, pair.1.describes pair.2 = true := by
  unfold Record.check at checked
  split at checked
  · contradiction
  · rename_i count
    split at checked
    · contradiction
    · rename_i none_found
      refine ⟨Decidable.not_not.mp count, fun pair mem => ?_⟩
      simpa using List.find?_eq_none.mp none_found pair mem

theorem Tiled.sound (tiled : Tiled table offset payloads blocks)
    (held : image.Holds (base + offset) (Payload.join payloads)) :
    ∀ b ∈ blocks, b.Sound image base := by
  induction tiled with
  | nil => simp
  | @cons offset p rest blocks partition _ _ small _ ih =>
    rw [Payload.join_cons, Image.holds_append, Nat.add_assoc] at held
    refine List.forall_mem_cons.mpr ⟨⟨p.data, ?_, ?_, rfl⟩, ih held.2⟩
    · exact (p.block_size partition offset (by omega)).symm
    · rw [p.block_offset partition (by omega)]
      exact held.1

theorem run_single {start : Nat} :
    Image.Run ⟨[⟨start, data.toArray⟩]⟩ start data where
  held i _ := by simp [Image.byte?, Segment.byte?]
  ends := Image.byte?_eq_none_iff.mpr (by simp [Segment.stop])

theorem normal_single {start : Nat} (filled : data ≠ [])
    (bound : start + data.length ≤ Word.limit) :
    Image.Normal ⟨[⟨start, data.toArray⟩]⟩ where
  filled := by simpa using filled
  bounded := by simpa [Segment.stop] using bound
  apart := List.pairwise_singleton _ _

variable {installer : Image} {bundle : Bundle} {p : Payload}

/-- A bundle is one run of bytes: the record and the payloads, which its blocks tile. -/
theorem make_run (tiled : Tiled table 0 (p :: payloads) r.blocks)
    (success : Bundle.make installer r others = .ok bundle) :
    bundle.combined.Normal ∧ Tiled table 0 others r.blocks ∧
      bundle.combined.Run bundle.recordAddress (r.encode ++ Payload.join others) := by
  have checked : r.check others = .ok () := by
    simp only [Bundle.make, bind_ok_iff, Failure.lift_ok_iff] at success
    obtain ⟨_, checked, _⟩ := success
    exact checked
  obtain ⟨count, described⟩ := describes_of_check checked
  have retiled := tiled.of_describes count described
  cases top : installer.maxAddress? with
  | none =>
    rw [Image.maxAddress?_eq_none_iff.mp top, make_empty checked] at success
    contradiction
  | some last =>
    have fits := fits_of_make retiled top success
    have some_bytes : 0 < r.payloadSize := by
      cases others with
      | nil => exact absurd (tiled.length_eq.symm.trans count) (Nat.succ_ne_zero _)
      | cons q rest => exact retiled.payloadSize_pos
    rw [make_fits retiled some_bytes top fits] at success
    obtain rfl := Except.ok.inj success
    refine ⟨normal_single ?_ ?_, retiled, run_single⟩
    · exact List.append_ne_nil_of_left_ne_nil (encode_ne_nil r) _
    · rw [List.length_append, ← retiled.payloadSize_eq, ← Nat.add_assoc]
      exact fits

theorem Tiled.filled (tiled : Tiled table offset payloads blocks) :
    ∀ b ∈ blocks, 1 ≤ b.size.toNat := by
  induction tiled with
  | nil => simp
  | @cons offset p _ _ partition _ filled small _ ih =>
    refine List.forall_mem_cons.mpr ⟨?_, ih⟩
    rw [p.block_size partition offset (by omega)]
    exact List.length_pos_iff.mpr filled

/-- The images that pass are those whose bytes from the address on are read as the record and in
which each payload stands where its block says, with the checksum of the block. So a bundle passes
if its record can be read back at all. -/
theorem verify_ok_iff_sound :
    (∀ (image : Image) (address : Nat) (r : Record), image.Reachable →
      (∀ b ∈ r.blocks, 1 ≤ b.size.toNat) →
      (verify image address = .ok r ↔ ∃ data, image.Run address data ∧
        Record.decode data = .ok r ∧
        ∀ b ∈ r.blocks, b.Sound image (address + r.encodedSize))) ∧
    ∀ (installer : Image) (table : PartitionTable) (softDevice : Payload) (loader : Option Payload)
      (r : Record) (payloads : List Payload) (bundle : Bundle), installer.Reachable →
      Record.make table softDevice loader = .ok r → Record.decode r.encode = .ok r →
      Bundle.make installer r payloads = .ok bundle →
      verify bundle.combined bundle.recordAddress = .ok r := by
  refine ⟨fun image address r reachable => verify_eq_ok_iff reachable.normal, ?_⟩
  intro installer table softDevice loader r payloads bundle reachable made read success
  have tiled : Tiled table 0 (softDevice :: loader.toList) r.blocks := ofPayloads_ok_iff.mp made
  obtain ⟨normal, retiled, run⟩ := make_run tiled success
  have payloads_held := (Image.holds_append.mp run.held).2
  rw [Record.length_encode] at payloads_held
  exact (verify_eq_ok_iff normal retiled.filled).mpr
    ⟨_, run, Record.decode_encode_append read _, retiled.sound payloads_held⟩

theorem verify_ok_iff_sound_two_blocks :
    ∃ bundle, Bundle.make (Image.empty.attempt 0x100 [0x11])
        ⟨[tinyBlock, tinyLoaderBlock 0x55000]⟩ [tinySoftDevice, tinyLoader] = .ok bundle ∧
      bundle.combined.Reachable ∧
      verify bundle.combined bundle.recordAddress = .ok ⟨[tinyBlock, tinyLoaderBlock 0x55000]⟩ ∧
      ∀ b ∈ [tinyBlock, tinyLoaderBlock 0x55000], b.Sound bundle.combined
        (bundle.recordAddress + Record.encodedSize ⟨[tinyBlock, tinyLoaderBlock 0x55000]⟩) := by
  have installed : (Image.empty.attempt 0x100 [0x11]).Reachable := .attempt _ _ .empty
  have made := make_tiny 0x55000
  have tiled : Tiled _ 0 _ _ := ofPayloads_ok_iff.mp made
  have read : Record.decode (Record.encode ⟨[tinyBlock, tinyLoaderBlock 0x55000]⟩) =
      .ok ⟨[tinyBlock, tinyLoaderBlock 0x55000]⟩ := by
    have differs : (tinyLoaderBlock 0x55000).partitionAddress ≠
        crc32 (Record.body ⟨[tinyBlock]⟩) := by
      rw [Record.checksum_tinyBlock]
      decide
    simpa using Record.decode_pair [] differs
  have top : (Image.empty.attempt 0x100 [0x11]).maxAddress? = some 0x100 := rfl
  have success := make_fits tiled tiled.payloadSize_pos top (by decide)
  have passed := verify_ok_iff_sound.2 _ _ _ _ _ _ _ installed made read success
  have reachable : Image.Reachable (Image.empty.attempt 0x101
      (Record.encode ⟨[tinyBlock, tinyLoaderBlock 0x55000]⟩ ++
        Payload.join [tinySoftDevice, tinyLoader])) := .attempt _ _ .empty
  have filled : ∀ b ∈ [tinyBlock, tinyLoaderBlock 0x55000], 1 ≤ b.size.toNat := by decide
  refine ⟨_, success, reachable, passed, ?_⟩
  obtain ⟨_, _, _, sound⟩ := (verify_ok_iff_sound.1 _ _ _ reachable filled).mp passed
  exact sound

end FirmwareMeta.Update
