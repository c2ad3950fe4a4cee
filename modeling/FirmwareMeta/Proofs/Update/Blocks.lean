import FirmwareMeta.Proofs.Update.Format
import FirmwareMeta.Proofs.Update.Placement

/-! What the blocks of a new record say. Each of them places its payload directly behind those in
front of it, and there is a record whenever all of the payloads have room together. -/
namespace FirmwareMeta.Update

open Hardware (PartitionTable)

variable {table : PartitionTable} {p : Payload} {payloads : List Payload} {blocks : List Block}
  {offset i : Nat} {b : Block}

/-- The block of the payload at an index: where the payload goes, that it stands behind the
payloads of all blocks in front, and what it holds. -/
structure Block.Places (table : PartitionTable) (payloads : List Payload) (blocks : List Block)
    (i : Nat) (p : Payload) (b : Block) : Prop where
  partition : ∃ target, table.lookup? p.role.partition = some target ∧
    b.partitionAddress = target.start ∧ b.partitionSize = target.size
  role : b.role = p.role
  offset : b.offset.toNat = Record.payloadSize ⟨blocks.take i⟩
  size : b.size.toNat = p.data.length
  checksum : b.checksum = crc32 p.data
  slice : ((Payload.join payloads).drop b.offset.toNat).take b.size.toNat = p.data

theorem Payload.join_split (at_index : payloads[i]? = some p) :
    join payloads = join (payloads.take i) ++ (p.data ++ join (payloads.drop (i + 1))) := by
  obtain ⟨inside, rfl⟩ := List.getElem?_eq_some_iff.mp at_index
  rw [← join_cons, List.getElem_cons_drop, join, join, join, ← List.flatMap_append,
    List.take_append_drop]

/-- Payloads have blocks if their partitions are there, none is empty and all have room. -/
theorem exists_tiled_iff (small : offset < Word.limit) :
    (∃ blocks, Tiled table offset payloads blocks) ↔
      (∀ p ∈ payloads, (table.lookup? p.role.partition).isSome ∧ p.data ≠ []) ∧
        offset + (Payload.join payloads).length < Word.limit := by
  induction payloads generalizing offset with
  | nil => exact iff_of_true ⟨[], .nil⟩ ⟨by simp, small⟩
  | cons p rest ih =>
    rw [List.forall_mem_cons, Payload.join_cons, List.length_append, ← Nat.add_assoc]
    constructor
    · rintro ⟨_, tiled⟩
      cases tiled with
      | cons found filled bound tail =>
        obtain ⟨others, room⟩ := (ih bound).mp ⟨_, tail⟩
        exact ⟨⟨⟨Option.isSome_of_eq_some found, filled⟩, others⟩, room⟩
    · rintro ⟨⟨⟨found, filled⟩, others⟩, room⟩
      obtain ⟨target, found⟩ := Option.isSome_iff_exists.mp found
      have bound : offset + p.data.length < Word.limit := by omega
      obtain ⟨blocks, tail⟩ := (ih bound).mpr ⟨others, room⟩
      exact ⟨_, .cons found filled bound tail⟩

theorem Tiled.take (tiled : Tiled table offset payloads blocks) (i : Nat) :
    Tiled table offset (payloads.take i) (blocks.take i) := by
  induction tiled generalizing i with
  | nil => simpa using Tiled.nil
  | cons found filled bound _ ih =>
    cases i with
    | zero => exact .nil
    | succ i => exact .cons found filled bound (ih i)

theorem Tiled.block_eq (tiled : Tiled table offset payloads blocks) (block : blocks[i]? = some b)
    (payload : payloads[i]? = some p) :
    ∃ target, table.lookup? p.role.partition = some target ∧
      offset + (Payload.join (payloads.take i)).length + p.data.length < Word.limit ∧
      b = p.block target (offset + (Payload.join (payloads.take i)).length) := by
  induction tiled generalizing i with
  | nil => contradiction
  | @cons offset q rest blocks target found filled bound _ ih =>
    cases i with
    | zero =>
      cases block
      cases payload
      exact ⟨target, found, bound, rfl⟩
    | succ i =>
      obtain ⟨target, found, room, rfl⟩ := ih block payload
      have behind : offset + (Payload.join ((q :: rest).take (i + 1))).length =
          offset + q.data.length + (Payload.join (rest.take i)).length := by
        rw [List.take_succ_cons, Payload.join_cons, List.length_append, Nat.add_assoc]
      rw [behind]
      exact ⟨target, found, room, rfl⟩

theorem Tiled.places (tiled : Tiled table 0 payloads blocks) (block : blocks[i]? = some b)
    (payload : payloads[i]? = some p) : b.Places table payloads blocks i p := by
  obtain ⟨target, found, room, rfl⟩ := tiled.block_eq block payload
  rw [Nat.zero_add] at room ⊢
  have front : (p.block target (Payload.join (payloads.take i)).length).offset.toNat =
      (Payload.join (payloads.take i)).length := p.block_offset target (by omega)
  have size : (p.block target (Payload.join (payloads.take i)).length).size.toNat =
      p.data.length := p.block_size target _ (by omega)
  refine ⟨⟨target, found, rfl, rfl⟩, rfl, ?_, size, rfl, ?_⟩
  · rw [front, ← (tiled.take i).payloadSize_eq]
  · rw [front, size, Payload.join_split payload, List.drop_left, List.take_left]

/-- A record without its second block starts with the same bytes and is one block shorter. -/
theorem Record.encode_pair (b c : Block) :
    (encode ⟨[b, c]⟩).length = (encode ⟨[b]⟩).length + blockSize ∧
      (encode ⟨[b]⟩).take 28 = (encode ⟨[b, c]⟩).take 28 := by
  refine ⟨by simp only [length_encode_eq]; rfl, ?_⟩
  rw [take_encode, encode]
  exact take_body [b] _

/-- There is a record if every partition is found, no payload is empty and all of them together
are shorter than the address space. Its blocks tile the payloads. -/
theorem make_tiles_payloads (table : PartitionTable) (softDevice : Payload)
    (loader : Option Payload) :
    ((∃ r, Record.make table softDevice loader = .ok r) ↔
      (∀ p ∈ softDevice :: loader.toList,
        (table.lookup? p.role.partition).isSome ∧ p.data ≠ []) ∧
        (Payload.join (softDevice :: loader.toList)).length < Word.limit) ∧
    ∀ r, Record.make table softDevice loader = .ok r →
      r.blocks.length = (softDevice :: loader.toList).length ∧
      (∀ i (b : Block) (p : Payload), r.blocks[i]? = some b →
        (softDevice :: loader.toList)[i]? = some p →
          b.Places table (softDevice :: loader.toList) r.blocks i p) ∧
      r.payloadSize = (Payload.join (softDevice :: loader.toList)).length ∧
      r.encode.length = r.encodedSize ∧ r.encodedSize = 8 + 24 * r.blocks.length ∧
      (loader.isSome → ∃ single, Record.make table softDevice none = .ok single ∧
        r.encode.length = single.encode.length + 24 ∧
        single.encode.take 28 = r.encode.take 28) := by
  refine ⟨?_, fun r made => ?_⟩
  · have tiles := @exists_tiled_iff table (softDevice :: loader.toList) 0 (by decide)
    rw [Nat.zero_add] at tiles
    rw [← tiles]
    constructor
    · rintro ⟨r, made⟩
      exact ⟨r.blocks, ofPayloads_ok_iff.mp made⟩
    · rintro ⟨blocks, tiled⟩
      exact ⟨⟨blocks⟩, ofPayloads_ok_iff.mpr tiled⟩
  · have tiled : Tiled table 0 (softDevice :: loader.toList) r.blocks := ofPayloads_ok_iff.mp made
    refine ⟨tiled.length_eq, fun i b p => tiled.places, tiled.payloadSize_eq,
      Record.length_encode r, ?_, fun second => ?_⟩
    · have := Record.length_encode_eq r
      rw [Record.length_encode] at this
      omega
    · obtain ⟨second, rfl⟩ := Option.isSome_iff_exists.mp second
      obtain ⟨blocks⟩ := r
      obtain _ | ⟨found, filled, bound, _ | ⟨_, _, _, ⟨⟩⟩⟩ := tiled
      exact ⟨_, ofPayloads_ok_iff.mpr (.cons found filled bound .nil), Record.encode_pair _ _⟩

/-- The block of a loader of one byte behind a SoftDevice of one byte. -/
theorem make_tiles_payloads_tiny :
    Record.make (loaderAt 0x55000) tinySoftDevice (some tinyLoader) =
        .ok ⟨[tinyBlock, tinyLoaderBlock 0x55000]⟩ ∧
      (tinyLoaderBlock 0x55000).Places (loaderAt 0x55000) [tinySoftDevice, tinyLoader]
        [tinyBlock, tinyLoaderBlock 0x55000] 1 tinyLoader ∧
      ∃ single, Record.make (loaderAt 0x55000) tinySoftDevice none = .ok single ∧
        single.encode.take 28 =
          (Record.encode ⟨[tinyBlock, tinyLoaderBlock 0x55000]⟩).take 28 := by
  have made := make_tiny 0x55000
  obtain ⟨_, tiles⟩ := make_tiles_payloads (loaderAt 0x55000) tinySoftDevice (some tinyLoader)
  obtain ⟨_, places, _, _, _, dropped⟩ := tiles _ made
  obtain ⟨single, alone, _, front⟩ := dropped rfl
  exact ⟨made, places 1 _ _ rfl rfl, single, alone, front⟩

end FirmwareMeta.Update
