import FirmwareMeta.Proofs.Update.Tiling

/-! Records that are read back from their bytes. A reader takes the first checksum that fits for
the end, so a second block is found unless its first word is the checksum of what stands in
front of it. -/
namespace FirmwareMeta

theorem Word.at?_eq_some_iff {data : List UInt8} {offset : Nat} {w : UInt32} :
    at? data offset = some w ↔ ∃ after, data.drop offset = bytes w ++ after := by
  unfold at?
  constructor
  · split
    · rename_i a b c d after found
      intro h
      rw [← Option.some.inj h, bytes_ofBytes]
      exact ⟨after, found⟩
    · simp
  · rintro ⟨after, found⟩
    rw [found]
    exact congrArg some (ofBytes_bytes w)

namespace Update

variable {data rest : List UInt8} {offset room : Nat} {b c : Block} {blocks : List Block}

@[simp] theorem Block.length_encode (b : Block) : b.encode.length = blockSize := rfl

theorem Block.decode_ok_iff :
    decode data offset = .ok b ↔ ∃ after, data.drop offset = b.encode ++ after := by
  have behind : ∀ {i : Nat} {w : UInt32} {after : List UInt8},
      data.drop i = Word.bytes w ++ after → data.drop (i + 4) = after := by
    intro i w after found
    rw [← List.drop_drop, found]
    rfl
  constructor
  · intro h
    unfold decode at h
    split at h
    · rename_i address size start length checksum id x y z after w₀ w₁ w₂ w₃ w₄ tail
      split at h
      · contradiction
      · rename_i fill
        split at h
        · rename_i role known
          obtain rfl := Except.ok.inj h
          obtain rfl := Role.ofId?_eq_some.mp known
          -- Each field stands where the one in front of it ends.
          obtain ⟨r₀, d₀⟩ := Word.at?_eq_some_iff.mp w₀
          obtain ⟨r₁, d₁⟩ := Word.at?_eq_some_iff.mp w₁
          obtain ⟨r₂, d₂⟩ := Word.at?_eq_some_iff.mp w₂
          obtain ⟨r₃, d₃⟩ := Word.at?_eq_some_iff.mp w₃
          obtain ⟨r₄, d₄⟩ := Word.at?_eq_some_iff.mp w₄
          have fill : [x, y, z] = filler := by simpa using fill
          refine ⟨after, ?_⟩
          rw [d₀, ← behind d₀, d₁, ← behind d₁, d₂, ← behind d₂, d₃, ← behind d₃, d₄, ← behind d₄,
            tail]
          simp only [Block.encode, ← fill, List.append_assoc, List.cons_append, List.nil_append]
        · contradiction
    · contradiction
  · rintro ⟨after, found⟩
    have words : ∀ (k : Nat) (w : UInt32),
        (∃ more, (b.encode ++ after).drop k = Word.bytes w ++ more) →
        Word.at? data (offset + k) = some w := by
      intro k w more
      rw [Word.at?_eq_some_iff, ← List.drop_drop, found]
      exact more
    have tail : data.drop (offset + 20) = b.role.id :: 0xFF :: 0xFF :: 0xFF :: after := by
      rw [← List.drop_drop, found]
      rfl
    have first := words 0 b.partitionAddress ⟨_, rfl⟩
    rw [Nat.add_zero] at first
    simp only [decode, first, words 4 b.partitionSize ⟨_, rfl⟩, words 8 b.offset ⟨_, rfl⟩,
      words 12 b.size ⟨_, rfl⟩, words 16 b.checksum ⟨_, rfl⟩, tail, filler, ne_eq,
      not_true_eq_false, ↓reduceIte, Role.ofId?_id]

namespace Record

theorem length_body (r : Record) :
    r.body.length = magic.length + r.blocks.length * blockSize := by
  obtain ⟨blocks⟩ := r
  simp only [body, List.length_append, Nat.add_left_cancel_iff]
  induction blocks with
  | nil => rfl
  | cons b rest ih =>
    simp only [List.flatMap_cons, List.length_append, Block.length_encode, ih, List.length_cons,
      Nat.add_mul, Nat.one_mul, Nat.add_comm]

theorem body_concat (blocks : List Block) (b : Block) :
    body ⟨blocks ++ [b]⟩ = body ⟨blocks⟩ ++ b.encode := by
  simp only [body, List.flatMap_append, List.flatMap_singleton, List.append_assoc]

theorem at?_behind_body (blocks : List Block) (w : UInt32) (rest : List UInt8) :
    Word.at? (body ⟨blocks⟩ ++ (Word.bytes w ++ rest)) (magic.length + blocks.length * blockSize) =
      some w := by
  rw [← length_body ⟨blocks⟩]
  exact Word.at?_append_bytes (body ⟨blocks⟩) rest w

theorem take_body (blocks : List Block) (rest : List UInt8) :
    (body ⟨blocks⟩ ++ rest).take (magic.length + blocks.length * blockSize) = body ⟨blocks⟩ := by
  rw [← length_body ⟨blocks⟩, List.take_left]

/-- A checksum that fits ends the record, whatever stands behind it. -/
theorem decodeFrom_end (some_block : blocks ≠ []) :
    decodeFrom (encode ⟨blocks⟩ ++ rest) blocks room = .ok ⟨blocks⟩ := by
  unfold decodeFrom
  simp only [encode, List.append_assoc, at?_behind_body, take_body]
  simp [some_block]

/-- A block is read if its first word is not the checksum of what stands in front of it. In
front of the first block there is nothing to check. -/
theorem decodeFrom_block
    (open_end : blocks = [] ∨ b.partitionAddress ≠ crc32 (body ⟨blocks⟩)) :
    decodeFrom (body ⟨blocks⟩ ++ (b.encode ++ rest)) blocks (room + 1) =
      decodeFrom (body ⟨blocks ++ [b]⟩ ++ rest) (blocks ++ [b]) room := by
  have first : Word.at? (body ⟨blocks⟩ ++ (b.encode ++ rest))
      (magic.length + blocks.length * blockSize) = some b.partitionAddress := by
    simp only [Block.encode, List.append_assoc, at?_behind_body]
  have block : Block.decode (body ⟨blocks⟩ ++ (b.encode ++ rest))
      (magic.length + blocks.length * blockSize) = .ok b := by
    rw [Block.decode_ok_iff, ← length_body ⟨blocks⟩, List.drop_left]
    exact ⟨rest, rfl⟩
  rw [decodeFrom, body_concat, List.append_assoc]
  simp only [first, block, take_body]
  rw [if_neg]
  rcases open_end with rfl | differs <;> simp_all

theorem decode_encode (r : Record) (rest : List UInt8) :
    decode (r.encode ++ rest) = decodeFrom (r.encode ++ rest) [] maxBlocks := by
  have front : (r.encode ++ rest).take magic.length = magic := by
    rw [encode, body, List.append_assoc, List.append_assoc, List.take_left]
  have long : ¬(r.encode ++ rest).length < magic.length := by
    rw [encode, List.length_append, List.length_append, length_body]
    omega
  rw [decode, if_neg long, if_neg (fun other => other front)]

theorem decode_single (b : Block) (rest : List UInt8) :
    decode (encode ⟨[b]⟩ ++ rest) = .ok ⟨[b]⟩ := by
  have bytes : encode ⟨[b]⟩ ++ rest =
      body ⟨[]⟩ ++ (b.encode ++ (Word.bytes (crc32 (body ⟨[b]⟩)) ++ rest)) := by
    simp only [encode, ← List.append_assoc, ← body_concat, List.nil_append]
  rw [decode_encode, bytes, maxBlocks, decodeFrom_block (Or.inl rfl), List.nil_append,
    ← List.append_assoc, ← encode]
  exact decodeFrom_end (List.cons_ne_nil _ _)

theorem decode_pair (rest : List UInt8) (differs : c.partitionAddress ≠ crc32 (body ⟨[b]⟩)) :
    decode (encode ⟨[b, c]⟩ ++ rest) = .ok ⟨[b, c]⟩ := by
  have bytes : encode ⟨[b, c]⟩ ++ rest =
      body ⟨[]⟩ ++ (b.encode ++ (c.encode ++ (Word.bytes (crc32 (body ⟨[b, c]⟩)) ++ rest))) := by
    simp only [encode, ← List.append_assoc, ← body_concat, List.nil_append, List.cons_append]
  rw [decode_encode, bytes, maxBlocks, decodeFrom_block (Or.inl rfl), List.nil_append,
    decodeFrom_block (Or.inr differs), List.cons_append, List.nil_append, ← List.append_assoc,
    ← encode]
  exact decodeFrom_end (List.cons_ne_nil _ _)

/-- If the second block starts with the checksum of the first, the bytes are also those of the
first block alone with more behind them: no reader can tell the two records apart. -/
theorem encode_pair_ambiguous (same : c.partitionAddress = crc32 (body ⟨[b]⟩)) :
    ∃ more, encode ⟨[b, c]⟩ = encode ⟨[b]⟩ ++ more := by
  refine ⟨c.encode.drop 4 ++ Word.bytes (crc32 (body ⟨[b, c]⟩)), ?_⟩
  have second : c.encode = Word.bytes (crc32 (body ⟨[b]⟩)) ++ c.encode.drop 4 := by
    rw [← same]
    rfl
  rw [encode, show body ⟨[b, c]⟩ = body ⟨[b]⟩ ++ c.encode from body_concat [b] c, second]
  simp only [encode, List.append_assoc]
  rfl

theorem take_encode (b c : Block) : (encode ⟨[b, c]⟩).take 28 = body ⟨[b]⟩ := by
  rw [encode, show body ⟨[b, c]⟩ = body ⟨[b]⟩ ++ c.encode from body_concat [b] c,
    List.append_assoc]
  exact take_body [b] _

theorem make_blocks {table : Hardware.PartitionTable} {softDevice : Payload}
    {loader : Option Payload} {r : Record} (made : make table softDevice loader = .ok r) :
    (∃ b, r = ⟨[b]⟩) ∨ ∃ b c, r = ⟨[b, c]⟩ := by
  have tiled := ofPayloads_ok_iff.mp made
  obtain ⟨blocks⟩ := r
  cases loader with
  | none =>
    obtain ⟨⟩ | ⟨_, _, _, ⟨⟩⟩ := tiled
    exact Or.inl ⟨_, rfl⟩
  | some p =>
    obtain ⟨⟩ | ⟨_, _, _, ⟨⟩ | ⟨_, _, _, ⟨⟩⟩⟩ := tiled
    exact Or.inr ⟨_, _, rfl⟩

/-- A record is read back from the front of any bytes unless its second block starts with the
checksum of the first; then the first block is taken for all of it. -/
theorem decode_encode_append_iff {table : Hardware.PartitionTable} {softDevice : Payload}
    {loader : Option Payload} {r : Record} (made : make table softDevice loader = .ok r)
    (rest : List UInt8) :
    (decode (r.encode ++ rest) = .ok r ↔
      ∀ b c, r.blocks = [b, c] → c.partitionAddress ≠ crc32 (r.encode.take 28)) ∧
    ∀ b c, r.blocks = [b, c] → c.partitionAddress = crc32 (r.encode.take 28) →
      decode (r.encode ++ rest) = .ok ⟨[b]⟩ := by
  rcases make_blocks made with ⟨b, rfl⟩ | ⟨b, c, rfl⟩
  · exact ⟨iff_of_true (decode_single b rest) (by simp), by simp⟩
  · have misread : c.partitionAddress = crc32 (body ⟨[b]⟩) →
        decode (encode ⟨[b, c]⟩ ++ rest) = .ok ⟨[b]⟩ := by
      intro same
      obtain ⟨more, bytes⟩ := encode_pair_ambiguous same
      rw [bytes, List.append_assoc]
      exact decode_single b _
    simp only [take_encode]
    refine ⟨⟨?_, fun differs => decode_pair rest (differs b c rfl)⟩, ?_⟩
    · rintro read _ _ ⟨⟩ same
      rw [misread same] at read
      simp at read
    · rintro _ _ ⟨⟩ same
      exact misread same

theorem checksum_tinyBlock : crc32 (body ⟨[tinyBlock]⟩) = 0x29C2F8CD := by
  decide +kernel

theorem decode_encode_append_two_blocks :
    make (loaderAt 0x55000) tinySoftDevice (some tinyLoader) =
        .ok ⟨[tinyBlock, tinyLoaderBlock 0x55000]⟩ ∧
      decode (encode ⟨[tinyBlock, tinyLoaderBlock 0x55000]⟩ ++ [0xA5, 0x3C]) =
        .ok ⟨[tinyBlock, tinyLoaderBlock 0x55000]⟩ := by
  refine ⟨make_tiny _, (decode_encode_append_iff (make_tiny 0x55000) _).1.mpr ?_⟩
  rintro _ _ ⟨⟩
  rw [take_encode, checksum_tinyBlock]
  decide

/-- Not every record is read back: here the loader is at the address that is the checksum of the
block in front of its own. -/
theorem decode_encode_append_fails :
    ¬∀ (table : Hardware.PartitionTable) (softDevice : Payload) (loader : Option Payload)
      (r : Record) (rest : List UInt8), make table softDevice loader = .ok r →
      decode (r.encode ++ rest) = .ok r := by
  intro always
  have read := always _ _ _ _ [] (make_tiny 0x29C2F8CD)
  have same : (tinyLoaderBlock 0x29C2F8CD).partitionAddress = crc32 (body ⟨[tinyBlock]⟩) :=
    checksum_tinyBlock.symm
  obtain ⟨more, bytes⟩ := encode_pair_ambiguous same
  rw [bytes, List.append_assoc, decode_single] at read
  simp at read

end Record
end Update
end FirmwareMeta
