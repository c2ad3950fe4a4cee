import FirmwareMeta.Proofs.Update.Reading
import Mathlib.Data.List.Induction

/-! The format of a record, said without a reader, and that the reader accepts it and nothing
else. The reader goes on behind each block whose checksum does not fit, so that a record of
several blocks is read only if no shorter one stands at its front. -/
namespace FirmwareMeta

variable {data : List UInt8} {offset : Nat}

theorem Word.at?_append {rest : List UInt8} (inside : offset + 4 ≤ data.length) :
    at? (data ++ rest) offset = at? data offset := by
  unfold at?
  rw [List.drop_append_of_le_length (by omega)]
  have size : 4 ≤ (data.drop offset).length := by
    rw [List.length_drop]
    omega
  match data.drop offset, size with
  | a :: b :: c :: d :: _, _ => rfl

namespace Update

/-- A block in the 24 bytes behind a position: five words, the number of a role and filler. -/
structure Block.Stored (data : List UInt8) (position : Nat) (b : Block) : Prop where
  partitionAddress : Word.at? data position = some b.partitionAddress
  partitionSize : Word.at? data (position + 4) = some b.partitionSize
  offset : Word.at? data (position + 8) = some b.offset
  size : Word.at? data (position + 12) = some b.size
  checksum : Word.at? data (position + 16) = some b.checksum
  role : ∃ id, data[position + 20]? = some id ∧ Role.ofId? id = some b.role
  filled : (data.drop (position + 21)).take 3 = [0xFF, 0xFF, 0xFF]

theorem Block.decode_ok_iff_stored {position : Nat} {b : Block} :
    decode data position = .ok b ↔ b.Stored data position := by
  constructor
  · intro read
    unfold decode at read
    split at read
    · rename_i address size start length checksum id x y z after w₀ w₁ w₂ w₃ w₄ tail
      split at read
      · contradiction
      · rename_i fill
        split at read
        · rename_i role known
          obtain rfl := Except.ok.inj read
          have found : data[position + 20]? = some id := by
            rw [← List.head?_drop, tail, List.head?_cons]
          have behind : data.drop (position + 21) = x :: y :: z :: after := by
            rw [← List.drop_drop (i := 1), tail]
            rfl
          refine ⟨w₀, w₁, w₂, w₃, w₄, ⟨id, found, known⟩, ?_⟩
          rw [behind]
          exact Decidable.not_not.mp fill
        · contradiction
    · contradiction
  · rintro ⟨w₀, w₁, w₂, w₃, w₄, ⟨id, found, known⟩, fill⟩
    obtain ⟨inside, rfl⟩ := List.getElem?_eq_some_iff.mp found
    have tail : data.drop (position + 20) =
        data[position + 20] :: 0xFF :: 0xFF :: 0xFF :: (data.drop (position + 21)).drop 3 := by
      have split := List.take_append_drop 3 (data.drop (position + 21))
      rw [fill] at split
      rw [List.drop_eq_getElem_cons inside, ← split]
      simp
    simp only [decode, w₀, w₁, w₂, w₃, w₄, tail, known]
    rfl

namespace Record

variable {r : Record} {b : Block} {blocks more : List Block} {n room : Nat}

/-- Behind so many blocks stands the checksum of all that is in front of it. -/
def Ends (data : List UInt8) (n : Nat) : Prop :=
  Word.at? data (4 + 24 * n) = some (crc32 (data.take (4 + 24 * n)))

/-- The first position behind so many blocks. -/
theorem position_eq (n : Nat) : magic.length + n * blockSize = 4 + 24 * n :=
  congrArg (4 + ·) (Nat.mul_comm n 24)

theorem length_encode (r : Record) : r.encode.length = r.encodedSize := by
  rw [encode, List.length_append, length_body, Word.length_bytes, encodedSize]

theorem body_prefix_concat_iff :
    body ⟨blocks ++ [b]⟩ <+: data ↔
      body ⟨blocks⟩ <+: data ∧ b.Stored data (4 + 24 * blocks.length) := by
  rw [← Block.decode_ok_iff_stored, Block.decode_ok_iff, ← position_eq, body_concat]
  constructor
  · rintro ⟨after, rfl⟩
    refine ⟨⟨b.encode ++ after, by rw [List.append_assoc]⟩, after, ?_⟩
    rw [← length_body ⟨blocks⟩, List.append_assoc, List.drop_left]
  · rintro ⟨⟨rest, rfl⟩, after, found⟩
    rw [← length_body ⟨blocks⟩, List.drop_left] at found
    exact ⟨after, by rw [found, List.append_assoc]⟩

theorem encode_prefix_iff : r.encode <+: data ↔ r.body <+: data ∧ Ends data r.blocks.length := by
  have take : ∀ rest, (r.body ++ rest).take (4 + 24 * r.blocks.length) = r.body := by
    intro rest
    rw [← position_eq]
    exact take_body r.blocks rest
  unfold Ends
  rw [Word.at?_eq_some_iff]
  constructor
  · rintro ⟨after, rfl⟩
    rw [encode, List.append_assoc]
    refine ⟨List.prefix_append _ _, after, ?_⟩
    rw [take, ← position_eq, ← length_body, List.drop_left]
  · rintro ⟨⟨rest, rfl⟩, after, found⟩
    rw [take, ← position_eq, ← length_body, List.drop_left] at found
    exact ⟨after, by rw [found, encode, List.append_assoc]⟩

/-- The blocks of a record stand one behind the other. -/
theorem body_prefix_iff (blocks : List Block) :
    body ⟨blocks⟩ <+: data ↔
      magic <+: data ∧ ∀ i (inside : i < blocks.length), blocks[i].Stored data (4 + 24 * i) := by
  induction blocks using List.reverseRecOn with
  | nil => simp [body]
  | append_singleton front b ih =>
    rw [body_prefix_concat_iff, ih, and_assoc]
    refine and_congr_right fun _ => ⟨?_, fun stored => ⟨fun i inside => ?_, ?_⟩⟩
    · rintro ⟨before, last⟩ i inside
      rw [List.length_append, List.length_singleton] at inside
      by_cases low : i < front.length
      · rw [List.getElem_append_left low]
        exact before i low
      · obtain rfl : i = front.length := by omega
        simpa using last
    · have := stored i (by rw [List.length_append]; omega)
      rwa [List.getElem_append_left inside] at this
    · simpa using stored front.length (by simp)

/-- One step of the reader: the checksum fits, or a block is read. -/
theorem decodeFrom_step :
    decodeFrom data blocks room = .ok r ↔
      (blocks ≠ [] ∧ Ends data blocks.length) ∧ r = ⟨blocks⟩ ∨
        ¬(blocks ≠ [] ∧ Ends data blocks.length) ∧ ∃ b left, room = left + 1 ∧
          b.Stored data (4 + 24 * blocks.length) ∧
          decodeFrom data (blocks ++ [b]) left = .ok r := by
  simp only [← Block.decode_ok_iff_stored, Ends]
  rw [decodeFrom]
  simp only [position_eq]
  cases found : Word.at? data (4 + 24 * blocks.length) with
  | none =>
    refine iff_of_false (by simp) ?_
    rintro (⟨⟨_, ⟨⟩⟩, _⟩ | ⟨_, b, left, _, read, _⟩)
    have first := (Block.decode_ok_iff_stored.mp read).partitionAddress
    exact absurd (found.symm.trans first) (by simp)
  | some w =>
    dsimp only
    by_cases fits : blocks ≠ [] ∧ w = crc32 (data.take (4 + 24 * blocks.length))
    · rw [if_pos (by simpa using fits)]
      simp [fits, @eq_comm _ r]
    · rw [if_neg (by simpa using fits)]
      simp only [Option.some.injEq, fits, false_and, false_or, not_false_eq_true, true_and]
      cases read : Block.decode data (4 + 24 * blocks.length) with
      | error e => simp
      | ok b => cases room <;> simp

/-- Reading on behind some blocks. The induction is on the blocks that there is room for; what
stands behind is read to the first checksum that fits. -/
theorem decodeFrom_ok_iff (front : body ⟨blocks⟩ <+: data) :
    decodeFrom data blocks room = .ok r ↔
      ∃ more, r = ⟨blocks ++ more⟩ ∧ more.length ≤ room ∧ r.blocks ≠ [] ∧ r.encode <+: data ∧
        ∀ k, blocks.length ≤ k → 1 ≤ k → k < r.blocks.length → ¬Ends data k := by
  induction room using Nat.strongRecOn generalizing blocks with
  | ind room ih =>
    rw [decodeFrom_step]
    constructor
    · rintro (⟨⟨some_block, ends⟩, rfl⟩ | ⟨goes_on, b, left, rfl, stored, read⟩)
      · refine ⟨[], by rw [List.append_nil], Nat.zero_le _, some_block,
          encode_prefix_iff.mpr ⟨front, ends⟩, fun k low _ high => ?_⟩
        exact absurd high (Nat.not_lt.mpr low)
      · obtain ⟨more, rfl, short, some_block, whole, before⟩ :=
          (ih left (Nat.lt_succ_self _) (body_prefix_concat_iff.mpr ⟨front, stored⟩)).mp read
        refine ⟨b :: more, by simp, Nat.succ_le_succ short, some_block, whole,
          fun k low positive high ends => ?_⟩
        by_cases first : k = blocks.length
        · subst first
          exact goes_on ⟨List.length_pos_iff.mp positive, ends⟩
        · exact before k (by rw [List.length_append, List.length_singleton]; omega) positive high
            ends
    · rintro ⟨more, rfl, short, some_block, whole, before⟩
      cases more with
      | nil =>
        rw [List.append_nil] at some_block whole ⊢
        exact Or.inl ⟨⟨some_block, (encode_prefix_iff.mp whole).2⟩, rfl⟩
      | cons b more =>
        have inside : blocks.length < (blocks ++ b :: more).length := by simp
        have stored := ((body_prefix_iff _).mp (encode_prefix_iff.mp whole).1).2 _ inside
        rw [List.getElem_append_right (Nat.le_refl _)] at stored
        simp only [Nat.sub_self, List.getElem_cons_zero] at stored
        obtain ⟨left, rfl⟩ : ∃ left, room = left + 1 :=
          ⟨room - 1, by rw [List.length_cons] at short; omega⟩
        refine Or.inr ⟨?_, b, left, rfl, stored, ?_⟩
        · rintro ⟨filled, ends⟩
          exact before _ (Nat.le_refl _) (List.length_pos_iff.mpr filled) inside ends
        · refine (ih left (Nat.lt_succ_self _)
            (body_prefix_concat_iff.mpr ⟨front, stored⟩)).mpr ⟨more, by simp, ?_, some_block,
              whole, fun k low => before k ?_⟩
          · exact Nat.le_of_succ_le_succ short
          · rw [List.length_append] at low
            omega

/-- A record is read exactly if its bytes stand at the front and no shorter record does. -/
theorem decode_ok_iff_front :
    decode data = .ok r ↔ r.blocks ≠ [] ∧ r.blocks.length ≤ maxBlocks ∧ r.encode <+: data ∧
      ∀ k, 1 ≤ k → k < r.blocks.length → ¬Ends data k := by
  have front : ∀ {r : Record}, r.encode <+: data → magic <+: data := fun whole =>
    ((body_prefix_iff _).mp (encode_prefix_iff.mp whole).1).1
  by_cases head : magic <+: data
  · have long : ¬data.length < magic.length := Nat.not_lt.mpr head.length_le
    have same : data.take magic.length = magic := (List.prefix_iff_eq_take.mp head).symm
    have start : body ⟨[]⟩ <+: data := (body_prefix_iff []).mpr ⟨head, by simp⟩
    rw [decode, if_neg long, if_neg (not_not_intro same), decodeFrom_ok_iff start]
    constructor
    · rintro ⟨more, rfl, short, some_block, whole, before⟩
      exact ⟨some_block, short, whole, fun k => before k (Nat.zero_le k)⟩
    · rintro ⟨some_block, short, whole, before⟩
      exact ⟨r.blocks, rfl, short, some_block, whole, fun k _ => before k⟩
  · refine iff_of_false (fun read => ?_) fun h => head (front h.2.2.1)
    unfold decode at read
    split at read
    · contradiction
    · split at read
      · contradiction
      · rename_i same
        exact head (Decidable.not_not.mp same ▸ List.take_prefix _ _)

theorem ends_append {rest : List UInt8} (inside : 4 + 24 * n + 4 ≤ data.length) :
    Ends (data ++ rest) n ↔ Ends data n := by
  unfold Ends
  rw [Word.at?_append inside, List.take_append_of_le_length (by omega)]

theorem length_encode_eq (r : Record) : r.encode.length = 4 + 24 * r.blocks.length + 4 := by
  rw [length_encode, encodedSize, position_eq]

/-- What stands behind a record does not matter. -/
theorem decode_encode_append (read : decode data = .ok r) (rest : List UInt8) :
    decode (r.encode ++ rest) = .ok r := by
  obtain ⟨some_block, short, ⟨after, rfl⟩, before⟩ := decode_ok_iff_front.mp read
  refine decode_ok_iff_front.mpr ⟨some_block, short, List.prefix_append _ _, ?_⟩
  intro k positive high ends
  have inside : 4 + 24 * k + 4 ≤ r.encode.length := by
    rw [length_encode_eq]
    omega
  exact before k positive high ((ends_append inside).mpr ((ends_append inside).mp ends))

/-- A record is read exactly if one or two blocks and their checksum stand behind the magic bytes
and, of two blocks, the second does not start with the checksum of the first. It is then read from
its own bytes alone. -/
theorem decode_ok_iff_format (data : List UInt8) (r : Record) :
    (decode data = .ok r ↔
      magic <+: data ∧ (r.blocks.length = 1 ∨ r.blocks.length = 2) ∧
      (∀ i (inside : i < r.blocks.length), r.blocks[i].Stored data (4 + 24 * i)) ∧
      Word.at? data (4 + 24 * r.blocks.length) =
        some (crc32 (data.take (4 + 24 * r.blocks.length))) ∧
      (r.blocks.length = 2 → Word.at? data 28 ≠ some (crc32 (data.take 28)))) ∧
    (decode data = .ok r →
      r.encode <+: data ∧ r.encode.length = r.encodedSize ∧ r.encodedSize ≤ data.length ∧
      ∀ rest, decode (r.encode ++ rest) = .ok r) := by
  constructor
  · rw [decode_ok_iff_front, encode_prefix_iff, body_prefix_iff, ← List.length_pos_iff]
    constructor
    · rintro ⟨some_block, short, ⟨⟨head, stored⟩, ends⟩, before⟩
      have count : r.blocks.length = 1 ∨ r.blocks.length = 2 := by
        simp only [maxBlocks] at short
        omega
      exact ⟨head, count, stored, ends, fun two => before 1 (Nat.le_refl _) (by omega)⟩
    · rintro ⟨head, count, stored, ends, second⟩
      refine ⟨by omega, by simp only [maxBlocks]; omega, ⟨⟨head, stored⟩, ends⟩, ?_⟩
      intro k positive high
      obtain rfl : k = 1 := by omega
      exact second (by omega)
  · intro read
    have whole := (decode_ok_iff_front.mp read).2.2.1
    exact ⟨whole, length_encode r, length_encode r ▸ whole.length_le, decode_encode_append read⟩

end Record
end Update
end FirmwareMeta
