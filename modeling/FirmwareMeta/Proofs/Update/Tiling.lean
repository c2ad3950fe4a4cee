import FirmwareMeta.Update.Record

/-! The blocks of a record and the payloads that they are made from. Each payload starts where
the one in front of it ends. -/
namespace FirmwareMeta.Update

open Hardware (PartitionTable)

def Payload.join (payloads : List Payload) : List UInt8 := payloads.flatMap (·.data)

@[simp] theorem Payload.join_nil : join [] = [] := rfl

@[simp] theorem Payload.join_cons (p : Payload) (payloads : List Payload) :
    join (p :: payloads) = p.data ++ join payloads := rfl

/-- The block of a payload that starts at an offset. -/
def Payload.block (p : Payload) (partition : Hardware.Partition) (offset : Nat) : Block :=
  ⟨partition.start, partition.size, .ofNat offset, .ofNat p.data.length, crc32 p.data, p.role⟩

theorem Payload.block_offset (p : Payload) (partition : Hardware.Partition) {offset : Nat}
    (small : offset < Word.limit) : (p.block partition offset).offset.toNat = offset :=
  UInt32.toNat_ofNat_of_lt' small

theorem Payload.block_size (p : Payload) (partition : Hardware.Partition) (offset : Nat)
    (small : p.data.length < Word.limit) :
    (p.block partition offset).size.toNat = p.data.length :=
  UInt32.toNat_ofNat_of_lt' small

/-- Blocks of payloads that lie one behind the other from an offset on. -/
inductive Tiled (table : PartitionTable) : Nat → List Payload → List Block → Prop where
  | nil {offset : Nat} : Tiled table offset [] []
  | cons {offset : Nat} {p : Payload} {payloads : List Payload} {blocks : List Block}
      {partition : Hardware.Partition} :
      table.lookup? p.role.partition = some partition → p.data ≠ [] →
      offset + p.data.length < Word.limit →
      Tiled table (offset + p.data.length) payloads blocks →
      Tiled table offset (p :: payloads) (p.block partition offset :: blocks)

variable {table : PartitionTable} {p : Payload} {payloads : List Payload}
  {blocks : List Block} {offset : Nat} {result : List Block × Nat}

theorem addPayload_ok_iff :
    Record.addPayload table (blocks, offset) p = .ok result ↔
      ∃ partition, table.lookup? p.role.partition = some partition ∧ p.data ≠ [] ∧
        offset + p.data.length < Word.limit ∧
        result = (blocks ++ [p.block partition offset], offset + p.data.length) := by
  simp only [Record.addPayload, PartitionTable.require]
  cases found : table.lookup? p.role.partition with
  | none => simp [bind, Except.bind]
  | some partition =>
    by_cases filled : p.data = []
    · simp [filled, bind, Except.bind, throw, throwThe, MonadExceptOf.throw]
    · by_cases bound : offset + p.data.length < Word.limit
      · simp only [bind, Except.bind, pure, Except.pure, List.isEmpty_iff, filled,
          Nat.not_le.mpr bound, ↓reduceIte, Except.ok.injEq, Option.some.injEq]
        constructor
        · rintro rfl
          exact ⟨partition, rfl, filled, bound, rfl⟩
        · rintro ⟨_, rfl, _, _, rfl⟩
          rfl
      · simp [filled, bound, Nat.not_lt.mp bound, bind, Except.bind, throw, throwThe,
          MonadExceptOf.throw]

/-- Adding payloads one after the other tiles them behind what is there. -/
theorem addPayloads_ok_iff :
    payloads.foldlM (Record.addPayload table) (blocks, offset) = .ok result ↔
      ∃ more, Tiled table offset payloads more ∧
        result = (blocks ++ more, offset + (Payload.join payloads).length) := by
  induction payloads generalizing blocks offset with
  | nil =>
    simp only [List.foldlM_nil, pure, Except.pure, Except.ok.injEq, Payload.join_nil]
    constructor
    · rintro rfl
      exact ⟨[], .nil, by simp⟩
    · rintro ⟨_, ⟨⟩, rfl⟩
      simp
  | cons p rest ih =>
    simp only [List.foldlM_cons, Payload.join_cons, List.length_append, ← Nat.add_assoc]
    constructor
    · intro h
      cases step : Record.addPayload table (blocks, offset) p with
      | error e =>
        rw [step] at h
        contradiction
      | ok next =>
        obtain ⟨partition, found, filled, bound, rfl⟩ := addPayload_ok_iff.mp step
        rw [step] at h
        obtain ⟨more, tiled, rfl⟩ := ih.mp h
        exact ⟨_, .cons found filled bound tiled, by simp⟩
    · rintro ⟨_, ⟨⟩ | ⟨found, filled, bound, tiled⟩, rfl⟩
      rw [addPayload_ok_iff.mpr ⟨_, found, filled, bound, rfl⟩]
      exact ih.mpr ⟨_, tiled, by simp⟩

theorem ofPayloads_ok_iff {r : Record} :
    Record.ofPayloads table payloads = .ok r ↔ Tiled table 0 payloads r.blocks := by
  simp only [Record.ofPayloads]
  constructor
  · intro h
    cases outcome : payloads.foldlM (Record.addPayload table) ([], 0) with
    | error e =>
      rw [outcome] at h
      contradiction
    | ok result =>
      obtain ⟨more, tiled, rfl⟩ := addPayloads_ok_iff.mp outcome
      rw [outcome] at h
      exact Except.ok.inj h ▸ tiled
  · intro tiled
    rw [addPayloads_ok_iff.mpr ⟨_, tiled, rfl⟩]
    rfl

theorem Tiled.length_eq (tiled : Tiled table offset payloads blocks) :
    blocks.length = payloads.length := by
  induction tiled with
  | nil => rfl
  | cons _ _ _ _ ih => simp only [List.length_cons, ih]

/-! Payloads of one byte, for records that can be computed -/

def tinySoftDevice : Payload := ⟨.softDevice, ⟨"softdevice.bin"⟩, [0xA5]⟩

def tinyLoader : Payload := ⟨.firmwareLoader, ⟨"loader.bin"⟩, [0x3C]⟩

def loaderAt (address : UInt32) : PartitionTable :=
  ⟨[⟨Hardware.softDevice, 0x27000, 0x2E000, true⟩, ⟨Hardware.slot1, address, 0x20000, true⟩]⟩

def tinyBlock : Block := ⟨0x27000, 0x2E000, 0, 1, crc32 [0xA5], .softDevice⟩

def tinyLoaderBlock (address : UInt32) : Block :=
  ⟨address, 0x20000, 1, 1, crc32 [0x3C], .firmwareLoader⟩

theorem make_tiny (address : UInt32) :
    Record.make (loaderAt address) tinySoftDevice (some tinyLoader) =
      .ok ⟨[tinyBlock, tinyLoaderBlock address]⟩ := rfl

end FirmwareMeta.Update
