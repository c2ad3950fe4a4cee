import FirmwareMeta.Install.Entry
import FirmwareMeta.Proofs.Hardware.Resolving
import FirmwareMeta.Proofs.Image.Writing

/-! The bytes of install entries. An entry is made exactly if its partitions are there, its images
go with the firmware loader and the configured size has room for them; it then fills that size. -/
namespace FirmwareMeta.Install

open Hardware (PartitionTable)

variable {table : PartitionTable} {withLoader : Bool} {g : Geometry} {e : Entry}

/-- The region that the firmware loader of a build has, which is empty if there is no loader. -/
def LoaderRegion (table : PartitionTable) (withLoader : Bool) (r : Region) : Prop :=
  if withLoader then ∃ p, table.lookup? Hardware.slot1 = some p ∧ r = .ofPartition p
  else r = .empty

/-- The number of images is one that an entry can have. -/
def Countable (withLoader : Bool) (g : Geometry) : Prop :=
  g.imageCount = 2 ∨ g.imageCount = 1 ∧ withLoader = false

/-- What it takes to make an entry. -/
structure Fits (table : PartitionTable) (withLoader : Bool) (g : Geometry) : Prop where
  softDevice : ∃ p, table.lookup? Hardware.softDevice = some p
  loader : withLoader = true → ∃ p, table.lookup? Hardware.slot1 = some p
  count : Countable withLoader g
  room : 8 * g.imageCount.toNat + 4 ≤ g.entrySize.toNat

/-- What an entry has in front of its checksum: where its images go, and zeros. -/
def Geometry.front (g : Geometry) (softDevice : Hardware.Partition) (loader : Region) :
    List UInt8 :=
  Word.bytes softDevice.start ++ Word.bytes softDevice.size ++
    (if g.imageCount = 2 then Word.bytes loader.address ++ Word.bytes loader.size else []) ++
    List.replicate (g.entrySize.toNat - (8 * g.imageCount.toNat + 4)) 0

theorem exists_loaderRegion_iff : (∃ r, LoaderRegion table withLoader r) ↔
    (withLoader = true → ∃ p, table.lookup? Hardware.slot1 = some p) := by
  cases withLoader with
  | false => simp [LoaderRegion]
  | true =>
    simp only [LoaderRegion, ↓reduceIte, forall_const]
    exact ⟨fun ⟨_, p, found, _⟩ => ⟨p, found⟩, fun ⟨p, found⟩ => ⟨_, p, found, rfl⟩⟩

/-! Sizes -/

/-- The number of bytes does not wrap for the numbers of images that an entry can have. -/
theorem Countable.toNat_used (countable : Countable withLoader g) :
    g.used.toNat = 8 * g.imageCount.toNat + 4 := by
  unfold Geometry.used
  rcases countable with two | ⟨one, -⟩
  · rw [two]
    rfl
  · rw [one]
    rfl

theorem Geometry.padding_ok_iff {padding : UInt32} : g.padding = .ok padding ↔
    g.used.toNat ≤ g.entrySize.toNat ∧ padding.toNat = g.entrySize.toNat - g.used.toNat := by
  unfold Geometry.padding
  split
  · rename_i short
    rw [UInt32.lt_iff_toNat_lt] at short
    simp [Nat.not_le.mpr short]
  · rename_i long
    have room := UInt32.not_lt.mp long
    rw [Except.ok.injEq, ← UInt32.toNat_inj, UInt32.toNat_sub_of_le _ _ room]
    simp [UInt32.le_iff_toNat_le.mp room, eq_comm]

theorem Geometry.padding_error_iff {cause : Inconsistency} : g.padding = .error cause ↔
    g.entrySize.toNat < g.used.toNat ∧ cause = .entrySize g.entrySize g.imageCount g.used := by
  unfold Geometry.padding
  rw [← UInt32.lt_iff_toNat_lt]
  split <;> simp [*, eq_comm]

namespace Entry

variable {softDevice loader : Region} {regions : List Region}

/-! Making -/

theorem regionsOf_ok_iff :
    regionsOf g.imageCount softDevice loader withLoader = .ok regions ↔
      Countable withLoader g ∧
        regions = if g.imageCount = 2 then [softDevice, loader] else [softDevice] := by
  unfold regionsOf Countable
  by_cases one : g.imageCount = 1
  · cases withLoader <;> simp [one, eq_comm]
  · by_cases two : g.imageCount = 2
    · simp [two, eq_comm]
    · simp [one, two]

theorem regionsOf_error {cause : Inconsistency}
    (failed : regionsOf g.imageCount softDevice loader withLoader = .error cause) :
    cause = .loaderWithoutSlot ∨ cause = .imageCount g.imageCount := by
  unfold regionsOf at failed
  split at failed
  · split at failed
    · exact Or.inl (Except.error.inj failed).symm
    · contradiction
  · split at failed
    · contradiction
    · exact Or.inr (Except.error.inj failed).symm

theorem loaderRegion_ok_iff :
    loaderRegion table withLoader = .ok loader ↔ LoaderRegion table withLoader loader := by
  unfold loaderRegion LoaderRegion
  cases withLoader with
  | false => simp [eq_comm]
  | true =>
    simp only [↓reduceIte, map_ok_iff, PartitionTable.require_ok_iff]
    exact exists_congr fun _ => and_congr_right' eq_comm

theorem loaderRegion_error {cause : Failure}
    (failed : loaderRegion table withLoader = .error cause) :
    cause = .partitionMissing Hardware.slot1 := by
  cases withLoader with
  | false => contradiction
  | true => exact (PartitionTable.require_error_iff.mp (map_error_iff.mp failed)).2

theorem make_ok_iff : make table withLoader g = .ok e ↔
    ∃ p loader, table.lookup? Hardware.softDevice = some p ∧
      LoaderRegion table withLoader loader ∧ Countable withLoader g ∧
      8 * g.imageCount.toNat + 4 ≤ g.entrySize.toNat ∧
      e = ⟨if g.imageCount = 2 then [.ofPartition p, loader] else [.ofPartition p],
        g.entrySize.toNat - (8 * g.imageCount.toNat + 4)⟩ := by
  simp only [make, bind_ok_iff, PartitionTable.require_ok_iff, loaderRegion_ok_iff,
    Failure.lift_ok_iff, regionsOf_ok_iff, Geometry.padding_ok_iff]
  constructor
  · rintro ⟨p, found, loader, region, _, ⟨countable, rfl⟩, padding, ⟨room, rest⟩, made⟩
    rw [countable.toNat_used] at room rest
    rw [rest] at made
    exact ⟨p, loader, found, region, countable, room, (Except.ok.inj made).symm⟩
  · rintro ⟨p, loader, found, region, countable, room, rfl⟩
    have small :=
      Nat.lt_of_le_of_lt (Nat.sub_le _ (8 * g.imageCount.toNat + 4)) g.entrySize.toNat_lt
    have rest := UInt32.toNat_ofNat_of_lt' small
    rw [← countable.toNat_used] at room rest small ⊢
    refine ⟨p, found, loader, region, _, ⟨countable, rfl⟩, _, ⟨room, rest⟩, ?_⟩
    rw [rest]
    rfl

/-- An entry is refused for its size with the exact number of bytes that it needs. -/
theorem make_entrySize_error {size count used : UInt32}
    (failed : make table withLoader g = .error (.inconsistent (.entrySize size count used))) :
    size = g.entrySize ∧ count = g.imageCount ∧ used.toNat = 8 * g.imageCount.toNat + 4 ∧
      g.entrySize.toNat < used.toNat := by
  simp only [make, bind_error_iff, PartitionTable.require_error_iff, Failure.lift_error_iff,
    Failure.lift_ok_iff, regionsOf_ok_iff, Geometry.padding_error_iff] at failed
  rcases failed with ⟨_, missing⟩ | ⟨p, _, missing | ⟨loader, _, ⟨cause, refused, same⟩ |
    ⟨regions, ⟨countable, _⟩, ⟨cause, ⟨short, rfl⟩, same⟩ | ⟨_, _, made⟩⟩⟩⟩
  · contradiction
  · cases loaderRegion_error missing
  · obtain rfl := Failure.inconsistent.inj same
    rcases regionsOf_error refused with other | other <;> contradiction
  · cases same
    exact ⟨rfl, rfl, countable.toNat_used, short⟩
  · contradiction

variable {address : UInt32}

theorem length_regions (regions : List Region) :
    (regions.flatMap Region.bytes).length = 8 * regions.length := by
  induction regions with
  | nil => rfl
  | cons r rest ih =>
    rw [List.flatMap_cons, List.length_append, ih, Region.bytes, List.length_append,
      Word.length_bytes, Word.length_bytes, List.length_cons]
    omega

theorem length_body (e : Entry) : e.body.length = 8 * e.regions.length + e.padding := by
  rw [body, List.length_append, length_regions, List.length_replicate]

theorem length_encode (e : Entry) : e.encode.length = e.encodedSize := by
  have sizes : regionSize.toNat = 8 ∧ checksumSize.toNat = 4 := ⟨rfl, rfl⟩
  rw [encode, List.length_append, length_body, Word.length_bytes, encodedSize, sizes.1, sizes.2]
  omega

theorem encode_ne_nil (e : Entry) : e.encode ≠ [] := by
  rw [← List.length_pos_iff, encode, List.length_append, Word.length_bytes]
  omega

/-- An entry is placed where all of it is in the address space. -/
theorem image_ok_iff {image : Image} : e.image address = .ok image ↔
    address.toNat + e.encode.length ≤ Word.limit ∧
      image = ⟨[⟨address.toNat, e.encode.toArray⟩]⟩ := by
  rw [Entry.image, Failure.lift_ok_iff]
  by_cases bound : address.toNat + e.encode.length ≤ Word.limit
  · rw [Image.ofBytes_ok e.encode_ne_nil bound]
    simp [bound, eq_comm]
  · rw [Image.ofBytes, Image.write_overflow e.encode_ne_nil (Nat.lt_of_not_le bound)]
    simp [bound]

theorem body_make (g : Geometry) (p : Hardware.Partition) (loader : Region) :
    body ⟨if g.imageCount = 2 then [.ofPartition p, loader] else [.ofPartition p],
      g.entrySize.toNat - (8 * g.imageCount.toNat + 4)⟩ = g.front p loader := by
  unfold body Geometry.front
  split <;> simp [Region.bytes, Region.ofPartition]

theorem encodedSize_of_make (made : make table withLoader g = .ok e) :
    e.encodedSize = g.entrySize.toNat := by
  have sizes : regionSize.toNat = 8 ∧ checksumSize.toNat = 4 := ⟨rfl, rfl⟩
  obtain ⟨p, loader, _, _, countable, room, rfl⟩ := make_ok_iff.mp made
  have regions : (if g.imageCount = 2 then [Region.ofPartition p, loader]
      else [Region.ofPartition p]).length = g.imageCount.toNat := by
    rcases countable with two | ⟨one, -⟩
    · rw [two]
      rfl
    · rw [one]
      rfl
  simp only [encodedSize, regions, sizes]
  omega

/-- A missing image leaves as many zeros as an empty region has. -/
theorem encode_single (softDevice : Region) {size : Nat} (room : 20 ≤ size) :
    encode ⟨[softDevice], size - 12⟩ = encode ⟨[softDevice, .empty], size - 20⟩ := by
  have zeros : Region.empty.bytes = List.replicate 8 0 := by decide
  have count : size - 12 = 8 + (size - 20) := by omega
  have same : body ⟨[softDevice], size - 12⟩ = body ⟨[softDevice, .empty], size - 20⟩ := by
    simp only [body, List.flatMap_cons, List.flatMap_nil, List.append_nil, zeros, count,
      List.append_assoc, List.replicate_append_replicate]
  rw [encode, encode, same]

/-- An entry is made exactly if its partitions are there, the number of its images goes with the
firmware loader and the configured size has room. It has the configured size: the regions of its
images, zeros, and the checksum of all that. It can be placed where it ends in the address space. -/
theorem entry_layout (table : PartitionTable) (withLoader : Bool) (g : Geometry) :
    ((∃ e, make table withLoader g = .ok e) ↔ Fits table withLoader g) ∧
    (∀ size count used,
      make table withLoader g = .error (.inconsistent (.entrySize size count used)) →
      size = g.entrySize ∧ count = g.imageCount ∧ used.toNat = 8 * g.imageCount.toNat + 4 ∧
        g.entrySize.toNat < used.toNat) ∧
    (∀ e, make table withLoader g = .ok e →
      e.encodedSize = g.entrySize.toNat ∧ e.encode.length = g.entrySize.toNat ∧
      (∃ p loader, table.lookup? Hardware.softDevice = some p ∧
        LoaderRegion table withLoader loader ∧
        e.encode = g.front p loader ++ Word.bytes (crc32 (g.front p loader))) ∧
      ∀ address : UInt32,
        ((∃ image, e.image address = .ok image) ↔
          address.toNat + g.entrySize.toNat ≤ Word.limit) ∧
        ∀ image, e.image address = .ok image → ∀ a, image.byte? a =
          if address.toNat ≤ a then e.encode[a - address.toNat]? else none) ∧
    (20 ≤ g.entrySize.toNat →
      encode <$> make table false { g with imageCount := 1 } =
        encode <$> make table false { g with imageCount := 2 }) := by
  refine ⟨⟨?_, ?_⟩, fun _ _ _ => make_entrySize_error, ?_, ?_⟩
  · rintro ⟨e, made⟩
    obtain ⟨p, loader, found, region, countable, room, -⟩ := make_ok_iff.mp made
    exact ⟨⟨p, found⟩, exists_loaderRegion_iff.mp ⟨loader, region⟩, countable, room⟩
  · rintro ⟨⟨p, found⟩, present, countable, room⟩
    obtain ⟨loader, region⟩ := exists_loaderRegion_iff.mpr present
    exact ⟨_, make_ok_iff.mpr ⟨p, loader, found, region, countable, room, rfl⟩⟩
  · intro e made
    have size := encodedSize_of_make made
    have length := e.length_encode.trans size
    refine ⟨size, length, ?_, fun address => ⟨?_, ?_⟩⟩
    · obtain ⟨p, loader, found, region, -, -, rfl⟩ := make_ok_iff.mp made
      exact ⟨p, loader, found, region, by rw [encode, body_make]⟩
    · rw [← length]
      exact ⟨fun ⟨_, placed⟩ => (image_ok_iff.mp placed).1,
        fun bound => ⟨_, image_ok_iff.mpr ⟨bound, rfl⟩⟩⟩
    · intro image placed a
      obtain ⟨-, rfl⟩ := image_ok_iff.mp placed
      rw [Image.byte?_cons, Image.byte?_run]
      exact Option.or_none
  · intro room
    cases required : table.require Hardware.softDevice with
    | error cause =>
      simp only [make, required]
      rfl
    | ok p =>
      have found := PartitionTable.require_ok_iff.mp required
      have one : make table false { g with imageCount := 1 } =
          .ok ⟨[.ofPartition p], g.entrySize.toNat - 12⟩ :=
        make_ok_iff.mpr ⟨p, .empty, found, rfl, Or.inr ⟨rfl, rfl⟩,
          Nat.le_trans (show 12 ≤ 20 by decide) room, rfl⟩
      have two : make table false { g with imageCount := 2 } =
          .ok ⟨[.ofPartition p, .empty], g.entrySize.toNat - 20⟩ :=
        make_ok_iff.mpr ⟨p, .empty, found, rfl, Or.inl rfl, room, rfl⟩
      rw [one, two]
      exact congrArg Except.ok (encode_single (.ofPartition p) room)

/-- Partitions of a SoftDevice and of a firmware loader. -/
def twoPartitions : PartitionTable :=
  ⟨[⟨Hardware.softDevice, 0x27000, 0x2e000, true⟩, ⟨Hardware.slot1, 0x55000, 0x20000, true⟩]⟩

/-- Two images leave no room for zeros in 20 bytes, which may end at the last address. -/
theorem entry_layout_at_top :
    (∃ e image, make twoPartitions true ⟨20, 2⟩ = .ok e ∧ e.encode.length = 20 ∧
      e.image 0xFFFFFFEC = .ok image ∧ image.byte? 0xFFFFFFFF = e.encode[19]?) ∧
    encode <$> make twoPartitions false ⟨20, 1⟩ = encode <$> make twoPartitions false ⟨20, 2⟩ := by
  obtain ⟨succeeds, -, holds, -⟩ := entry_layout twoPartitions true ⟨20, 2⟩
  obtain ⟨e, made⟩ := succeeds.mpr
    ⟨⟨_, rfl⟩, fun _ => ⟨_, rfl⟩, Or.inl rfl, Nat.le_of_eq rfl⟩
  obtain ⟨-, length, -, placed⟩ := holds e made
  obtain ⟨image, at_top⟩ := (placed 0xFFFFFFEC).1.mpr (Nat.le_of_eq rfl)
  exact ⟨⟨e, image, made, length, at_top, (placed 0xFFFFFFEC).2 image at_top 0xFFFFFFFF⟩,
    (entry_layout twoPartitions true ⟨20, 2⟩).2.2.2 (Nat.le_of_eq rfl)⟩

end Entry

end Install
end FirmwareMeta
