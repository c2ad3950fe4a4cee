import FirmwareMeta.Proofs.Image.Cells
import FirmwareMeta.Proofs.Image.Reading

/-! What reads see of the writes that made an image. Writes that fail leave nothing behind, so an
image is what some writes leave that all succeed, and its bytes are theirs. -/
namespace FirmwareMeta.Image

/-- One of some writes puts a byte at an address. -/
def Puts (writes : List (Nat × List UInt8)) (a : Nat) (b : UInt8) : Prop :=
  ∃ w ∈ writes, w.1 ≤ a ∧ w.2[a - w.1]? = some b

variable {image : Image} {address length a : Nat} {b : UInt8} {data more : List UInt8}
  {writes : List (Nat × List UInt8)}

theorem mem_cellsOf_iff : (b, a) ∈ cellsOf writes ↔ Puts writes a b := by
  simp only [cellsOf, List.mem_flatMap, List.mk_mem_zipIdx_iff_le_and_getElem?_sub, Puts]

theorem byte?_of_writeAll (made : empty.writeAll writes = .ok image) :
    image.byte? a = some b ↔ Puts writes a b := by
  obtain ⟨normal, cells⟩ := normal_writeAll normal_empty made
  rw [← normal.mem_cells_iff, cells.mem_iff]
  exact mem_cellsOf_iff

/-- The writes that succeeded, in their order, make the image without those that failed. -/
theorem Reachable.exists_writes (h : image.Reachable) :
    ∃ writes, Image.empty.writeAll writes = .ok image := by
  induction h with
  | empty => exact ⟨[], rfl⟩
  | @attempt image address data before ih =>
    obtain ⟨writes, made⟩ := ih
    cases outcome : image.write address data with
    | ok written =>
      refine ⟨writes ++ [(address, data)], ?_⟩
      rw [writeAll_append, made, attempt_of_ok outcome]
      exact writeAll_cons_ok_iff.mpr ⟨written, outcome, rfl⟩
    | error e =>
      rw [attempt_of_error before.normal outcome]
      exact ⟨writes, made⟩

/-! Blocks of written bytes -/

/-- A block of written addresses holds some bytes. -/
theorem exists_holds (taken : ∀ i, i < length → image.byte? (address + i) ≠ none) :
    ∃ data, data.length = length ∧ image.Holds address data := by
  induction length with
  | zero => exact ⟨[], rfl, fun i low => absurd low (Nat.not_lt_zero i)⟩
  | succ length ih =>
    obtain ⟨data, rfl, held⟩ := ih fun i low => taken i (Nat.lt_succ_of_lt low)
    obtain ⟨b, last⟩ := Option.ne_none_iff_exists'.mp (taken data.length (Nat.lt_succ_self _))
    refine ⟨data ++ [b], List.length_append, holds_append.mpr ⟨held, fun i low => ?_⟩⟩
    obtain rfl : i = 0 := Nat.lt_one_iff.mp low
    exact last

theorem Holds.prefix (held : image.Holds address data) (also : image.Holds address more)
    (short : data.length ≤ more.length) : data <+: more := by
  have front : image.Holds address (more.take data.length) := by
    rw [← List.take_append_drop data.length more, holds_append] at also
    exact also.1
  have same := held.ext front (by rw [List.length_take]; omega)
  rw [same]
  exact List.take_prefix _ _

/-- Nothing that stands at the address goes on behind the end of a run. -/
theorem Run.prefix (run : image.Run address data) (also : image.Holds address more) :
    more <+: data := by
  refine also.prefix run.held ?_
  by_contra long
  exact also.taken (Nat.le_add_right _ _) (by omega) run.ends

/-- A run ends at the first address that is not written or behind the last one there is. -/
theorem Normal.run_iff (normal : image.Normal) (filled : data ≠ []) :
    image.Run address data ↔ image.Holds address data ∧
      (address + data.length = Word.limit ∨
        address + data.length < Word.limit ∧ image.byte? (address + data.length) = none) := by
  have size := List.length_pos_iff.mpr filled
  constructor
  · rintro ⟨held, ends⟩
    have last := normal.lt_limit (held.taken (a := address + data.length - 1) (by omega) (by omega))
    refine ⟨held, ?_⟩
    by_cases top : address + data.length = Word.limit
    · exact .inl top
    · exact .inr ⟨by omega, ends⟩
  · rintro ⟨held, top | ⟨-, ends⟩⟩
    · refine ⟨held, ?_⟩
      by_contra taken
      exact absurd (normal.lt_limit taken) (by omega)
    · exact ⟨held, ends⟩

theorem Normal.exists_read?_iff (normal : image.Normal) (some_bytes : 0 < length) :
    (∃ data, image.read? address length = some data) ↔
      ∀ a, address ≤ a → a < address + length → image.byte? a ≠ none := by
  simp only [normal.read?_eq_some_iff some_bytes]
  constructor
  · rintro ⟨data, rfl, held⟩ a
    exact held.taken
  · intro taken
    exact exists_holds fun i low => taken _ (Nat.le_add_right _ _) (by omega)

theorem Normal.exists_run?_iff (normal : image.Normal) :
    (∃ data, image.run? address = some data) ↔ image.byte? address ≠ none := by
  constructor
  · rintro ⟨data, read⟩
    obtain ⟨filled, run⟩ := normal.run?_eq_some_iff.mp read
    have size := List.length_pos_iff.mpr filled
    exact run.held.taken (Nat.le_refl _) (by omega)
  · intro taken
    obtain ⟨s, mem, low, high⟩ := byte?_ne_none_iff.mp taken
    have inside : address - s.start < s.bytes.size := by
      simp only [Segment.stop] at high
      omega
    have found := normal.segmentFrom?_mem mem low high
    simp only [run?, found, inside, ↓reduceIte, Option.some.injEq, exists_eq']

/-- Reads see the bytes of the writes and nothing else: a read of a range gives its bytes if all of
them are written, and a run is the longest block of written bytes at its address. -/
theorem reads_see_writes (h : image.Reachable) :
    ((∃ writes, empty.writeAll writes = .ok image) ∧
      ∀ writes, empty.writeAll writes = .ok image →
        ∀ a b, image.byte? a = some b ↔ Puts writes a b) ∧
    (∀ address length, 1 ≤ length →
      ((∃ data, image.read? address length = some data) ↔
        ∀ a, address ≤ a → a < address + length → image.byte? a ≠ none) ∧
      ∀ data, image.read? address length = some data ↔
        data.length = length ∧ ∀ i < length, image.byte? (address + i) = data[i]?) ∧
    ∀ address,
      ((∃ data, image.run? address = some data) ↔ image.byte? address ≠ none) ∧
      ∀ data, image.run? address = some data →
        data ≠ [] ∧ (∀ i < data.length, image.byte? (address + i) = data[i]?) ∧
        (address + data.length = Word.limit ∨
          address + data.length < Word.limit ∧ image.byte? (address + data.length) = none) ∧
        ∀ more, (∀ i < more.length, image.byte? (address + i) = more[i]?) → more <+: data := by
  have normal := h.normal
  refine ⟨⟨h.exists_writes, fun writes made a b => byte?_of_writeAll made⟩, ?_, ?_⟩
  · intro address length some_bytes
    refine ⟨normal.exists_read?_iff some_bytes, fun data => ?_⟩
    rw [normal.read?_eq_some_iff some_bytes]
    exact and_congr_right fun size => size ▸ Iff.rfl
  · intro address
    refine ⟨normal.exists_run?_iff, fun data read => ?_⟩
    obtain ⟨filled, run⟩ := normal.run?_eq_some_iff.mp read
    obtain ⟨held, ends⟩ := (normal.run_iff filled).mp run
    exact ⟨filled, held, ends, fun more also => run.prefix also⟩

/-- A byte alone, a gap, and a block up to the last address. -/
def topImage : Image := (empty.attempt 0xFFFFFFF0 [1]).attempt 0xFFFFFFFE [2, 3]

theorem reads_see_writes_at_top :
    topImage.Reachable ∧ topImage.read? 0xFFFFFFFE 2 = some [2, 3] ∧
      (¬∃ data, topImage.read? 0xFFFFFFFD 2 = some data) ∧
      ∃ data, topImage.run? 0xFFFFFFFF = some data ∧ data ≠ [] ∧
        0xFFFFFFFF + data.length = Word.limit := by
  have reachable : topImage.Reachable := .attempt _ _ (.attempt _ _ .empty)
  obtain ⟨-, reads, runs⟩ := reads_see_writes reachable
  have bytes : ∀ i < 2, topImage.byte? (0xFFFFFFFE + i) = ([2, 3] : List UInt8)[i]? := by decide
  obtain ⟨data, read⟩ := (runs 0xFFFFFFFF).1.mpr (by decide)
  obtain ⟨filled, -, ends, -⟩ := (runs 0xFFFFFFFF).2 data read
  refine ⟨reachable, ((reads _ 2 (by decide)).2 _).mpr ⟨rfl, bytes⟩, ?_, data, read, filled, ?_⟩
  · rw [(reads _ 2 (by decide)).1]
    exact fun taken => taken 0xFFFFFFFD (by decide) (by decide) (by decide)
  · have size := List.length_pos_iff.mpr filled
    rcases ends with top | ⟨low, -⟩
    · exact top
    · exact absurd low (by simp only [Word.limit]; omega)

end FirmwareMeta.Image
