import FirmwareMeta.Proofs.Image.ByteMap

/-! What reads give. Each block of written addresses is one segment, so that a read sees all of it
although it looks at one segment only. -/
namespace FirmwareMeta.Image

variable {image : Image} {s : Segment} {address length : Nat} {data front back : List UInt8}

/-- Some bytes stand from an address on. -/
def Holds (image : Image) (address : Nat) (data : List UInt8) : Prop :=
  ∀ i, i < data.length → image.byte? (address + i) = data[i]?

/-- The bytes from an address up to the first one that is not written. -/
structure Run (image : Image) (address : Nat) (data : List UInt8) : Prop where
  held : image.Holds address data
  ends : image.byte? (address + data.length) = none

theorem holds_append :
    image.Holds address (front ++ back) ↔
      image.Holds address front ∧ image.Holds (address + front.length) back := by
  constructor
  · intro held
    refine ⟨fun i low => ?_, fun i low => ?_⟩
    · rw [held i (by rw [List.length_append]; omega), List.getElem?_append_left low]
    · rw [Nat.add_assoc, held _ (by rw [List.length_append]; omega),
        List.getElem?_append_right (Nat.le_add_right _ _), Nat.add_sub_cancel_left]
  · rintro ⟨first, second⟩ i low
    rw [List.length_append] at low
    by_cases inside : i < front.length
    · rw [first i inside, List.getElem?_append_left inside]
    · have split : address + i = address + front.length + (i - front.length) := by omega
      rw [split, second _ (by omega), List.getElem?_append_right (by omega)]

theorem Holds.taken (held : image.Holds address data) {a : Nat} (low : address ≤ a)
    (high : a < address + data.length) : image.byte? a ≠ none := by
  have split : a = address + (a - address) := by omega
  rw [split, held _ (by omega), ne_eq, List.getElem?_eq_none_iff]
  omega

theorem Holds.ext {other : List UInt8} (held : image.Holds address data)
    (also : image.Holds address other) (same : data.length = other.length) : data = other := by
  apply List.ext_getElem?
  intro i
  by_cases low : i < data.length
  · rw [← held i low, also i (same ▸ low)]
  · rw [List.getElem?_eq_none (by omega), List.getElem?_eq_none (by omega)]

theorem Run.ext {other : List UInt8} (run : image.Run address data)
    (also : image.Run address other) : data = other := by
  refine run.held.ext also.held ?_
  rcases Nat.lt_trichotomy data.length other.length with short | same | long
  · exact absurd run.ends (also.held.taken (by omega) (by omega))
  · exact same
  · exact absurd also.ends (run.held.taken (by omega) (by omega))

/-! The segment of an address -/

theorem Normal.lt_limit (normal : image.Normal) {a : Nat} (taken : image.byte? a ≠ none) :
    a < Word.limit := by
  obtain ⟨t, mem, _, high⟩ := byte?_ne_none_iff.mp taken
  have := normal.bounded t mem
  omega

/-- Between its ends a segment is all there is of a normal image. -/
theorem Normal.byte?_mem (normal : image.Normal) (mem : s ∈ image.segments) {a : Nat}
    (low : s.start ≤ a) (high : a ≤ s.stop) : image.byte? a = s.byte? a := by
  obtain ⟨segments⟩ := image
  induction segments with
  | nil => contradiction
  | cons t rest ih =>
    rcases List.mem_cons.mp mem with rfl | mem
    · exact normal.byte?_head high
    · have := (normal_cons.mp normal).2.2.1 s mem
      rw [byte?_cons, Segment.byte?_eq_none_iff.mpr (Or.inr (by omega)), Option.none_or]
      exact ih normal.tail mem

theorem Normal.segmentFrom?_mem (normal : image.Normal) (mem : s ∈ image.segments)
    (low : s.start ≤ address) (high : address < s.stop) :
    image.segmentFrom? address = some s := by
  obtain ⟨segments⟩ := image
  obtain ⟨before, behind, rfl⟩ := List.append_of_mem mem
  have apart := (List.pairwise_append.mp normal.apart).2.1
  have none_behind : behind.filter (·.start ≤ address) = [] := by
    rw [List.filter_eq_nil_iff]
    intro t inside
    have := (List.pairwise_cons.mp apart).1 t inside
    simp only [decide_eq_true_eq]
    omega
  simp only [segmentFrom?, List.filter_append, List.filter_cons, low, decide_true, ↓reduceIte,
    none_behind, List.getLast?_concat]

theorem mem_of_segmentFrom? (found : image.segmentFrom? address = some s) :
    s ∈ image.segments ∧ s.start ≤ address := by
  have mem := List.mem_of_getLast? found
  rw [List.mem_filter] at mem
  exact ⟨mem.1, of_decide_eq_true mem.2⟩

/-- Bytes that stand together are in one segment. -/
theorem Normal.segment_of_holds (normal : image.Normal) (held : image.Holds address data)
    (filled : data ≠ []) : ∃ s ∈ image.segments, image.segmentFrom? address = some s ∧
      s.start ≤ address ∧ address + data.length ≤ s.stop := by
  have size := List.length_pos_iff.mpr filled
  obtain ⟨s, mem, low, high⟩ :=
    byte?_ne_none_iff.mp (held.taken (Nat.le_refl address) (by omega))
  refine ⟨s, mem, normal.segmentFrom?_mem mem low high, low, ?_⟩
  by_contra long
  have free : image.byte? s.stop = none := by
    rw [normal.byte?_mem mem (by omega) (Nat.le_refl _)]
    exact Segment.byte?_eq_none_iff.mpr (Or.inr (Nat.le_refl _))
  exact held.taken (by omega) (by omega) free

theorem Normal.holds_extract (normal : image.Normal) (mem : s ∈ image.segments)
    (low : s.start ≤ address) (fits : address - s.start + length ≤ s.bytes.size) :
    (s.bytes.extract (address - s.start) (address - s.start + length)).toList.length = length ∧
      image.Holds address
        (s.bytes.extract (address - s.start) (address - s.start + length)).toList := by
  have size : (s.bytes.extract (address - s.start)
      (address - s.start + length)).toList.length = length := by
    simp only [Array.length_toList, Array.size_extract]
    omega
  refine ⟨size, fun i inside => ?_⟩
  rw [size] at inside
  have stop : s.stop = s.start + s.bytes.size := rfl
  have index : address + i - s.start = address - s.start + i := by omega
  rw [normal.byte?_mem mem (by omega) (by omega), Segment.byte?, if_pos (by omega), index,
    Array.getElem?_toList, Array.getElem?_extract, if_pos (by omega)]

/-! Reads -/

theorem Normal.of_read? (normal : image.Normal) (read : image.read? address length = some data) :
    data.length = length ∧ image.Holds address data := by
  unfold read? at read
  split at read
  · contradiction
  · rename_i s found
    obtain ⟨mem, low⟩ := mem_of_segmentFrom? found
    dsimp only at read
    split at read
    · rename_i fits
      exact Option.some.inj read ▸ normal.holds_extract mem low fits
    · contradiction

theorem Normal.read?_eq_some_iff (normal : image.Normal) (some_bytes : 0 < length) :
    image.read? address length = some data ↔
      data.length = length ∧ image.Holds address data := by
  constructor
  · exact normal.of_read?
  · rintro ⟨rfl, held⟩
    obtain ⟨s, mem, found, low, high⟩ :=
      normal.segment_of_holds held (List.length_pos_iff.mp some_bytes)
    have fits : address - s.start + data.length ≤ s.bytes.size := by
      simp only [Segment.stop] at high
      omega
    obtain ⟨size, extracted⟩ := normal.holds_extract mem low fits
    simp only [read?, found, fits, ↓reduceIte, extracted.ext held size]

theorem Normal.run?_eq_some_iff (normal : image.Normal) :
    image.run? address = some data ↔ data ≠ [] ∧ image.Run address data := by
  have whole : ∀ {s : Segment}, s ∈ image.segments → s.start ≤ address →
      address - s.start < s.bytes.size →
      (s.bytes.extract (address - s.start) s.bytes.size).toList ≠ [] ∧
      image.Run address (s.bytes.extract (address - s.start) s.bytes.size).toList := by
    intro s mem low inside
    have split : s.bytes.size =
        address - s.start + (s.bytes.size - (address - s.start)) := by omega
    obtain ⟨size, held⟩ := normal.holds_extract mem low (Nat.le_of_eq split.symm)
    rw [← split] at size held
    refine ⟨by rw [← List.length_pos_iff, size]; omega, held, ?_⟩
    have stop : s.stop = s.start + s.bytes.size := rfl
    rw [size, normal.byte?_mem mem (by omega) (by omega)]
    exact Segment.byte?_eq_none_iff.mpr (Or.inr (by omega))
  constructor
  · intro read
    unfold run? at read
    split at read
    · contradiction
    · rename_i s found
      obtain ⟨mem, low⟩ := mem_of_segmentFrom? found
      dsimp only at read
      split at read
      · rename_i inside
        exact Option.some.inj read ▸ whole mem low inside
      · contradiction
  · rintro ⟨filled, run⟩
    have size := List.length_pos_iff.mpr filled
    obtain ⟨s, mem, found, low, high⟩ := normal.segment_of_holds run.held filled
    have inside : address - s.start < s.bytes.size := by
      simp only [Segment.stop] at high
      omega
    simp only [run?, found, inside, ↓reduceIte, (whole mem low inside).2.ext run]

end FirmwareMeta.Image
