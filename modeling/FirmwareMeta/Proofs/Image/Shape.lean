import FirmwareMeta.Proofs.Image.Reading

/-! Images that are written at the same addresses. Their segments lie alike, so that what can be
read from one can be read from the other. -/
namespace FirmwareMeta

namespace Segment

/-- The segment with all its bytes zero. -/
def blank (s : Segment) : Segment := ⟨s.start, s.bytes.map fun _ => 0⟩

@[simp] theorem start_blank (s : Segment) : s.blank.start = s.start := rfl

@[simp] theorem size_blank (s : Segment) : s.blank.bytes.size = s.bytes.size :=
  Array.size_map

@[simp] theorem stop_blank (s : Segment) : s.blank.stop = s.stop := by
  simp [stop]

theorem byte?_blank (s : Segment) (a : Nat) : s.blank.byte? a = (s.byte? a).map fun _ => 0 := by
  unfold byte?
  rw [start_blank]
  split
  · exact Array.getElem?_map
  · rfl

end Segment

namespace Image

variable {image other : Image} {address length : Nat}

def blank (image : Image) : Image := ⟨image.segments.map Segment.blank⟩

theorem byte?_blank (image : Image) (a : Nat) :
    image.blank.byte? a = (image.byte? a).map fun _ => 0 := by
  obtain ⟨segments⟩ := image
  induction segments with
  | nil => rfl
  | cons s rest ih =>
    have tail : byte? ⟨rest.map Segment.blank⟩ a = (byte? ⟨rest⟩ a).map fun _ => 0 := ih
    rw [blank, List.map_cons, byte?_cons, byte?_cons, Segment.byte?_blank, tail]
    cases s.byte? a <;> rfl

theorem Normal.blank (normal : image.Normal) : image.blank.Normal where
  filled := by
    intro s mem
    obtain ⟨t, inside, rfl⟩ := List.mem_map.mp mem
    simpa [Segment.blank] using normal.filled t inside
  bounded := by
    intro s mem
    obtain ⟨t, inside, rfl⟩ := List.mem_map.mp mem
    rw [Segment.stop_blank]
    exact normal.bounded t inside
  apart := by
    rw [Image.blank, List.pairwise_map]
    simpa using normal.apart

/-- The same addresses are written. -/
def SameShape (image other : Image) : Prop :=
  ∀ a, image.byte? a = none ↔ other.byte? a = none

theorem SameShape.blank_eq (same : image.SameShape other) (normal : image.Normal)
    (also : other.Normal) : image.blank = other.blank := by
  apply normal.blank.eq_of_byte? also.blank
  intro a
  rw [byte?_blank, byte?_blank]
  cases found : image.byte? a with
  | none => rw [(same a).mp found]
  | some b =>
    cases there : other.byte? a with
    | none =>
      rw [(same a).mpr there] at found
      contradiction
    | some c => rfl

theorem segmentFrom?_blank (image : Image) (address : Nat) :
    image.blank.segmentFrom? address = (image.segmentFrom? address).map Segment.blank := by
  rw [segmentFrom?, blank, List.filter_map, List.getLast?_map, segmentFrom?]
  rfl

theorem read?_blank (image : Image) (address length : Nat) :
    (image.blank.read? address length).isSome = (image.read? address length).isSome := by
  unfold read?
  rw [segmentFrom?_blank]
  cases image.segmentFrom? address with
  | none => rfl
  | some s =>
    simp only [Option.map_some, Segment.start_blank, Segment.size_blank]
    split <;> rfl

theorem run?_blank (image : Image) (address : Nat) :
    (image.blank.run? address).map List.length = (image.run? address).map List.length := by
  unfold run?
  rw [segmentFrom?_blank]
  cases image.segmentFrom? address with
  | none => rfl
  | some s =>
    simp only [Option.map_some, Segment.start_blank, Segment.size_blank]
    split <;> simp

theorem SameShape.read?_some (same : image.SameShape other) (normal : image.Normal)
    (also : other.Normal) {data : List UInt8} (read : image.read? address length = some data) :
    ∃ payload, other.read? address length = some payload := by
  apply Option.isSome_iff_exists.mp
  rw [← read?_blank, ← same.blank_eq normal also, read?_blank, read, Option.isSome_some]

theorem SameShape.run?_some (same : image.SameShape other) (normal : image.Normal)
    (also : other.Normal) {data : List UInt8} (read : image.run? address = some data) :
    ∃ run, other.run? address = some run ∧ run.length = data.length := by
  apply Option.map_eq_some_iff.mp
  rw [← run?_blank, ← same.blank_eq normal also, run?_blank, read, Option.map_some]

end Image
end FirmwareMeta
