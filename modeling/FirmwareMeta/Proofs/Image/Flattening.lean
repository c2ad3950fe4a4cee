import FirmwareMeta.Proofs.Image.Extent
import FirmwareMeta.Proofs.Image.Reading
import FirmwareMeta.Proofs.Image.Writing

/-! Flattening by a buffer: the segments are copied into erased bytes that reach from the lowest to
the highest address. Each step that could take a number below zero or leave the buffer gives nothing
there, and a normal image has no such step. What comes out is the flattened image. -/
namespace FirmwareMeta

/-- A difference of unsigned numbers. -/
def Word.difference? (a b : Nat) : Option Nat :=
  if b ≤ a then some (a - b) else none

theorem Word.difference?_of_le {a b : Nat} (low : b ≤ a) : difference? a b = some (a - b) :=
  if_pos low

namespace Image

/-- Puts bytes over those of a buffer from an offset on, if there is room for all of them. -/
def overwrite? (buffer : List UInt8) (offset : Nat) (bytes : List UInt8) : Option (List UInt8) :=
  if offset + bytes.length ≤ buffer.length then
    some (buffer.take offset ++ (bytes ++ buffer.drop (offset + bytes.length)))
  else none

/-- Copies a segment into a buffer whose first byte stands for the address `start`. -/
def copy? (start : Nat) (buffer : List UInt8) (s : Segment) : Option (List UInt8) := do
  overwrite? buffer (← Word.difference? s.start start) s.bytes.toList

/-- The last address of a segment, which is a word. -/
def lastOf? (s : Segment) : Option Nat :=
  (Word.difference? s.stop 1).filter (· < Word.limit)

/-- The image in a buffer that is as long as its lowest and highest address say. -/
def buffered? (image : Image) : Option (List UInt8) :=
  match image.segments.head?, image.segments.getLast? with
  | some first, some last => do
    let distance ← Word.difference? (← lastOf? last) first.start
    image.segments.foldlM (copy? first.start) (List.replicate (distance + 1) erased)
  | _, _ => some []

variable {image : Image} {s : Segment} {rest segments : List Segment} {start room gap : Nat}
  {front bytes : List UInt8}

/-! What is flattened -/

theorem flatten_cons : flatten start (s :: rest) =
    List.replicate (s.start - start) erased ++ (s.bytes.toList ++ flatten s.stop rest) := rfl

/-- The end of the last segment. -/
def endOf (start : Nat) (segments : List Segment) : Nat :=
  (segments.getLast?.map (·.stop)).getD start

theorem endOf_cons (s : Segment) (rest : List Segment) :
    endOf start (s :: rest) = endOf s.stop rest := by
  unfold endOf
  rw [List.getLast?_cons]
  cases rest.getLast? <;> rfl

theorem length_flatten (normal : Normal ⟨segments⟩) (low : ∀ s ∈ segments, start ≤ s.start) :
    start + (flatten start segments).length = endOf start segments := by
  induction segments generalizing start with
  | nil => rfl
  | cons s rest ih =>
    obtain ⟨-, -, behind, tail⟩ := normal_cons.mp normal
    have first := low s List.mem_cons_self
    have stop : s.stop = s.start + s.bytes.size := rfl
    rw [endOf_cons, ← ih tail fun t mem => Nat.le_of_lt (behind t mem), flatten_cons]
    simp only [List.length_append, List.length_replicate, Array.length_toList]
    omega

/-- What was written stands at its place, and an erased byte anywhere else. -/
theorem getElem?_flatten (normal : Normal ⟨segments⟩) (low : ∀ s ∈ segments, start ≤ s.start)
    {i : Nat} (inside : i < (flatten start segments).length) :
    (flatten start segments)[i]? = some ((byte? ⟨segments⟩ (start + i)).getD erased) := by
  induction segments generalizing start i with
  | nil => exact absurd inside (Nat.not_lt_zero i)
  | cons s rest ih =>
    obtain ⟨-, -, behind, tail⟩ := normal_cons.mp normal
    have first := low s List.mem_cons_self
    have stop : s.stop = s.start + s.bytes.size := rfl
    rw [flatten_cons] at inside ⊢
    simp only [List.length_append, List.length_replicate, Array.length_toList] at inside
    by_cases gap : i < s.start - start
    · have free : byte? ⟨s :: rest⟩ (start + i) = none := by
        by_contra taken
        have := normal.head_le taken
        omega
      rw [List.getElem?_append_left (by simpa using gap), free, List.getElem?_replicate, if_pos gap]
      rfl
    · rw [List.getElem?_append_right (by simpa using Nat.le_of_not_lt gap), List.length_replicate]
      by_cases held : start + i < s.stop
      · have index : i - (s.start - start) < s.bytes.toList.length := by
          rw [Array.length_toList]
          omega
        have here : start + i - s.start = i - (s.start - start) := by omega
        rw [List.getElem?_append_left index, normal.byte?_head (Nat.le_of_lt held), Segment.byte?,
          if_pos (by omega), here, ← Array.getElem?_toList, List.getElem?_eq_getElem index]
        rfl
      · have outside : s.byte? (start + i) = none :=
          Segment.byte?_eq_none_iff.mpr (.inr (Nat.le_of_not_lt held))
        have there : s.stop + (i - (s.start - start) - s.bytes.toList.length) = start + i := by
          rw [Array.length_toList]
          omega
        rw [List.getElem?_append_right (by rw [Array.length_toList]; omega), byte?_cons, outside,
          Option.none_or, ← there]
        refine ih tail (fun t mem => Nat.le_of_lt (behind t mem)) ?_
        rw [Array.length_toList]
        omega

/-! What is copied -/

/-- Bytes are put in place behind those in front of them; what is behind is erased still. -/
theorem overwrite?_erased (fits : gap + bytes.length ≤ room) :
    overwrite? (front ++ List.replicate room erased) (front.length + gap) bytes =
      some (front ++ (List.replicate gap erased ++ bytes) ++
        List.replicate (room - (gap + bytes.length)) erased) := by
  have inside :
      front.length + gap + bytes.length ≤ (front ++ List.replicate room erased).length := by
    simp only [List.length_append, List.length_replicate]
    omega
  rw [overwrite?, if_pos inside, Nat.add_assoc, List.take_length_add_append,
    List.drop_length_add_append, List.take_replicate, List.drop_replicate,
    Nat.min_eq_left (by omega)]
  simp only [List.append_assoc]

theorem copy?_erased (low : start + front.length ≤ s.start)
    (high : s.stop ≤ start + front.length + room) :
    copy? start (front ++ List.replicate room erased) s =
      some (front ++ (List.replicate (s.start - (start + front.length)) erased ++ s.bytes.toList) ++
        List.replicate (start + front.length + room - s.stop) erased) := by
  have size : s.bytes.toList.length = s.bytes.size := Array.length_toList
  have stop : s.stop = s.start + s.bytes.size := rfl
  have offset : s.start - start = front.length + (s.start - (start + front.length)) := by omega
  have behind : room - (s.start - (start + front.length) + s.bytes.toList.length) =
      start + front.length + room - s.stop := by omega
  rw [copy?, Word.difference?_of_le (by omega), offset]
  exact (overwrite?_erased (by omega)).trans (by rw [behind])

/-- Copying on behind what is in place. The buffer reaches up to the end of the last segment, and
each segment starts behind all that was copied before it. -/
theorem foldlM_copy? (normal : Normal ⟨segments⟩)
    (low : ∀ s ∈ segments, start + front.length ≤ s.start)
    (ends : endOf (start + front.length) segments = start + front.length + room) :
    segments.foldlM (copy? start) (front ++ List.replicate room erased) =
      some (front ++ flatten (start + front.length) segments) := by
  induction segments generalizing front room with
  | nil =>
    obtain rfl : room = 0 := by simpa [endOf] using ends
    rfl
  | cons s rest ih =>
    obtain ⟨-, -, behind, tail⟩ := normal_cons.mp normal
    have first := low s List.mem_cons_self
    have later : ∀ t ∈ rest, s.stop ≤ t.start := fun t mem => Nat.le_of_lt (behind t mem)
    have reach := length_flatten tail later
    have placed : start + (front ++ (List.replicate (s.start - (start + front.length)) erased ++
        s.bytes.toList)).length = s.stop := by
      have size : s.bytes.toList.length = s.bytes.size := Array.length_toList
      have stop : s.stop = s.start + s.bytes.size := rfl
      simp only [List.length_append, List.length_replicate]
      omega
    rw [endOf_cons] at ends
    rw [List.foldlM_cons, copy?_erased first (by omega), Option.bind_eq_bind, Option.bind_some,
      ih tail (placed ▸ later) (by rw [placed]; omega), placed, flatten_cons]
    simp only [List.append_assoc]

/-! Images -/

variable {min max : Nat}

theorem contiguous_eq (lowest : image.minAddress? = some min) :
    image.contiguous = flatten min image.segments := by
  rw [contiguous, lowest]

theorem span_eq (lowest : image.minAddress? = some min) (highest : image.maxAddress? = some max) :
    image.span = max - min + 1 := by
  simp only [span, lowest, highest]

theorem exists_extent (filled : image ≠ empty) : ∃ min max,
    image.minAddress? = some min ∧ image.maxAddress? = some max := by
  obtain ⟨min, lowest⟩ := Option.ne_none_iff_exists'.mp (mt minAddress?_eq_none_iff.mp filled)
  obtain ⟨max, highest⟩ := Option.ne_none_iff_exists'.mp (mt maxAddress?_eq_none_iff.mp filled)
  exact ⟨min, max, lowest, highest⟩

theorem Normal.endOf_eq (normal : image.Normal) (highest : image.maxAddress? = some max) :
    endOf start image.segments = max + 1 := by
  obtain ⟨s, last, rfl⟩ := Option.map_eq_some_iff.mp highest
  have := normal.start_lt_stop (List.mem_of_getLast? last)
  rw [endOf, last, Option.map_some, Option.getD_some]
  omega

theorem Lowest.le_start (lowest : image.Lowest min) (normal : image.Normal) :
    ∀ s ∈ image.segments, min ≤ s.start := by
  intro s mem
  by_contra below
  have taken : image.byte? s.start ≠ none :=
    byte?_ne_none_iff.mpr ⟨s, mem, Nat.le_refl _, normal.start_lt_stop mem⟩
  exact taken (lowest.free _ (Nat.lt_of_not_le below))

theorem Normal.length_contiguous (normal : image.Normal) (lowest : image.minAddress? = some min)
    (highest : image.maxAddress? = some max) : min + image.contiguous.length = max + 1 := by
  rw [contiguous_eq lowest, ← normal.endOf_eq highest]
  exact length_flatten normal ((normal.minAddress?_eq_some_iff.mp lowest).le_start normal)

theorem Normal.getElem?_contiguous (normal : image.Normal) (lowest : image.minAddress? = some min)
    {i : Nat} (inside : i < image.contiguous.length) :
    image.contiguous[i]? = some ((image.byte? (min + i)).getD erased) := by
  rw [contiguous_eq lowest] at inside ⊢
  exact getElem?_flatten normal ((normal.minAddress?_eq_some_iff.mp lowest).le_start normal) inside

/-- No step of the way through a buffer fails, and it leads to the flattened image. -/
theorem Normal.buffered?_eq (normal : image.Normal) : image.buffered? = some image.contiguous := by
  obtain ⟨segments⟩ := image
  cases segments with
  | nil => rfl
  | cons s rest =>
    obtain ⟨last, found⟩ : ∃ last, (s :: rest).getLast? = some last :=
      ⟨_, List.getLast?_eq_some_getLast (List.cons_ne_nil s rest)⟩
    have mem := List.mem_of_getLast? found
    have filled := normal.start_lt_stop mem
    have starts := normal.lowest.le_start normal
    have above : s.start ≤ last.start := starts last mem
    have bounded := normal.bounded last mem
    have word : lastOf? last = some (last.stop - 1) := by
      rw [lastOf?, Word.difference?_of_le (by omega)]
      exact Option.filter_eq_some_iff.mpr ⟨rfl, decide_eq_true (by omega)⟩
    have distance := Word.difference?_of_le (show s.start ≤ last.stop - 1 by omega)
    have ends : endOf s.start (s :: rest) = s.start + (last.stop - 1 - s.start + 1) := by
      rw [endOf, found, Option.map_some, Option.getD_some]
      omega
    have copied := @foldlM_copy? (s :: rest) s.start _ [] normal starts ends
    simp only [buffered?, List.head?_cons, found, word, distance, Option.bind_eq_bind,
      Option.bind_some]
    exact copied

theorem Normal.contiguous_ne_nil (normal : image.Normal) (lowest : image.minAddress? = some min)
    (highest : image.maxAddress? = some max) : image.contiguous ≠ [] := by
  have size := normal.length_contiguous lowest highest
  have order := (normal.minAddress?_eq_some_iff.mp lowest).le_highest
    (normal.maxAddress?_eq_some_iff.mp highest)
  exact List.length_pos_iff.mp (by omega)

theorem Normal.exists_ofBytes (normal : image.Normal) (lowest : image.minAddress? = some min)
    (highest : image.maxAddress? = some max) :
    ∃ written, ofBytes min image.contiguous = .ok written := by
  have size := normal.length_contiguous lowest highest
  have top := normal.lt_limit (normal.maxAddress?_eq_some_iff.mp highest).taken
  exact ⟨_, ofBytes_ok (normal.contiguous_ne_nil lowest highest) (by omega)⟩

/-- Images between the same addresses are flattened alike if they differ in nothing but erased bytes
that are written or not. -/
theorem Normal.contiguous_congr {other : Image} (normal : image.Normal) (also : other.Normal)
    (lowest : image.minAddress? = some min) (highest : image.maxAddress? = some max)
    (lowest' : other.minAddress? = some min) (highest' : other.maxAddress? = some max)
    (same : ∀ a, min ≤ a → a ≤ max → (image.byte? a).getD erased = (other.byte? a).getD erased) :
    image.contiguous = other.contiguous := by
  have size := normal.length_contiguous lowest highest
  have size' := also.length_contiguous lowest' highest'
  refine List.ext_getElem? fun i => ?_
  by_cases inside : i < image.contiguous.length
  · rw [normal.getElem?_contiguous lowest inside, also.getElem?_contiguous lowest' (by omega),
      same _ (Nat.le_add_right _ _) (by omega)]
  · rw [List.getElem?_eq_none (by omega), List.getElem?_eq_none (by omega)]

end Image
end FirmwareMeta
