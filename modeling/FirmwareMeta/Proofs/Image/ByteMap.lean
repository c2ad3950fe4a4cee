import FirmwareMeta.Image.Sparse
import Mathlib.Tactic.ByContra

/-! Images as maps from addresses to bytes. Every operation on images is described by what
`byte?` reads, and a normal image is the only one with its map. -/
namespace FirmwareMeta

namespace Segment

theorem byte?_eq_none_iff {s : Segment} {a : Nat} :
    s.byte? a = none ↔ a < s.start ∨ s.stop ≤ a := by
  unfold byte? stop
  split
  · rw [Array.getElem?_eq_none_iff]
    omega
  · simp
    omega

theorem byte?_ne_none_iff {s : Segment} {a : Nat} :
    s.byte? a ≠ none ↔ s.start ≤ a ∧ a < s.stop := by
  rw [ne_eq, byte?_eq_none_iff]
  omega

@[simp] theorem start_append (s : Segment) (bytes : Array UInt8) :
    (s.append bytes).start = s.start := rfl

@[simp] theorem stop_append (s : Segment) (bytes : Array UInt8) :
    (s.append bytes).stop = s.stop + bytes.size := by
  simp only [stop, append, Array.size_append, Nat.add_assoc]

theorem start_lt_stop_append {s : Segment} (full : s.start < s.stop) (bytes : Array UInt8) :
    (s.append bytes).start < (s.append bytes).stop := by
  rw [start_append, stop_append]
  omega

theorem stop_append_bytes {s t : Segment} (touching : s.stop = t.start) :
    (s.append t.bytes).stop = t.stop := by
  rw [stop_append, touching, stop]

theorem byte?_append (s : Segment) (bytes : Array UInt8) (a : Nat) :
    (s.append bytes).byte? a = (s.byte? a).or ((⟨s.stop, bytes⟩ : Segment).byte? a) := by
  by_cases inside : s.start ≤ a ∧ a < s.stop
  · obtain ⟨b, found⟩ := Option.ne_none_iff_exists'.mp (byte?_ne_none_iff.mpr inside)
    rw [found, Option.some_or, ← found]
    have index : a - s.start < s.bytes.size := by
      simp only [stop] at inside
      omega
    simp only [byte?, append, inside.1, ↓reduceIte, Array.getElem?_append_left index]
  · have outside : s.byte? a = none := byte?_eq_none_iff.mpr (by omega)
    rw [outside, Option.none_or]
    by_cases below : a < s.start
    · have low : a < s.stop := by simp only [stop]; omega
      rw [byte?_eq_none_iff.mpr (Or.inl (by simpa using below)),
        byte?_eq_none_iff.mpr (Or.inl low)]
    · have above := Nat.le_of_not_lt below
      have behind : s.start + s.bytes.size ≤ a := by
        simp only [stop] at inside
        omega
      have index : s.bytes.size ≤ a - s.start := by omega
      simp only [byte?, append, stop, above, behind, ↓reduceIte,
        Array.getElem?_append_right index, Nat.sub_sub]

/-- Of two segments that share no address it does not matter which is read first. -/
theorem byte?_or_comm {s t : Segment} (apart : s.stop ≤ t.start) (a : Nat) :
    (s.byte? a).or (t.byte? a) = (t.byte? a).or (s.byte? a) := by
  by_cases low : a < t.start
  · have outside : t.byte? a = none := byte?_eq_none_iff.mpr (Or.inl low)
    rw [outside, Option.none_or, Option.or_none]
  · have outside : s.byte? a = none := byte?_eq_none_iff.mpr (Or.inr (by omega))
    rw [outside, Option.none_or, Option.or_none]

theorem ext_byte? {s t : Segment} (starts : s.start = t.start)
    (same : ∀ a, s.byte? a = t.byte? a) : s = t := by
  obtain ⟨start, bytes⟩ := s
  obtain ⟨_, others⟩ := t
  obtain rfl : start = _ := starts
  congr
  apply Array.ext_getElem?
  intro i
  simpa [byte?] using same (start + i)

end Segment

namespace Image

theorem byte?_cons (s : Segment) (rest : List Segment) (a : Nat) :
    byte? ⟨s :: rest⟩ a = (s.byte? a).or (byte? ⟨rest⟩ a) := by
  simp only [byte?, List.findSome?_cons]
  cases s.byte? a <;> rfl

theorem byte?_single (s : Segment) (a : Nat) : byte? ⟨[s]⟩ a = s.byte? a := by
  rw [byte?_cons]
  exact Option.or_none

theorem byte?_eq_none_iff {image : Image} {a : Nat} :
    image.byte? a = none ↔ ∀ s ∈ image.segments, a < s.start ∨ s.stop ≤ a := by
  simp only [byte?, List.findSome?_eq_none_iff, Segment.byte?_eq_none_iff]

theorem byte?_ne_none_iff {image : Image} {a : Nat} :
    image.byte? a ≠ none ↔ ∃ s ∈ image.segments, s.start ≤ a ∧ a < s.stop := by
  rw [ne_eq, byte?_eq_none_iff]
  constructor
  · intro taken
    by_contra outside
    refine taken fun s mem => ?_
    by_contra inside
    exact outside ⟨s, mem, by omega, by omega⟩
  · rintro ⟨s, mem, lower, upper⟩ free
    have := free s mem
    omega

theorem normal_cons {s : Segment} {rest : List Segment} :
    Normal ⟨s :: rest⟩ ↔ s.start < s.stop ∧ s.stop ≤ Word.limit ∧
      (∀ t ∈ rest, s.stop < t.start) ∧ Normal ⟨rest⟩ := by
  have filled : s.bytes ≠ #[] ↔ s.start < s.stop := by
    simp [Segment.stop, Array.size_pos_iff]
  constructor
  · rintro ⟨full, bound, apart⟩
    rw [List.pairwise_cons] at apart
    exact ⟨filled.mp (full s List.mem_cons_self), bound s List.mem_cons_self, apart.1,
      fun t mem => full t (List.mem_cons_of_mem _ mem),
      fun t mem => bound t (List.mem_cons_of_mem _ mem), apart.2⟩
  · rintro ⟨full, bound, below, normal⟩
    refine ⟨?_, ?_, List.pairwise_cons.mpr ⟨below, normal.apart⟩⟩
    · exact List.forall_mem_cons.mpr ⟨filled.mpr full, normal.filled⟩
    · exact List.forall_mem_cons.mpr ⟨bound, normal.bounded⟩

variable {image : Image} {s : Segment} {rest : List Segment}

theorem normal_single (full : s.start < s.stop) (bound : s.stop ≤ Word.limit) : Normal ⟨[s]⟩ :=
  normal_cons.mpr ⟨full, bound, by simp, normal_empty⟩

theorem Normal.start_lt_stop (h : image.Normal) (mem : s ∈ image.segments) :
    s.start < s.stop := by
  simpa [Segment.stop, Array.size_pos_iff] using h.filled s mem

theorem Normal.tail (h : Normal ⟨s :: rest⟩) : Normal ⟨rest⟩ :=
  (normal_cons.mp h).2.2.2

theorem Normal.sublist {segments : List Segment} (h : image.Normal)
    (sub : segments.Sublist image.segments) : Normal ⟨segments⟩ where
  filled s mem := h.filled s (sub.subset mem)
  bounded s mem := h.bounded s (sub.subset mem)
  apart := h.apart.sublist sub

theorem Normal.tail_free (h : Normal ⟨s :: rest⟩) {a : Nat} (low : a ≤ s.stop) :
    byte? ⟨rest⟩ a = none := by
  apply byte?_eq_none_iff.mpr
  intro t mem
  have := (normal_cons.mp h).2.2.1 t mem
  omega

theorem Normal.head_le (h : Normal ⟨s :: rest⟩) {a : Nat} (taken : byte? ⟨s :: rest⟩ a ≠ none) :
    s.start ≤ a := by
  obtain ⟨full, _, below, _⟩ := normal_cons.mp h
  obtain ⟨t, mem, low, _⟩ := byte?_ne_none_iff.mp taken
  rcases List.mem_cons.mp mem with rfl | mem
  · exact low
  · have := below t mem
    omega

theorem Normal.head_taken (h : Normal ⟨s :: rest⟩) : byte? ⟨s :: rest⟩ s.start ≠ none :=
  byte?_ne_none_iff.mpr ⟨s, List.mem_cons_self, Nat.le_refl _,
    h.start_lt_stop List.mem_cons_self⟩

theorem Normal.byte?_head (h : Normal ⟨s :: rest⟩) {a : Nat} (low : a ≤ s.stop) :
    byte? ⟨s :: rest⟩ a = s.byte? a := by
  rw [byte?_cons, h.tail_free low, Option.or_none]

theorem Normal.stop_le {t : Segment} {others : List Segment} (ht : Normal ⟨t :: others⟩)
    (starts : s.start = t.start)
    (same : ∀ a, byte? ⟨s :: rest⟩ a = byte? ⟨t :: others⟩ a) : s.stop ≤ t.stop := by
  by_contra longer
  have free : byte? ⟨t :: others⟩ t.stop = none := by
    rw [ht.byte?_head (Nat.le_refl _)]
    exact Segment.byte?_eq_none_iff.mpr (Or.inr (Nat.le_refl _))
  have taken : byte? ⟨s :: rest⟩ t.stop ≠ none := by
    have := ht.start_lt_stop List.mem_cons_self
    exact byte?_ne_none_iff.mpr ⟨s, List.mem_cons_self, by omega, by omega⟩
  exact taken ((same _).trans free)

/-- The first segment is the first block of written addresses, so the map determines it. -/
theorem Normal.head_unique {t : Segment} {others : List Segment} (hs : Normal ⟨s :: rest⟩)
    (ht : Normal ⟨t :: others⟩)
    (same : ∀ a, byte? ⟨s :: rest⟩ a = byte? ⟨t :: others⟩ a) : s = t := by
  have starts : s.start = t.start := by
    have := hs.head_le (by rw [same]; exact ht.head_taken)
    have := ht.head_le (by rw [← same]; exact hs.head_taken)
    omega
  have stops : s.stop = t.stop := by
    have := ht.stop_le starts same
    have := hs.stop_le starts.symm fun a => (same a).symm
    omega
  refine Segment.ext_byte? starts fun a => ?_
  by_cases low : a ≤ s.stop
  · rw [← hs.byte?_head low, same, ht.byte?_head (by omega)]
  · rw [Segment.byte?_eq_none_iff.mpr (Or.inr (by omega)),
      Segment.byte?_eq_none_iff.mpr (Or.inr (by omega))]

/-- A normal image is determined by its map. The induction takes one block of written
addresses off at a time. -/
theorem Normal.eq_of_byte? {a b : Image} (ha : a.Normal) (hb : b.Normal)
    (same : ∀ address, a.byte? address = b.byte? address) : a = b := by
  obtain ⟨segments⟩ := a
  obtain ⟨others⟩ := b
  induction segments generalizing others with
  | nil =>
    cases others with
    | nil => rfl
    | cons t others => exact absurd (same t.start).symm hb.head_taken
  | cons s rest ih =>
    cases others with
    | nil => exact absurd (same s.start) ha.head_taken
    | cons t others =>
      obtain rfl := ha.head_unique hb same
      have tails : ∀ address, byte? ⟨rest⟩ address = byte? ⟨others⟩ address := by
        intro address
        by_cases low : address ≤ s.stop
        · rw [ha.tail_free low, hb.tail_free low]
        · have outside := Segment.byte?_eq_none_iff.mpr
            (Or.inr (by omega : s.stop ≤ address))
          simpa only [byte?_cons, outside, Option.none_or] using same address
      have := ih ha.tail others hb.tail tails
      simp_all only [Image.mk.injEq]

end Image
end FirmwareMeta
