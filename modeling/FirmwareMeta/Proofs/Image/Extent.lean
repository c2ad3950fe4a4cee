import FirmwareMeta.Proofs.Image.ByteMap

/-! The addresses between which an image has bytes. -/
namespace FirmwareMeta.Image

/-- The highest address that holds a byte. -/
structure Highest (image : Image) (a : Nat) : Prop where
  taken : image.byte? a ≠ none
  free : ∀ b, a < b → image.byte? b = none

/-- The lowest address that holds a byte. -/
structure Lowest (image : Image) (a : Nat) : Prop where
  taken : image.byte? a ≠ none
  free : ∀ b, b < a → image.byte? b = none

variable {image : Image} {a b : Nat}

theorem Lowest.unique (ha : image.Lowest a) (hb : image.Lowest b) : a = b := by
  rcases Nat.lt_trichotomy a b with below | same | above
  · exact absurd (hb.free a below) ha.taken
  · exact same
  · exact absurd (ha.free b above) hb.taken

theorem Normal.lowest {s : Segment} {rest : List Segment} (normal : Normal ⟨s :: rest⟩) :
    Lowest ⟨s :: rest⟩ s.start := by
  refine ⟨normal.head_taken, fun b below => ?_⟩
  by_contra taken
  have := normal.head_le taken
  omega

theorem Normal.minAddress?_eq_some_iff (normal : image.Normal) :
    image.minAddress? = some a ↔ image.Lowest a := by
  obtain ⟨segments⟩ := image
  cases segments with
  | nil => exact iff_of_false (by simp [minAddress?]) fun h => h.taken rfl
  | cons s rest =>
    simp only [minAddress?, List.head?_cons, Option.map_some, Option.some.injEq]
    exact ⟨fun same => same ▸ normal.lowest, fun h => normal.lowest.unique h⟩

theorem minAddress?_eq_none_iff : image.minAddress? = none ↔ image = empty := by
  obtain ⟨segments⟩ := image
  simp [minAddress?, empty]

theorem Lowest.le_highest (lowest : image.Lowest a) (highest : image.Highest b) : a ≤ b := by
  by_contra above
  exact highest.taken (lowest.free b (Nat.lt_of_not_le above))

theorem Highest.unique (ha : image.Highest a) (hb : image.Highest b) : a = b := by
  rcases Nat.lt_trichotomy a b with below | same | above
  · exact absurd (ha.free b below) hb.taken
  · exact same
  · exact absurd (hb.free a above) ha.taken

theorem Normal.highest {segments : List Segment} {s : Segment}
    (normal : Normal ⟨segments ++ [s]⟩) : Highest ⟨segments ++ [s]⟩ (s.stop - 1) := by
  have mem : s ∈ segments ++ [s] := List.mem_append_right _ List.mem_cons_self
  have filled := normal.start_lt_stop mem
  have below : ∀ t ∈ segments, t.stop < s.start := fun t inside =>
    (List.pairwise_append.mp normal.apart).2.2 t inside s List.mem_cons_self
  refine ⟨byte?_ne_none_iff.mpr ⟨s, mem, by omega, by omega⟩, fun b above => ?_⟩
  apply byte?_eq_none_iff.mpr
  intro t inside
  rcases List.mem_append.mp inside with inside | inside
  · have := below t inside
    omega
  · rw [List.mem_singleton.mp inside]
    omega

theorem Normal.maxAddress?_eq_some_iff (normal : image.Normal) :
    image.maxAddress? = some a ↔ image.Highest a := by
  obtain ⟨segments⟩ := image
  rcases List.eq_nil_or_concat segments with rfl | ⟨front, s, rfl⟩
  · exact iff_of_false (by simp [maxAddress?]) fun h => h.taken rfl
  · rw [List.concat_eq_append] at normal ⊢
    have last := normal.highest
    simp only [maxAddress?, List.getLast?_concat, Option.map_some, Option.some.injEq]
    exact ⟨fun same => same ▸ last, fun h => last.unique h⟩

theorem maxAddress?_eq_none_iff : image.maxAddress? = none ↔ image = empty := by
  obtain ⟨segments⟩ := image
  simp [maxAddress?, empty]

end FirmwareMeta.Image
