import FirmwareMeta.Proofs.Image.Reading

/-! The segments next to an address, and images with one segment less or one more. In a normal
image the neighbours of an address bound all others. -/
namespace FirmwareMeta.Image

variable {image : Image} {run s t : Segment} {segments : List Segment} {address : Nat}

theorem Normal.apart_of_mem (normal : image.Normal) (mem : s ∈ image.segments)
    (also : t ∈ image.segments) : s = t ∨ s.stop < t.start ∨ t.stop < s.start :=
  List.Pairwise.forall_of_forall_of_flip
    (R := fun s t : Segment => s = t ∨ s.stop < t.start ∨ t.stop < s.start)
    (fun _ _ => Or.inl rfl) (normal.apart.imp fun apart => Or.inr (Or.inl apart))
    (normal.apart.imp fun apart => Or.inr (Or.inr apart)) mem also

/-! Neighbours -/

theorem segmentFrom?_eq_none_iff :
    image.segmentFrom? address = none ↔ ∀ s ∈ image.segments, address < s.start := by
  simp [segmentFrom?]

theorem Normal.start_le_of_segmentFrom? (normal : image.Normal)
    (found : image.segmentFrom? address = some s) (mem : t ∈ image.segments)
    (low : t.start ≤ address) : t.start ≤ s.start := by
  obtain ⟨front, split⟩ := List.getLast?_eq_some_iff.mp found
  have sorted := normal.apart.filter (·.start ≤ address)
  have inside : t ∈ image.segments.filter (·.start ≤ address) :=
    List.mem_filter.mpr ⟨mem, decide_eq_true low⟩
  rw [split] at sorted inside
  rcases List.mem_append.mp inside with first | last
  · have apart := (List.pairwise_append.mp sorted).2.2 t first s List.mem_cons_self
    have := normal.start_lt_stop mem
    omega
  · exact Nat.le_of_eq (congrArg Segment.start (List.mem_singleton.mp last))

/-- Where the segment at or below an address ends in front of it, so do all that start there. -/
theorem Normal.stop_le_of_segmentFrom? (normal : image.Normal)
    (ends : ∀ s, image.segmentFrom? address = some s → s.stop ≤ address)
    (mem : t ∈ image.segments) (low : t.start ≤ address) : t.stop ≤ address := by
  cases found : image.segmentFrom? address with
  | none =>
    have := segmentFrom?_eq_none_iff.mp found t mem
    omega
  | some s =>
    have stops := ends s found
    have first := normal.start_le_of_segmentFrom? found mem low
    obtain ⟨there, _⟩ := mem_of_segmentFrom? found
    have := normal.start_lt_stop there
    rcases normal.apart_of_mem mem there with rfl | apart | apart <;> omega

theorem Normal.segmentFrom?_of_stop (normal : image.Normal) (mem : s ∈ image.segments)
    (touching : s.stop = address) : image.segmentFrom? address = some s := by
  have full := normal.start_lt_stop mem
  cases found : image.segmentFrom? address with
  | none =>
    have := segmentFrom?_eq_none_iff.mp found s mem
    omega
  | some t =>
    obtain ⟨there, low⟩ := mem_of_segmentFrom? found
    have := normal.start_le_of_segmentFrom? found mem (by omega)
    have := normal.start_lt_stop there
    rcases normal.apart_of_mem mem there with rfl | apart | apart
    · rfl
    · omega
    · omega

theorem segmentBehind?_eq_none_iff :
    image.segmentBehind? address = none ↔ ∀ s ∈ image.segments, s.start < address := by
  simp [segmentBehind?]

theorem mem_of_segmentBehind? (found : image.segmentBehind? address = some s) :
    s ∈ image.segments ∧ address ≤ s.start := by
  have high := List.find?_some found
  exact ⟨List.mem_of_find?_eq_some found, of_decide_eq_true high⟩

theorem Normal.start_le_of_segmentBehind? (normal : image.Normal)
    (found : image.segmentBehind? address = some s) (mem : t ∈ image.segments)
    (high : address ≤ t.start) : s.start ≤ t.start := by
  obtain ⟨_, front, back, split, passed⟩ := List.find?_eq_some_iff_append.mp found
  have sorted := normal.apart
  rw [split] at mem sorted
  have there : s ∈ image.segments := (mem_of_segmentBehind? found).1
  have := normal.start_lt_stop there
  rcases List.mem_append.mp mem with first | inside
  · have := passed t first
    simp only [Bool.not_eq_true', decide_eq_false_iff_not] at this
    omega
  · rcases List.mem_cons.mp inside with rfl | last
    · exact Nat.le_refl _
    · have apart := List.rel_of_pairwise_cons (List.pairwise_append.mp sorted).2.1 last
      omega

/-! One segment less -/

@[simp] theorem mem_erase {start : Nat} :
    s ∈ (image.erase start).segments ↔ s ∈ image.segments ∧ s.start ≠ start := by
  simp [erase]

theorem Normal.erase (normal : image.Normal) (start : Nat) : (image.erase start).Normal :=
  normal.sublist List.filter_sublist

theorem Normal.apart_of_mem_erase (normal : image.Normal) (mem : s ∈ image.segments)
    (inside : t ∈ (image.erase s.start).segments) : s.stop < t.start ∨ t.stop < s.start := by
  obtain ⟨there, other⟩ := mem_erase.mp inside
  rcases normal.apart_of_mem mem there with rfl | apart
  · contradiction
  · exact apart

/-- The bytes of an image are those of one segment and of the others. -/
theorem Normal.byte?_erase (normal : image.Normal) (mem : s ∈ image.segments) (a : Nat) :
    (s.byte? a).or ((image.erase s.start).byte? a) = image.byte? a := by
  obtain ⟨segments⟩ := image
  induction segments with
  | nil => contradiction
  | cons t rest ih =>
    have first := normal.start_lt_stop (s := t) List.mem_cons_self
    obtain ⟨_, _, below, _⟩ := normal_cons.mp normal
    rcases List.mem_cons.mp mem with rfl | mem
    · have others : Image.erase ⟨s :: rest⟩ s.start = ⟨rest⟩ := by
        have kept : rest.filter (·.start ≠ s.start) = rest := by
          refine List.filter_eq_self.mpr fun u inside => ?_
          have := below u inside
          simp only [ne_eq, decide_not, Bool.not_eq_true', decide_eq_false_iff_not]
          omega
        simp only [Image.erase, List.filter_cons, ne_eq, not_true_eq_false, decide_false,
          Bool.false_eq_true, ↓reduceIte, kept]
      rw [others, byte?_cons]
    · have apart := below s mem
      have others : Image.erase ⟨t :: rest⟩ s.start =
          ⟨t :: (Image.erase ⟨rest⟩ s.start).segments⟩ := by
        have other : t.start ≠ s.start := by omega
        simp [Image.erase, other]
      rw [others, byte?_cons, byte?_cons, ← ih normal.tail mem, ← Option.or_assoc,
        ← Segment.byte?_or_comm (Nat.le_of_lt apart), Option.or_assoc]

/-! One segment more -/

theorem normal_in_front (filled : run.start < run.stop) (bound : run.stop ≤ Word.limit)
    (normal : Normal ⟨s :: segments⟩) (apart : run.stop < s.start) :
    Normal ⟨run :: s :: segments⟩ := by
  refine normal_cons.mpr ⟨filled, bound, ?_, normal⟩
  obtain ⟨full, _, below, _⟩ := normal_cons.mp normal
  intro t mem
  rcases List.mem_cons.mp mem with rfl | mem
  · exact apart
  · have := below t mem
    omega

theorem mem_insertInto (mem : t ∈ insertInto run segments) : t = run ∨ t ∈ segments := by
  induction segments with
  | nil => exact Or.inl (List.mem_singleton.mp mem)
  | cons s rest ih =>
    simp only [insertInto] at mem
    split at mem
    · rcases List.mem_cons.mp mem with rfl | mem
      · exact Or.inr List.mem_cons_self
      · exact (ih mem).imp_right (List.mem_cons_of_mem _)
    · split at mem
      · exact (List.mem_cons.mp mem).imp_right (List.mem_cons_of_mem _)
      · exact List.mem_cons.mp mem

/-- A run that touches no segment is a segment of its own. -/
theorem Normal.insert (normal : image.Normal) (filled : run.start < run.stop)
    (bound : run.stop ≤ Word.limit)
    (gaps : ∀ s ∈ image.segments, s.stop < run.start ∨ run.stop < s.start) :
    (image.insert run).Normal ∧
      ∀ a, (image.insert run).byte? a = (run.byte? a).or (image.byte? a) := by
  obtain ⟨segments⟩ := image
  induction segments with
  | nil => exact ⟨normal_single filled bound, byte?_cons run []⟩
  | cons s rest ih =>
    obtain ⟨full, low, below, tail⟩ := normal_cons.mp normal
    obtain ⟨gap, others⟩ := List.forall_mem_cons.mp gaps
    rcases gap with before | behind
    · have inserted : Image.insert ⟨s :: rest⟩ run = ⟨s :: insertInto run rest⟩ := by
        have first : s.start < run.start := by omega
        simp only [Image.insert, insertInto, first, ↓reduceIte]
      obtain ⟨placed, bytes⟩ := ih tail others
      rw [inserted]
      refine ⟨normal_cons.mpr ⟨full, low, fun t mem => ?_, placed⟩, fun a => ?_⟩
      · rcases mem_insertInto mem with rfl | mem
        · exact before
        · exact below t mem
      · have rest_bytes := bytes a
        simp only [Image.insert] at rest_bytes
        rw [byte?_cons, byte?_cons, rest_bytes, ← Option.or_assoc,
          Segment.byte?_or_comm (Nat.le_of_lt before), Option.or_assoc]
    · have inserted : Image.insert ⟨s :: rest⟩ run = ⟨run :: s :: rest⟩ := by
        have first : ¬s.start < run.start := by omega
        have other : s.start ≠ run.start := by omega
        simp only [Image.insert, insertInto, first, other, ↓reduceIte]
      rw [inserted]
      exact ⟨normal_in_front filled bound normal behind, byte?_cons run _⟩

end FirmwareMeta.Image
