import FirmwareMeta.Proofs.Image.Neighbours

/-! Writing joins a run of bytes to the map of an image, or finds the lowest address of the run
that holds a byte already. Each step of a write is described with the image that it leaves, which
says what failed writes leave too, and what an image is after any sequence of writes. -/
namespace FirmwareMeta.Image

/-- No address of a range holds a byte. -/
def Free (image : Image) (address length : Nat) : Prop :=
  ∀ a, address ≤ a → a < address + length → image.byte? a = none

/-- The lowest address of a range that holds a byte. -/
structure FirstTaken (image : Image) (address length a : Nat) : Prop where
  above : address ≤ a
  below : a < address + length
  taken : image.byte? a ≠ none
  free : image.Free address (a - address)

/-- A run that lies between the segments of an image. -/
structure Beside (run : Segment) (image : Image) : Prop where
  normal : image.Normal
  filled : run.start < run.stop
  bound : run.stop ≤ Word.limit
  apart : ∀ s ∈ image.segments, s.stop ≤ run.start ∨ run.stop ≤ s.start

/-- A run that takes over what is directly in front of it or behind it: the run and the rest of the
image have the bytes that they had before. -/
structure Joined (run : Segment) (image : Image) (joined : Segment) (left : Image) : Prop where
  beside : Beside joined left
  rest : ∀ s ∈ left.segments, s ∈ image.segments
  bytes : ∀ a, (joined.byte? a).or (left.byte? a) = (run.byte? a).or (image.byte? a)

variable {image left : Image} {run s : Segment} {behind : Option Segment}

theorem firstTaken_start (filled : run.start < run.stop)
    (found : image.segmentFrom? run.start = some s) (long : run.start < s.stop) :
    image.FirstTaken run.start run.bytes.size run.start := by
  have size : run.stop = run.start + run.bytes.size := rfl
  obtain ⟨mem, low⟩ := mem_of_segmentFrom? found
  refine ⟨Nat.le_refl _, by omega, ?_, fun a low high => by omega⟩
  exact byte?_ne_none_iff.mpr ⟨s, mem, low, long⟩

theorem Normal.firstTaken_next (normal : image.Normal)
    (ends : ∀ t, image.segmentFrom? run.start = some t → t.stop ≤ run.start)
    (next : image.segmentBehind? run.start = some s) (short : s.start < run.stop) :
    image.FirstTaken run.start run.bytes.size s.start := by
  have size : run.stop = run.start + run.bytes.size := rfl
  obtain ⟨mem, high⟩ := mem_of_segmentBehind? next
  refine ⟨high, by omega, ?_, fun a low high => byte?_eq_none_iff.mpr fun t there => ?_⟩
  · exact byte?_ne_none_iff.mpr ⟨s, mem, Nat.le_refl _, normal.start_lt_stop mem⟩
  · by_cases front : t.start ≤ run.start
    · have := normal.stop_le_of_segmentFrom? ends there front
      omega
    · have := normal.start_le_of_segmentBehind? next there (by omega)
      omega

/-- It is enough to look at the neighbours of a run. -/
theorem Normal.beside (normal : image.Normal) (filled : run.start < run.stop)
    (bound : run.stop ≤ Word.limit)
    (ends : ∀ s, image.segmentFrom? run.start = some s → s.stop ≤ run.start)
    (starts : ∀ s, image.segmentBehind? run.start = some s → run.stop ≤ s.start) :
    Beside run image := by
  refine ⟨normal, filled, bound, fun t mem => ?_⟩
  by_cases front : t.start ≤ run.start
  · exact Or.inl (normal.stop_le_of_segmentFrom? ends mem front)
  · refine Or.inr ?_
    cases next : image.segmentBehind? run.start with
    | none =>
      have := segmentBehind?_eq_none_iff.mp next t mem
      omega
    | some s =>
      have := starts s next
      have := normal.start_le_of_segmentBehind? next mem (by omega)
      omega

theorem Beside.free (beside : Beside run image) : image.Free run.start run.bytes.size := by
  intro a low high
  refine byte?_eq_none_iff.mpr fun s mem => ?_
  have stop : run.stop = run.start + run.bytes.size := rfl
  have := beside.apart s mem
  omega

/-- The segment that starts where the run ends is the next one. -/
theorem Beside.segmentBehind?_of_start (beside : Beside run image) (mem : s ∈ image.segments)
    (touching : s.start = run.stop) : image.segmentBehind? run.start = some s := by
  have filled := beside.filled
  have full := beside.normal.start_lt_stop mem
  cases found : image.segmentBehind? run.start with
  | none =>
    have := segmentBehind?_eq_none_iff.mp found s mem
    omega
  | some t =>
    obtain ⟨there, high⟩ := mem_of_segmentBehind? found
    have := beside.normal.start_le_of_segmentBehind? found mem (by omega)
    have := beside.normal.start_lt_stop there
    have := beside.apart t there
    rcases beside.normal.apart_of_mem mem there with rfl | apart | apart
    · rfl
    · omega
    · omega

theorem Beside.refl (beside : Beside run image) : Joined run image run image where
  beside := beside
  rest _ mem := mem
  bytes _ := rfl

theorem Beside.append_before (beside : Beside run image) (mem : s ∈ image.segments)
    (touching : s.stop = run.start) :
    Joined run image (s.append run.bytes) (image.erase s.start) where
  beside := by
    have full := beside.normal.start_lt_stop mem
    have filled := beside.filled
    have stops := Segment.stop_append_bytes touching
    refine ⟨beside.normal.erase _, ?_, stops ▸ beside.bound, fun t inside => ?_⟩
    · rw [Segment.start_append, stops]
      omega
    · have there := (mem_erase.mp inside).1
      have := beside.normal.start_lt_stop there
      have := beside.apart t there
      have := beside.normal.apart_of_mem_erase mem inside
      rw [Segment.start_append, stops]
      omega
  rest t inside := (mem_erase.mp inside).1
  bytes a := by
    rw [Segment.byte?_append, touching, Segment.byte?_or_comm (Nat.le_of_eq touching),
      Option.or_assoc, beside.normal.byte?_erase mem]

theorem Beside.append_behind (beside : Beside run image) (mem : s ∈ image.segments)
    (touching : s.start = run.stop) :
    Joined run image (run.append s.bytes) (image.erase s.start) where
  beside := by
    have full := beside.normal.start_lt_stop mem
    have filled := beside.filled
    have stops := Segment.stop_append_bytes touching.symm
    refine ⟨beside.normal.erase _, ?_, stops ▸ beside.normal.bounded s mem, fun t inside => ?_⟩
    · rw [Segment.start_append, stops]
      omega
    · have there := (mem_erase.mp inside).1
      have := beside.normal.start_lt_stop there
      have := beside.apart t there
      have := beside.normal.apart_of_mem_erase mem inside
      rw [Segment.start_append, stops]
      omega
  rest t inside := (mem_erase.mp inside).1
  bytes a := by
    rw [Segment.byte?_append, ← touching, Option.or_assoc, beside.normal.byte?_erase mem]

namespace Edit

/-- Looking for neighbours changes nothing. What is in the way is the first address of the run
that is taken. -/
theorem run_neighbours (normal : image.Normal) (filled : run.start < run.stop)
    (bound : run.stop ≤ Word.limit) :
    (∃ a, (neighbours run).run image = .error (.overlap a) image ∧
      image.FirstTaken run.start run.bytes.size a) ∨
    (neighbours run).run image =
        .ok (image.segmentFrom? run.start, image.segmentBehind? run.start) image ∧
      Beside run image := by
  cases inside : (image.segmentFrom? run.start).any (run.start < ·.stop) with
  | true =>
    have looked : (neighbours run).run image = .error (.overlap run.start) image := by
      simp only [neighbours, EStateM.run_bind, EStateM.run_get, inside, ↓reduceIte]
      rfl
    obtain ⟨s, found, long⟩ := (Option.any_eq_true _ _).mp inside
    exact Or.inl ⟨_, looked, firstTaken_start filled found (of_decide_eq_true long)⟩
  | false =>
    have ends : ∀ s, image.segmentFrom? run.start = some s → s.stop ≤ run.start := fun s found =>
      Nat.le_of_not_lt (of_decide_eq_false ((Option.any_eq_false _ _).mp inside s found))
    cases found : (image.segmentBehind? run.start).filter (·.start < run.stop) with
    | some s =>
      have looked : (neighbours run).run image = .error (.overlap s.start) image := by
        simp only [neighbours, EStateM.run_bind, EStateM.run_get, inside, found]
        rfl
      obtain ⟨next, short⟩ := Option.filter_eq_some_iff.mp found
      exact Or.inl ⟨_, looked, normal.firstTaken_next ends next (of_decide_eq_true short)⟩
    | none =>
      have looked : (neighbours run).run image =
          .ok (image.segmentFrom? run.start, image.segmentBehind? run.start) image := by
        simp only [neighbours, EStateM.run_bind, EStateM.run_get, inside, found]
        rfl
      have starts : ∀ s, image.segmentBehind? run.start = some s → run.stop ≤ s.start :=
        fun s next => by simpa using Option.filter_eq_none_iff.mp found s next
      exact Or.inr ⟨looked, normal.beside filled bound ends starts⟩

/-- Afterwards no segment ends where the run starts. -/
theorem run_joinBefore (beside : Beside run image) :
    ∃ joined left, (joinBefore run (image.segmentFrom? run.start)).run image = .ok joined left ∧
      Joined run image joined left ∧ joined.stop = run.stop ∧
      (∀ s ∈ left.segments, s.stop ≠ joined.start) ∧
      ∀ s ∈ image.segments, run.stop ≤ s.start → s ∈ left.segments := by
  unfold joinBefore
  cases found : (image.segmentFrom? run.start).filter (·.stop = run.start) with
  | some s =>
    obtain ⟨last, touches⟩ := Option.filter_eq_some_iff.mp found
    obtain ⟨mem, low⟩ := mem_of_segmentFrom? last
    have touching := of_decide_eq_true touches
    have full := beside.normal.start_lt_stop mem
    refine ⟨_, _, rfl, beside.append_before mem touching, Segment.stop_append_bytes touching,
      fun t inside => ?_, fun t there high => mem_erase.mpr ⟨there, ?_⟩⟩
    · have := beside.normal.start_lt_stop (mem_erase.mp inside).1
      have := beside.normal.apart_of_mem_erase mem inside
      rw [Segment.start_append]
      omega
    · have := beside.filled
      omega
  | none =>
    refine ⟨_, _, rfl, beside.refl, rfl, fun t mem touching => ?_, fun t mem _ => mem⟩
    simp [beside.normal.segmentFrom?_of_stop mem touching, touching] at found

/-- Afterwards no segment starts where the run ends. -/
theorem run_joinBehind (beside : Beside run image)
    (there : ∀ s, behind = some s → s.start = run.stop → s ∈ image.segments)
    (known : ∀ s ∈ image.segments, s.start = run.stop → behind = some s) :
    ∃ joined left, (joinBehind run behind).run image = .ok joined left ∧
      Joined run image joined left ∧ joined.start = run.start ∧
      ∀ s ∈ left.segments, s.start ≠ joined.stop := by
  unfold joinBehind
  cases found : behind.filter (·.start = run.stop) with
  | some s =>
    obtain ⟨next, touches⟩ := Option.filter_eq_some_iff.mp found
    have touching := of_decide_eq_true touches
    have mem := there s next touching
    refine ⟨_, _, rfl, beside.append_behind mem touching, rfl, fun t inside => ?_⟩
    have := beside.normal.start_lt_stop mem
    have := beside.normal.start_lt_stop (mem_erase.mp inside).1
    have := beside.normal.apart_of_mem_erase mem inside
    rw [Segment.stop_append_bytes touching.symm]
    omega
  | none =>
    refine ⟨_, _, rfl, beside.refl, rfl, fun t mem touching => ?_⟩
    simp [known t mem touching, touching] at found

/-- Adding a run leaves the image as it was, or with the bytes of both. -/
theorem run_add (normal : image.Normal) (filled : run.start < run.stop)
    (bound : run.stop ≤ Word.limit) :
    (∃ written, (add run).run image = .ok () written ∧ written.Normal ∧
      image.Free run.start run.bytes.size ∧
      ∀ a, written.byte? a = (run.byte? a).or (image.byte? a)) ∨
    ∃ a, (add run).run image = .error (.overlap a) image ∧
      image.FirstTaken run.start run.bytes.size a := by
  unfold add
  rw [EStateM.run_bind]
  rcases run_neighbours normal filled bound with ⟨a, failed, first⟩ | ⟨looked, beside⟩
  · rw [failed]
    exact Or.inr ⟨a, rfl, first⟩
  · obtain ⟨front, middle, joined, grown, stop, ends, kept⟩ := run_joinBefore beside
    have there : ∀ s, image.segmentBehind? run.start = some s → s.start = front.stop →
        s ∈ middle.segments := fun s found touching =>
      kept s (mem_of_segmentBehind? found).1 (Nat.le_of_eq (touching.trans stop).symm)
    have known : ∀ s ∈ middle.segments, s.start = front.stop →
        image.segmentBehind? run.start = some s := fun s mem touching =>
      beside.segmentBehind?_of_start (grown.rest s mem) (touching.trans stop)
    obtain ⟨whole, left, joined', grown', start, starts⟩ :=
      run_joinBehind grown.beside there known
    have gaps : ∀ s ∈ left.segments, s.stop < whole.start ∨ whole.stop < s.start := by
      intro s mem
      have := ends s (grown'.rest s mem)
      have := starts s mem
      have := grown'.beside.apart s mem
      omega
    obtain ⟨written, bytes⟩ :=
      grown'.beside.normal.insert grown'.beside.filled grown'.beside.bound gaps
    rw [looked]
    simp only [EStateM.run_bind, joined, joined']
    refine Or.inl ⟨_, rfl, written, beside.free, fun a => ?_⟩
    rw [bytes, grown'.bytes, grown.bytes]

end Edit

/-! Writes -/

variable {written : Image} {address : Nat} {data : List UInt8}

theorem Edit.run_write_overflow (filled : data ≠ []) (long : Word.limit < address + data.length) :
    (Edit.write address data).run image = .error (.overflow address data.length) image := by
  simp only [Edit.write, List.isEmpty_iff, filled, long, ↓reduceIte]
  rfl

theorem Edit.run_write (filled : data ≠ []) (bound : address + data.length ≤ Word.limit) :
    (Edit.write address data).run image = (Edit.add ⟨address, data.toArray⟩).run image := by
  simp only [Edit.write, List.isEmpty_iff, filled, Nat.not_lt.mpr bound, ↓reduceIte]

theorem Edit.run_write_cases (normal : image.Normal) (filled : data ≠ [])
    (bound : address + data.length ≤ Word.limit) :
    (∃ written, (Edit.write address data).run image = .ok () written ∧ written.Normal ∧
      image.Free address data.length ∧
      ∀ a, written.byte? a = ((⟨address, data.toArray⟩ : Segment).byte? a).or (image.byte? a)) ∨
    ∃ a, (Edit.write address data).run image = .error (.overlap a) image ∧
      image.FirstTaken address data.length a := by
  have size := List.length_pos_iff.mpr filled
  rw [Edit.run_write filled bound]
  exact Edit.run_add normal (Nat.lt_add_of_pos_right size) bound

/-- A write that fails has changed nothing. -/
theorem Edit.kept_of_error (normal : image.Normal) {e : WriteError}
    (failed : (Edit.write address data).run image = .error e left) : left = image := by
  by_cases filled : data = []
  · subst filled
    contradiction
  · by_cases bound : address + data.length ≤ Word.limit
    · rcases Edit.run_write_cases normal filled bound with ⟨_, success, _⟩ | ⟨_, stopped, _⟩
      · rw [success] at failed
        contradiction
      · rw [stopped] at failed
        exact (EStateM.Result.error.inj failed).2.symm
    · rw [Edit.run_write_overflow filled (Nat.lt_of_not_le bound)] at failed
      exact (EStateM.Result.error.inj failed).2.symm

theorem write_nil (image : Image) (address : Nat) : image.write address [] = .ok image := rfl

theorem write_overflow (filled : data ≠ []) (long : Word.limit < address + data.length) :
    image.write address data = .error (.overflow address data.length) := by
  rw [write, Edit.run_write_overflow filled long]

theorem ofBytes_ok (filled : data ≠ []) (bound : address + data.length ≤ Word.limit) :
    ofBytes address data = .ok ⟨[⟨address, data.toArray⟩]⟩ := by
  rw [ofBytes, write, Edit.run_write filled bound]
  rfl

theorem byte?_run (address : Nat) (data : List UInt8) (a : Nat) :
    (⟨address, data.toArray⟩ : Segment).byte? a =
      if address ≤ a then data[a - address]? else none := by
  simp only [Segment.byte?, List.getElem?_toArray]

theorem write_cases (normal : image.Normal) (filled : data ≠ [])
    (bound : address + data.length ≤ Word.limit) :
    (∃ written, image.write address data = .ok written ∧ written.Normal ∧
      image.Free address data.length ∧
      ∀ a, written.byte? a = ((⟨address, data.toArray⟩ : Segment).byte? a).or (image.byte? a)) ∨
    ∃ a, image.write address data = .error (.overlap a) ∧
      image.FirstTaken address data.length a := by
  rcases Edit.run_write_cases normal filled bound with
    ⟨written, success, result⟩ | ⟨a, failed, first⟩
  · rw [write, success]
    exact Or.inl ⟨written, rfl, result⟩
  · rw [write, failed]
    exact Or.inr ⟨a, rfl, first⟩

theorem write_free (normal : image.Normal) (bound : address + data.length ≤ Word.limit)
    (free : image.Free address data.length) :
    ∃ written, image.write address data = .ok written ∧ written.Normal ∧
      ∀ a, written.byte? a =
        ((⟨address, data.toArray⟩ : Segment).byte? a).or (image.byte? a) := by
  by_cases filled : data = []
  · subst filled
    refine ⟨image, write_nil image address, normal, fun a => ?_⟩
    simp [byte?_run]
  · rcases write_cases normal filled bound with ⟨written, success, result, _, bytes⟩ | ⟨a, _, first⟩
    · exact ⟨written, success, result, bytes⟩
    · exact absurd (free a first.above first.below) first.taken

/-- A write makes the only normal image that has the bytes of both. -/
theorem write_eq_of_byte? (normal : image.Normal) (bound : address + data.length ≤ Word.limit)
    (free : image.Free address data.length) (result : written.Normal)
    (bytes : ∀ a, written.byte? a =
      ((⟨address, data.toArray⟩ : Segment).byte? a).or (image.byte? a)) :
    image.write address data = .ok written := by
  obtain ⟨other, success, otherNormal, otherBytes⟩ := write_free normal bound free
  have same := otherNormal.eq_of_byte? result fun a => (otherBytes a).trans (bytes a).symm
  rw [success, same]

theorem write_ok_iff (normal : image.Normal) :
    (∃ written, image.write address data = .ok written) ↔
      data = [] ∨ address + data.length ≤ Word.limit ∧ image.Free address data.length := by
  constructor
  · rintro ⟨written, success⟩
    refine or_iff_not_imp_left.mpr fun filled => ?_
    have bound : address + data.length ≤ Word.limit := by
      by_contra long
      rw [write_overflow filled (by omega)] at success
      contradiction
    rcases write_cases normal filled bound with ⟨_, _, _, free, _⟩ | ⟨a, failed, _⟩
    · exact ⟨bound, free⟩
    · rw [failed] at success
      contradiction
  · rintro (rfl | ⟨bound, free⟩)
    · exact ⟨image, write_nil image address⟩
    · obtain ⟨written, success, _⟩ := write_free normal bound free
      exact ⟨written, success⟩

theorem write_ok (normal : image.Normal) (success : image.write address data = .ok written) :
    written.Normal ∧ ∀ a, written.byte? a =
      ((⟨address, data.toArray⟩ : Segment).byte? a).or (image.byte? a) := by
  rcases (write_ok_iff normal).mp ⟨written, success⟩ with rfl | ⟨bound, free⟩
  · rw [write_nil] at success
    obtain rfl := Except.ok.inj success
    exact ⟨normal, fun a => by simp [byte?_run]⟩
  · obtain ⟨_, found, result⟩ := write_free normal bound free
    rw [found] at success
    exact Except.ok.inj success ▸ result

theorem byte?_write (normal : image.Normal) (success : image.write address data = .ok written)
    (a : Nat) : written.byte? a =
      if address ≤ a ∧ a < address + data.length then data[a - address]? else image.byte? a := by
  rw [(write_ok normal success).2, byte?_run]
  split
  · rename_i above
    split
    · have index : a - address < data.length := by omega
      rw [List.getElem?_eq_getElem index, Option.some_or]
    · rw [List.getElem?_eq_none (by omega), Option.none_or]
  · rw [if_neg (by omega), Option.none_or]

/-- A write fails behind the last address, or else at the lowest address that is taken. -/
theorem write_error (normal : image.Normal) {e : WriteError}
    (failed : image.write address data = .error e) :
    Word.limit < address + data.length ∧ e = .overflow address data.length ∨
      address + data.length ≤ Word.limit ∧
        ∃ a, e = .overlap a ∧ image.FirstTaken address data.length a := by
  have filled : data ≠ [] := by
    rintro rfl
    rw [write_nil] at failed
    contradiction
  by_cases bound : address + data.length ≤ Word.limit
  · rcases write_cases normal filled bound with ⟨_, success, _⟩ | ⟨a, found, first⟩
    · rw [success] at failed
      contradiction
    · rw [found] at failed
      exact Or.inr ⟨bound, a, (Except.error.inj failed).symm, first⟩
  · have long := Nat.lt_of_not_le bound
    rw [write_overflow filled long] at failed
    exact Or.inl ⟨long, (Except.error.inj failed).symm⟩

/-- What a caller holds after a write, successful or not. -/
def attempt (image : Image) (address : Nat) (data : List UInt8) : Image :=
  match (Edit.write address data).run image with
  | .ok _ left => left
  | .error _ left => left

theorem attempt_of_ok (success : image.write address data = .ok written) :
    image.attempt address data = written := by
  unfold write at success
  cases ran : (Edit.write address data).run image with
  | ok _ left =>
    rw [ran] at success
    rw [attempt, ran, Except.ok.inj success]
  | error e left =>
    rw [ran] at success
    contradiction

theorem attempt_of_error (normal : image.Normal) {e : WriteError}
    (failed : image.write address data = .error e) : image.attempt address data = image := by
  unfold write at failed
  cases ran : (Edit.write address data).run image with
  | ok _ left =>
    rw [ran] at failed
    contradiction
  | error e left => rw [attempt, ran, Edit.kept_of_error normal ran]

/-- Images that writes, failed ones included, make from the empty one. -/
inductive Reachable : Image → Prop where
  | empty : Reachable empty
  | attempt {image : Image} (address : Nat) (data : List UInt8) :
      Reachable image → Reachable (image.attempt address data)

theorem Normal.attempt (normal : image.Normal) (address : Nat) (data : List UInt8) :
    (image.attempt address data).Normal := by
  cases outcome : image.write address data with
  | ok written => exact attempt_of_ok outcome ▸ (write_ok normal outcome).1
  | error e => exact (attempt_of_error normal outcome).symm ▸ normal

theorem Reachable.normal (h : image.Reachable) : image.Normal := by
  induction h with
  | empty => exact normal_empty
  | attempt address data _ ih => exact ih.attempt address data

/-- A write is the union of two maps that have no address in common. -/
theorem write_disjoint_union (h : image.Reachable) (address : Nat) (data : List UInt8) :
    image.Normal ∧
    ((∃ written, image.write address data = .ok written) ↔
      data = [] ∨ address + data.length ≤ Word.limit ∧ image.Free address data.length) ∧
    (∀ written, image.write address data = .ok written → ∀ a, written.byte? a =
      if address ≤ a ∧ a < address + data.length then data[a - address]? else image.byte? a) ∧
    ∀ e, image.write address data = .error e →
      image.attempt address data = image ∧
      (e = .overflow address data.length ↔ Word.limit < address + data.length) ∧
      (address + data.length ≤ Word.limit →
        ∃ a, e = .overlap a ∧ image.FirstTaken address data.length a) := by
  have normal := h.normal
  refine ⟨normal, write_ok_iff normal, fun _ success a => byte?_write normal success a, ?_⟩
  intro e failed
  refine ⟨attempt_of_error normal failed, ?_⟩
  rcases write_error normal failed with ⟨long, rfl⟩ | ⟨bound, a, rfl, first⟩
  · exact ⟨iff_of_true rfl long, fun bound => absurd long (Nat.not_lt.mpr bound)⟩
  · exact ⟨iff_of_false (by simp) (Nat.not_lt.mpr bound), fun _ => ⟨a, rfl, first⟩⟩

/-- A write into the gap below the last address meets the first byte behind the gap. -/
theorem write_disjoint_union_below_gap :
    ((empty.attempt 0xFFFFFFF0 [1]).attempt 0xFFFFFFFE [2, 3]).Reachable ∧
      ((empty.attempt 0xFFFFFFF0 [1]).attempt 0xFFFFFFFE [2, 3]).FirstTaken 0xFFFFFFFD 3
        0xFFFFFFFE := by
  have reachable : ((empty.attempt 0xFFFFFFF0 [1]).attempt 0xFFFFFFFE [2, 3]).Reachable :=
    .attempt _ _ (.attempt _ _ .empty)
  obtain ⟨_, _, _, failures⟩ := write_disjoint_union reachable 0xFFFFFFFD [4, 5, 6]
  obtain ⟨_, _, overlap⟩ := failures (.overlap 0xFFFFFFFE) rfl
  obtain ⟨a, same, first⟩ := overlap (by decide)
  exact ⟨reachable, WriteError.overlap.inj same ▸ first⟩

end FirmwareMeta.Image
