import FirmwareMeta.Proofs.Failure
import FirmwareMeta.Proofs.Image.Writing
import Mathlib.Data.List.Nodup

/-! The bytes of an image, each with its address. A write that succeeds adds its own to them, and
it succeeds if none of its addresses is taken. Hence only the bytes count, and neither the order
nor the parts in which they are written. -/
namespace FirmwareMeta.Image

/-- The bytes of an image with their addresses. -/
def cells (image : Image) : List (UInt8 × Nat) :=
  image.segments.flatMap fun s => s.bytes.toList.zipIdx s.start

/-- The bytes of some writes with their addresses. -/
def cellsOf (writes : List (Nat × List UInt8)) : List (UInt8 × Nat) :=
  writes.flatMap fun (address, data) => data.zipIdx address

/-- Writes one after the other, up to the first one that fails. -/
def writeAll (image : Image) (writes : List (Nat × List UInt8)) : Except WriteError Image :=
  writes.foldlM (fun image (address, data) => image.write address data) image

/-- Bytes that an image can hold: at addresses of the address space, and one at each. -/
structure Writable (cells : List (UInt8 × Nat)) : Prop where
  bounded : ∀ c ∈ cells, c.2 < Word.limit
  distinct : (cells.map (·.2)).Nodup

variable {image written : Image} {address a : Nat} {b : UInt8} {data : List UInt8}
  {cs ds : List (UInt8 × Nat)} {writes others : List (Nat × List UInt8)}

/-! Bytes that can be written -/

theorem writable_append_iff :
    Writable (cs ++ ds) ↔ Writable cs ∧ Writable ds ∧ ∀ c ∈ cs, ∀ d ∈ ds, c.2 ≠ d.2 := by
  constructor
  · rintro ⟨bounded, distinct⟩
    rw [List.map_append, List.nodup_append] at distinct
    obtain ⟨front, back, apart⟩ := distinct
    rw [List.forall_mem_append] at bounded
    exact ⟨⟨bounded.1, front⟩, ⟨bounded.2, back⟩, fun c mem d inside =>
      apart _ (List.mem_map_of_mem mem) _ (List.mem_map_of_mem inside)⟩
  · rintro ⟨front, back, apart⟩
    refine ⟨List.forall_mem_append.mpr ⟨front.bounded, back.bounded⟩, ?_⟩
    rw [List.map_append, List.nodup_append]
    refine ⟨front.distinct, back.distinct, ?_⟩
    intro x mem y inside
    obtain ⟨c, held, rfl⟩ := List.mem_map.mp mem
    obtain ⟨d, added, rfl⟩ := List.mem_map.mp inside
    exact apart c held d added

theorem Writable.perm (h : Writable cs) (same : cs.Perm ds) : Writable ds :=
  ⟨fun c mem => h.bounded c (same.mem_iff.mpr mem), (same.map _).nodup_iff.mp h.distinct⟩

/-- Bytes with an address each are the same in any order if they are the same as a set. -/
theorem Writable.perm_iff (hc : Writable cs) (hd : Writable ds) :
    cs.Perm ds ↔ ∀ c, c ∈ cs ↔ c ∈ ds :=
  List.perm_ext_iff_of_nodup (List.Nodup.of_map _ hc.distinct) (List.Nodup.of_map _ hd.distinct)

theorem mem_zipIdx_iff : (b, a) ∈ data.zipIdx address ↔
    (⟨address, data.toArray⟩ : Segment).byte? a = some b := by
  rw [List.mk_mem_zipIdx_iff_le_and_getElem?_sub, byte?_run]
  split
  · rename_i low
    exact and_iff_right low
  · rename_i high
    exact iff_of_false (fun inside => high inside.1) nofun

theorem writable_zipIdx_iff :
    Writable (data.zipIdx address) ↔ data = [] ∨ address + data.length ≤ Word.limit := by
  have addresses : (data.zipIdx address).map (·.2) = List.range' address data.length :=
    List.zipIdx_map_snd address data
  constructor
  · intro writable
    by_cases filled : data = []
    · exact Or.inl filled
    · have size := List.length_pos_iff.mpr filled
      have last : address + data.length - 1 ∈ (data.zipIdx address).map (·.2) := by
        rw [addresses, List.mem_range'_1]
        omega
      obtain ⟨c, mem, same⟩ := List.mem_map.mp last
      have := writable.bounded c mem
      exact Or.inr (by omega)
  · intro bound
    refine ⟨fun c mem => ?_, addresses ▸ List.nodup_range'⟩
    have low := List.snd_lt_add_of_mem_zipIdx mem
    rcases bound with rfl | bound
    · contradiction
    · omega

/-! The bytes of an image -/

theorem Normal.mem_cells_iff (normal : image.Normal) :
    (b, a) ∈ image.cells ↔ image.byte? a = some b := by
  obtain ⟨segments⟩ := image
  induction segments with
  | nil => simp [cells, byte?]
  | cons s rest ih =>
    -- No address of the first segment is taken behind it.
    have apart : byte? ⟨rest⟩ a = some b → s.byte? a = none := by
      intro taken
      by_contra inside
      have low := (Segment.byte?_ne_none_iff.mp inside).2
      rw [normal.tail_free (by omega)] at taken
      contradiction
    have tail := ih normal.tail
    simp only [cells] at tail ⊢
    rw [List.flatMap_cons, List.mem_append, tail, mem_zipIdx_iff, byte?_cons,
      Option.or_eq_some_iff]
    exact or_congr_right ⟨fun taken => ⟨apart taken, taken⟩, And.right⟩

theorem Normal.writable (normal : image.Normal) : Writable image.cells := by
  obtain ⟨segments⟩ := image
  induction segments with
  | nil => exact ⟨by simp [cells], .nil⟩
  | cons s rest ih =>
    have stop : s.stop = s.start + s.bytes.toList.length := rfl
    refine writable_append_iff.mpr ⟨writable_zipIdx_iff.mpr (Or.inr ?_), ih normal.tail, ?_⟩
    · exact stop ▸ normal.bounded s List.mem_cons_self
    · rintro c mem ⟨byte, address⟩ inside rfl
      have low := List.snd_lt_add_of_mem_zipIdx mem
      have taken := normal.tail.mem_cells_iff.mp inside
      rw [normal.tail_free (by omega)] at taken
      contradiction

/-- A normal image is determined by its bytes. -/
theorem Normal.eq_of_cells {other : Image} (normal : image.Normal) (also : other.Normal)
    (same : image.cells.Perm other.cells) : image = other := by
  refine normal.eq_of_byte? also fun a => Option.ext fun b => ?_
  rw [← normal.mem_cells_iff, ← also.mem_cells_iff]
  exact same.mem_iff

/-! Writes -/

theorem Normal.free_iff (normal : image.Normal) :
    image.Free address data.length ↔ ∀ c ∈ image.cells, ∀ d ∈ data.zipIdx address, c.2 ≠ d.2 := by
  constructor
  · rintro free ⟨byte, a⟩ held d added rfl
    have taken := normal.mem_cells_iff.mp held
    have high := List.snd_lt_add_of_mem_zipIdx added
    rw [free d.2 (List.le_snd_of_mem_zipIdx added) (by omega)] at taken
    contradiction
  · intro apart a low high
    have inside : a ∈ (data.zipIdx address).map (·.2) := by
      rw [List.zipIdx_map_snd, List.mem_range'_1]
      omega
    obtain ⟨d, added, rfl⟩ := List.mem_map.mp inside
    by_contra taken
    obtain ⟨byte, found⟩ := Option.ne_none_iff_exists'.mp taken
    exact apart _ (normal.mem_cells_iff.mpr found) d added rfl

theorem write_ok_iff_writable (normal : image.Normal) :
    (∃ written, image.write address data = .ok written) ↔
      Writable (image.cells ++ data.zipIdx address) := by
  rw [write_ok_iff normal, writable_append_iff, writable_zipIdx_iff, ← normal.free_iff]
  constructor
  · rintro (rfl | ⟨bound, free⟩)
    · exact ⟨normal.writable, Or.inl rfl, fun a low high => by simp at high; omega⟩
    · exact ⟨normal.writable, Or.inr bound, free⟩
  · rintro ⟨_, none | bound, free⟩
    · exact Or.inl none
    · exact Or.inr ⟨bound, free⟩

/-- A write adds its bytes to those of the image. -/
theorem cells_write (normal : image.Normal) (success : image.write address data = .ok written) :
    written.cells.Perm (image.cells ++ data.zipIdx address) := by
  have writable := (write_ok_iff_writable normal).mp ⟨written, success⟩
  obtain ⟨result, bytes⟩ := write_ok normal success
  rw [result.writable.perm_iff writable]
  rintro ⟨b, a⟩
  have apart : image.byte? a = some b → (⟨address, data.toArray⟩ : Segment).byte? a = none := by
    intro taken
    by_contra inside
    obtain ⟨other, found⟩ := Option.ne_none_iff_exists'.mp inside
    exact (writable_append_iff.mp writable).2.2 _ (normal.mem_cells_iff.mpr taken) _
      (mem_zipIdx_iff.mpr found) rfl
  rw [result.mem_cells_iff, bytes, Option.or_eq_some_iff, List.mem_append, normal.mem_cells_iff,
    mem_zipIdx_iff, or_comm]
  exact or_congr_left ⟨And.right, fun taken => ⟨apart taken, taken⟩⟩

/-! Many writes -/

theorem writeAll_nil (image : Image) : image.writeAll [] = .ok image := rfl

theorem writeAll_cons_ok_iff :
    image.writeAll ((address, data) :: writes) = .ok written ↔
      ∃ middle, image.write address data = .ok middle ∧ middle.writeAll writes = .ok written :=
  bind_ok_iff

theorem writeAll_append : image.writeAll (writes ++ others) =
    (do (← image.writeAll writes).writeAll others) :=
  List.foldlM_append

theorem cellsOf_cons : cellsOf ((address, data) :: writes) =
    data.zipIdx address ++ cellsOf writes := rfl

theorem normal_writeAll (normal : image.Normal) (success : image.writeAll writes = .ok written) :
    written.Normal ∧ written.cells.Perm (image.cells ++ cellsOf writes) := by
  induction writes generalizing image with
  | nil =>
    obtain rfl := Except.ok.inj success
    exact ⟨normal, by rw [cellsOf, List.flatMap_nil, List.append_nil]⟩
  | cons first rest ih =>
    obtain ⟨address, data⟩ := first
    obtain ⟨middle, wrote, others⟩ := writeAll_cons_ok_iff.mp success
    obtain ⟨result, cells⟩ := ih (write_ok normal wrote).1 others
    refine ⟨result, cells.trans ?_⟩
    rw [cellsOf_cons, ← List.append_assoc]
    exact (cells_write normal wrote).append_right _

theorem writeAll_ok_iff_writable (normal : image.Normal) :
    (∃ written, image.writeAll writes = .ok written) ↔
      Writable (image.cells ++ cellsOf writes) := by
  induction writes generalizing image with
  | nil =>
    rw [cellsOf, List.flatMap_nil, List.append_nil]
    exact iff_of_true ⟨image, rfl⟩ normal.writable
  | cons first rest ih =>
    obtain ⟨address, data⟩ := first
    simp only [writeAll_cons_ok_iff]
    rw [cellsOf_cons, ← List.append_assoc]
    constructor
    · rintro ⟨written, middle, wrote, others⟩
      have writable := (ih (write_ok normal wrote).1).mp ⟨written, others⟩
      exact writable.perm ((cells_write normal wrote).append_right _)
    · intro writable
      obtain ⟨middle, wrote⟩ :=
        (write_ok_iff_writable normal).mpr (writable_append_iff.mp writable).1
      have back := (cells_write normal wrote).symm.append_right (cellsOf rest)
      obtain ⟨written, others⟩ := (ih (write_ok normal wrote).1).mpr (writable.perm back)
      exact ⟨written, middle, wrote, others⟩

/-- Writes of the same bytes have the same result. -/
theorem writeAll_ok_of_perm (normal : image.Normal) (same : (cellsOf writes).Perm (cellsOf others))
    (success : image.writeAll writes = .ok written) : image.writeAll others = .ok written := by
  have writable := (writeAll_ok_iff_writable normal).mp ⟨written, success⟩
  obtain ⟨result, found⟩ :=
    (writeAll_ok_iff_writable normal).mpr (writable.perm (same.append_left image.cells))
  obtain ⟨one, front⟩ := normal_writeAll normal success
  obtain ⟨other, back⟩ := normal_writeAll normal found
  have equal := other.eq_of_cells one
    (back.trans ((same.symm.append_left image.cells).trans front.symm))
  rw [found, equal]

theorem writeAll_ok_iff_of_perm (normal : image.Normal)
    (same : (cellsOf writes).Perm (cellsOf others)) :
    image.writeAll writes = .ok written ↔ image.writeAll others = .ok written :=
  ⟨writeAll_ok_of_perm normal same, writeAll_ok_of_perm normal same.symm⟩

theorem writeAll_pair_ok_iff {next : Nat} {more : List UInt8} :
    image.writeAll [(address, data), (next, more)] = .ok written ↔
      ∃ middle, image.write address data = .ok middle ∧ middle.write next more = .ok written := by
  simp only [writeAll_cons_ok_iff, writeAll_nil, Except.ok.injEq, exists_eq_right]

theorem Reachable.writeAll (h : image.Reachable) (success : image.writeAll writes = .ok written) :
    written.Reachable := by
  induction writes generalizing image with
  | nil => exact Except.ok.inj success ▸ h
  | cons first rest ih =>
    obtain ⟨address, data⟩ := first
    obtain ⟨middle, wrote, others⟩ := writeAll_cons_ok_iff.mp success
    exact ih (attempt_of_ok wrote ▸ .attempt address data h) others

/-- Images are their maps. So neither the order of writes matters nor whether bytes are written at
once or in two parts, whichever of these comes first. -/
theorem canonical_form {image other : Image} (h : image.Reachable)
    (also : other.Reachable) :
    (image = other ↔ ∀ a, image.byte? a = other.byte? a) ∧
    (∀ writes others : List (Nat × List UInt8), writes.Perm others → ∀ written,
      image.writeAll writes = .ok written ↔ image.writeAll others = .ok written) ∧
    ∀ address front back written,
      (image.write address (front ++ back) = .ok written ↔
        ∃ middle, image.write address front = .ok middle ∧
          middle.write (address + front.length) back = .ok written) ∧
      (image.write address (front ++ back) = .ok written ↔
        ∃ middle, image.write (address + front.length) back = .ok middle ∧
          middle.write address front = .ok written) := by
  have normal := h.normal
  refine ⟨⟨fun same a => same ▸ rfl, normal.eq_of_byte? also.normal⟩, ?_, ?_⟩
  · intro writes others same written
    exact writeAll_ok_iff_of_perm normal (same.flatMap_right _)
  · intro address front back written
    have whole : image.writeAll [(address, front ++ back)] = .ok written ↔
        image.write address (front ++ back) = .ok written := by
      simp only [writeAll_cons_ok_iff, writeAll_nil, Except.ok.injEq, exists_eq_right]
    have parts : cellsOf [(address, front ++ back)] =
        cellsOf [(address, front), (address + front.length, back)] := by
      simp [cellsOf, List.zipIdx_append]
    have swapped : (cellsOf [(address, front ++ back)]).Perm
        (cellsOf [(address + front.length, back), (address, front)]) :=
      parts ▸ (List.Perm.swap _ _ []).flatMap_right _
    rw [← whole, ← writeAll_pair_ok_iff, ← writeAll_pair_ok_iff]
    exact ⟨writeAll_ok_iff_of_perm normal (.of_eq parts), writeAll_ok_iff_of_perm normal swapped⟩

/-- The last write joins two segments, or the first one is extended on both sides. -/
theorem canonical_form_joined :
    empty.Reachable ∧
      ([(4, [5]), (0, [1, 2]), (2, [3, 4])] : List (Nat × List UInt8)).Perm
        [(2, [3, 4]), (4, [5]), (0, [1, 2])] ∧
      empty.writeAll [(2, [3, 4]), (4, [5]), (0, [1, 2])] = .ok ⟨[⟨0, #[1, 2, 3, 4, 5]⟩]⟩ := by
  have same : ([(4, [5]), (0, [1, 2]), (2, [3, 4])] : List (Nat × List UInt8)).Perm
      [(2, [3, 4]), (4, [5]), (0, [1, 2])] := by decide
  have joined : empty.writeAll [(4, [5]), (0, [1, 2]), (2, [3, 4])] =
      .ok ⟨[⟨0, #[1, 2, 3, 4, 5]⟩]⟩ := rfl
  have order := (canonical_form .empty .empty).2.1 _ _ same
  exact ⟨.empty, same, (order _).mp joined⟩

end FirmwareMeta.Image
