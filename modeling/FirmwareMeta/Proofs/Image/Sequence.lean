import FirmwareMeta.Proofs.Image.Writing

/-! Writes that follow each other: data may be written in two parts, and what is written behind
an image becomes its last segment. -/
namespace FirmwareMeta.Image

variable {image written : Image} {address : Nat} {front back : List UInt8}
  {data : List UInt8} {run : Segment} {segments : List Segment}

theorem byte?_run_append (address : Nat) (front back : List UInt8) (a : Nat) :
    (⟨address, (front ++ back).toArray⟩ : Segment).byte? a =
      ((⟨address, front.toArray⟩ : Segment).byte? a).or
        ((⟨address + front.length, back.toArray⟩ : Segment).byte? a) := by
  have joined := Segment.byte?_append ⟨address, front.toArray⟩ back.toArray a
  simpa only [Segment.append, Segment.stop, List.append_toArray, List.size_toArray] using joined

/-- Data that can be written at once can be written in two parts, with the same result. -/
theorem write_append (normal : image.Normal)
    (success : image.write address (front ++ back) = .ok written) :
    ∃ middle, image.write address front = .ok middle ∧ middle.Normal ∧
      middle.write (address + front.length) back = .ok written := by
  rcases (write_ok_iff normal).mp ⟨written, success⟩ with none | ⟨bound, free⟩
  · obtain ⟨rfl, rfl⟩ := List.append_eq_nil_iff.mp none
    exact ⟨image, rfl, normal, success⟩
  · rw [List.length_append] at bound free
    have ahead : image.Free address front.length := fun a low high => free a low (by omega)
    obtain ⟨middle, first, middleNormal, middleBytes⟩ := write_free normal (by omega) ahead
    have behind : middle.Free (address + front.length) back.length := by
      intro a low high
      have outside : (⟨address, front.toArray⟩ : Segment).byte? a = none :=
        Segment.byte?_eq_none_iff.mpr (Or.inr low)
      rw [middleBytes, outside, Option.none_or]
      exact free a (by omega) (by omega)
    obtain ⟨writtenNormal, writtenBytes⟩ := write_ok normal success
    refine ⟨middle, first, middleNormal,
      write_eq_of_byte? middleNormal (by omega) behind writtenNormal fun a => ?_⟩
    have apart : (⟨address, front.toArray⟩ : Segment).stop ≤
        (⟨address + front.length, back.toArray⟩ : Segment).start := Nat.le_refl _
    rw [middleBytes, writtenBytes, byte?_run_append, ← Option.or_assoc,
      Segment.byte?_or_comm apart]

theorem write_behind (normal : Normal ⟨segments ++ [run]⟩) :
    write ⟨segments⟩ run.start run.bytes.toList = .ok ⟨segments ++ [run]⟩ := by
  have bound := normal.bounded run (List.mem_append_right _ List.mem_cons_self)
  have below : ∀ s ∈ segments, s.stop < run.start := fun s inside =>
    (List.pairwise_append.mp normal.apart).2.2 s inside run List.mem_cons_self
  have free : ∀ a, run.start ≤ a → byte? ⟨segments⟩ a = none := by
    refine fun a low => byte?_eq_none_iff.mpr fun s inside => ?_
    have := below s inside
    omega
  refine write_eq_of_byte? (normal.sublist (List.sublist_append_left _ _)) ?_
    (fun a low _ => free a low) normal fun a => ?_
  · simpa only [Segment.stop, Array.length_toList] using bound
  · have both : byte? ⟨segments ++ [run]⟩ a = (byte? ⟨segments⟩ a).or (run.byte? a) := by
      simp only [byte?, List.findSome?_append, List.findSome?_singleton]
    rw [both, Array.toArray_toList]
    by_cases low : run.start ≤ a
    · rw [free a low, Option.none_or, Option.or_none]
    · rw [Segment.byte?_eq_none_iff.mpr (Or.inl (Nat.lt_of_not_le low)), Option.or_none,
        Option.none_or]

/-- Data that starts where the only segment ends becomes a part of it. -/
theorem write_touching (full : run.start < run.stop) (touching : address = run.stop)
    (bound : address + data.length ≤ Word.limit) :
    write ⟨[run]⟩ address data = .ok ⟨[run.append data.toArray]⟩ := by
  subst touching
  have stop : (run.append data.toArray).stop = run.stop + data.length := by
    rw [Segment.stop_append, List.size_toArray]
  refine write_eq_of_byte? (normal_single full (by omega)) bound (fun a low _ => ?_)
    (normal_single (Segment.start_lt_stop_append full _) (stop ▸ bound)) fun a => ?_
  · rw [byte?_single]
    exact Segment.byte?_eq_none_iff.mpr (Or.inr low)
  · rw [byte?_single, byte?_single, Segment.byte?_append]
    exact Segment.byte?_or_comm (t := ⟨run.stop, data.toArray⟩) (Nat.le_refl _) a

end FirmwareMeta.Image
