import FirmwareMeta.Update.Bundle
import FirmwareMeta.Proofs.Image.Extent
import FirmwareMeta.Proofs.Image.Sequence
import FirmwareMeta.Proofs.Update.Tiling

/-! Where a bundle puts a record and its payloads. The blocks tile the payloads, so each payload
is written directly behind what is there, and the whole is one segment that either ends within
the address space or overflows it. -/
namespace FirmwareMeta.Update

open Hardware (PartitionTable)

variable {table : PartitionTable} {p : Payload} {payloads : List Payload} {blocks : List Block}
  {offset base : Nat} {run : Segment} {r : Record}

/-! Blocks and their payloads -/

theorem Tiled.payloadSize_eq (tiled : Tiled table offset payloads blocks) :
    Record.payloadSize ⟨blocks⟩ = (Payload.join payloads).length := by
  simp only [Record.payloadSize]
  induction tiled with
  | nil => rfl
  | @cons offset p _ _ partition _ _ small _ ih =>
    have size := p.block_size partition offset (by omega)
    rw [List.foldr_cons, Payload.join_cons, List.length_append, size, ih]

theorem Tiled.payloadSize_pos (tiled : Tiled table offset (p :: payloads) blocks) :
    0 < Record.payloadSize ⟨blocks⟩ := by
  rw [tiled.payloadSize_eq, Payload.join_cons, List.length_append]
  cases tiled with
  | cons _ filled _ _ =>
    have := List.length_pos_iff.mpr filled
    omega

theorem Tiled.describes (tiled : Tiled table offset payloads blocks) :
    ∀ pair ∈ blocks.zip payloads, pair.1.describes pair.2 = true := by
  induction tiled with
  | nil => simp
  | @cons offset p _ _ partition _ _ small _ ih =>
    have size := p.block_size partition offset (by omega)
    rw [List.zip_cons_cons]
    refine List.forall_mem_cons.mpr ⟨?_, ih⟩
    simp only [Block.describes, size, decide_true, Bool.and_true]
    simp [Payload.block]

theorem Tiled.check (tiled : Tiled table 0 payloads r.blocks) : r.check payloads = .ok () := by
  rw [Record.check, if_neg (not_not_intro tiled.length_eq)]
  split
  · rename_i found
    have undescribed := List.find?_some found
    simp [tiled.describes _ (List.mem_of_find?_eq_some found)] at undescribed
  · rfl

/-! Payloads behind one segment -/

theorem addPayload_end {partition : Hardware.Partition} (full : run.start < run.stop)
    (filled : p.data ≠ []) (touching : base + offset = run.stop)
    (bound : run.stop + p.data.length ≤ Word.limit) :
    Bundle.addPayload base ⟨[run]⟩ (p.block partition offset, p) =
      .ok ⟨[run.append p.data.toArray]⟩ := by
  have size := List.length_pos_iff.mpr filled
  have start := p.block_offset partition (show offset < Word.limit by omega)
  have low : base + offset < Word.limit := by omega
  simp only [Bundle.addPayload, addressBehind, start, low, ↓reduceIte, bind, Except.bind,
    Image.write_touching full touching (touching ▸ bound), Failure.lift]

theorem addPayload_overflow (partition : Hardware.Partition) (filled : p.data ≠ [])
    (small : offset + p.data.length < Word.limit) (touching : base + offset = run.stop)
    (long : Word.limit < run.stop + p.data.length) :
    ∃ address length, Bundle.addPayload base ⟨[run]⟩ (p.block partition offset, p) =
      .error (.image (.overflow address length)) := by
  have start := p.block_offset partition (show offset < Word.limit by omega)
  simp only [Bundle.addPayload, addressBehind, start, bind, Except.bind]
  by_cases low : base + offset < Word.limit
  · have behind : Word.limit < base + offset + p.data.length := touching ▸ long
    simp only [low, ↓reduceIte, Image.write_overflow filled behind, Failure.lift]
    exact ⟨_, _, rfl⟩
  · simp only [low, ↓reduceIte]
    exact ⟨_, _, rfl⟩

theorem addPayloads_end (tiled : Tiled table offset payloads blocks)
    (full : run.start < run.stop) (touching : base + offset = run.stop)
    (bound : run.stop + (Payload.join payloads).length ≤ Word.limit) :
    (blocks.zip payloads).foldlM (Bundle.addPayload base) ⟨[run]⟩ =
      .ok ⟨[run.append (Payload.join payloads).toArray]⟩ := by
  induction tiled generalizing run with
  | nil => simp [Segment.append, pure, Except.pure]
  | @cons offset p rest blocks partition _ filled small _ ih =>
    rw [Payload.join_cons, List.length_append] at bound
    have stop : (run.append p.data.toArray).stop = run.stop + p.data.length := by
      rw [Segment.stop_append, List.size_toArray]
    rw [List.zip_cons_cons, List.foldlM_cons,
      addPayload_end full filled touching (by omega)]
    refine (ih (Segment.start_lt_stop_append full _) (by omega) (by omega)).trans ?_
    simp [Segment.append]

theorem addPayloads_overflow (tiled : Tiled table offset payloads blocks)
    (full : run.start < run.stop) (touching : base + offset = run.stop)
    (inside : run.stop ≤ Word.limit)
    (long : Word.limit < run.stop + (Payload.join payloads).length) :
    ∃ address length, (blocks.zip payloads).foldlM (Bundle.addPayload base) ⟨[run]⟩ =
      .error (.image (.overflow address length)) := by
  induction tiled generalizing run with
  | nil => simp at long; omega
  | @cons offset p rest blocks partition _ filled small _ ih =>
    rw [Payload.join_cons, List.length_append] at long
    have stop : (run.append p.data.toArray).stop = run.stop + p.data.length := by
      rw [Segment.stop_append, List.size_toArray]
    rw [List.zip_cons_cons, List.foldlM_cons]
    by_cases bound : run.stop + p.data.length ≤ Word.limit
    · rw [addPayload_end full filled touching bound]
      exact ih (Segment.start_lt_stop_append full _) (by omega) (by omega) (by omega)
    · obtain ⟨address, length, failed⟩ :=
        addPayload_overflow partition filled small touching (by omega)
      rw [failed]
      exact ⟨address, length, rfl⟩

/-! The whole bundle -/

theorem encode_ne_nil (r : Record) : r.encode ≠ [] := by
  simp [Record.encode, Record.body, magic]

theorem full_encode (r : Record) (start : Nat) :
    (⟨start, r.encode.toArray⟩ : Segment).start < (⟨start, r.encode.toArray⟩ : Segment).stop :=
  Nat.lt_add_of_pos_right (List.length_pos_iff.mpr (encode_ne_nil r))

variable {installer : Image} {last : Nat}

theorem make_empty (checked : r.check payloads = .ok ()) :
    Bundle.make Image.empty r payloads = .error (.inconsistent .emptyInstaller) := by
  rw [Bundle.make, checked]
  rfl

/-- The record and the payloads stand behind the installer without a gap. -/
theorem make_fits (tiled : Tiled table 0 payloads r.blocks) (some_bytes : 0 < r.payloadSize)
    (top : installer.maxAddress? = some last)
    (fits : last + 1 + r.encode.length + r.payloadSize ≤ Word.limit) :
    Bundle.make installer r payloads = .ok
      { recordAddress := last + 1
        payloadAddress := last + 1 + r.encode.length
        record := ⟨[⟨last + 1, r.encode.toArray⟩]⟩
        combined := ⟨[⟨last + 1, (r.encode ++ Payload.join payloads).toArray⟩]⟩ } := by
  have filled := List.length_pos_iff.mpr (encode_ne_nil r)
  have total := tiled.payloadSize_eq
  have first : ¬Word.limit ≤ last + 1 := by omega
  have second : last + 1 + r.encode.length < Word.limit := by omega
  have record : Image.ofBytes (last + 1) r.encode = .ok ⟨[⟨last + 1, r.encode.toArray⟩]⟩ :=
    Image.ofBytes_ok (encode_ne_nil r) (by omega)
  have combined : (r.blocks.zip payloads).foldlM (Bundle.addPayload (last + 1 + r.encode.length))
      ⟨[⟨last + 1, r.encode.toArray⟩]⟩ =
        .ok ⟨[Segment.append ⟨last + 1, r.encode.toArray⟩ (Payload.join payloads).toArray]⟩ :=
    addPayloads_end tiled (full_encode r _) rfl (total ▸ fits)
  simp only [Bundle.make, tiled.check, Failure.lift, top, first, addressBehind, second, record,
    combined, bind, Except.bind, pure, Except.pure, ↓reduceIte, Segment.append,
    List.append_toArray]

theorem make_overflow (tiled : Tiled table 0 payloads r.blocks)
    (top : installer.maxAddress? = some last)
    (long : Word.limit < last + 1 + r.encode.length + r.payloadSize) :
    ∃ address length,
      Bundle.make installer r payloads = .error (.image (.overflow address length)) := by
  have total := tiled.payloadSize_eq
  simp only [Bundle.make, tiled.check, Failure.lift, top, addressBehind, bind, Except.bind]
  -- No address is left for the record, or none behind it, or else a payload does not fit.
  by_cases first : Word.limit ≤ last + 1
  · simp only [first, ↓reduceIte]
    exact ⟨_, _, rfl⟩
  · by_cases second : last + 1 + r.encode.length < Word.limit
    · have record : Image.ofBytes (last + 1) r.encode = .ok ⟨[⟨last + 1, r.encode.toArray⟩]⟩ :=
        Image.ofBytes_ok (encode_ne_nil r) (by omega)
      obtain ⟨address, length, failed⟩ : ∃ address length, (r.blocks.zip payloads).foldlM
          (Bundle.addPayload (last + 1 + r.encode.length)) ⟨[⟨last + 1, r.encode.toArray⟩]⟩ =
            .error (.image (.overflow address length)) :=
        addPayloads_overflow tiled (full_encode r _) rfl (Nat.le_of_lt second) (total ▸ long)
      simp only [first, second, record, failed, ↓reduceIte]
      exact ⟨address, length, rfl⟩
    · simp only [first, second, ↓reduceIte]
      exact ⟨_, _, rfl⟩

theorem fits_of_make {b : Bundle} (tiled : Tiled table 0 payloads r.blocks)
    (top : installer.maxAddress? = some last)
    (success : Bundle.make installer r payloads = .ok b) :
    last + 1 + r.encode.length + r.payloadSize ≤ Word.limit := by
  by_contra long
  obtain ⟨_, _, failed⟩ := make_overflow tiled top (Nat.lt_of_not_le long)
  rw [failed] at success
  contradiction

/-- A bundle is made exactly if there is an installer and all of record and payloads fits behind
its highest address. Record and payloads are then one segment from there on. -/
theorem make_bundle_layout {softDevice : Payload} {loader : Option Payload}
    (reachable : installer.Reachable) (made : Record.make table softDevice loader = .ok r) :
    ((∃ b, Bundle.make installer r (softDevice :: loader.toList) = .ok b) ↔
      ∃ last, installer.Highest last ∧
        last + 1 + r.encode.length + r.payloadSize ≤ Word.limit) ∧
    (∀ b last, Bundle.make installer r (softDevice :: loader.toList) = .ok b →
      installer.Highest last →
      b.recordAddress = last + 1 ∧ b.payloadAddress = last + 1 + r.encode.length ∧
      b.record = ⟨[⟨last + 1, r.encode.toArray⟩]⟩ ∧
      b.combined = ⟨[⟨last + 1,
        (r.encode ++ Payload.join (softDevice :: loader.toList)).toArray⟩]⟩) ∧
    (installer = Image.empty →
      Bundle.make installer r (softDevice :: loader.toList) =
        .error (.inconsistent .emptyInstaller)) ∧
    ∀ last, installer.Highest last →
      Word.limit < last + 1 + r.encode.length + r.payloadSize →
      ∃ address length, Bundle.make installer r (softDevice :: loader.toList) =
        .error (.image (.overflow address length)) := by
  have normal := reachable.normal
  have tiled : Tiled table 0 (softDevice :: loader.toList) r.blocks := ofPayloads_ok_iff.mp made
  have top : ∀ {last}, installer.Highest last → installer.maxAddress? = some last :=
    normal.maxAddress?_eq_some_iff.mpr
  have empty : installer = Image.empty → Bundle.make installer r (softDevice :: loader.toList) =
      .error (.inconsistent .emptyInstaller) := by
    rintro rfl
    exact make_empty tiled.check
  refine ⟨⟨?_, ?_⟩, ?_, empty, fun last highest long => make_overflow tiled (top highest) long⟩
  · rintro ⟨b, success⟩
    cases found : installer.maxAddress? with
    | none =>
      rw [empty (Image.maxAddress?_eq_none_iff.mp found)] at success
      contradiction
    | some last =>
      exact ⟨last, normal.maxAddress?_eq_some_iff.mp found, fits_of_make tiled found success⟩
  · rintro ⟨last, highest, fits⟩
    exact ⟨_, make_fits tiled tiled.payloadSize_pos (top highest) fits⟩
  · intro b last success highest
    have fits := fits_of_make tiled (top highest) success
    rw [make_fits tiled tiled.payloadSize_pos (top highest) fits] at success
    obtain rfl := Except.ok.inj success
    exact ⟨rfl, rfl, rfl, rfl⟩

/-- The last payload may end at the last address. -/
theorem make_bundle_layout_at_top :
    ((Image.empty.attempt 0x100 [0x11]).attempt 0xFFFFFFC5 [0x22]).Reachable ∧
      ∃ b, Bundle.make ((Image.empty.attempt 0x100 [0x11]).attempt 0xFFFFFFC5 [0x22])
        ⟨[tinyBlock, tinyLoaderBlock 0x55000]⟩ [tinySoftDevice, tinyLoader] = .ok b := by
  have reachable : ((Image.empty.attempt 0x100 [0x11]).attempt 0xFFFFFFC5 [0x22]).Reachable :=
    .attempt _ _ (.attempt _ _ .empty)
  have highest := reachable.normal.maxAddress?_eq_some_iff.mp (Eq.refl (some 0xFFFFFFC5))
  have layout := make_bundle_layout reachable (make_tiny 0x55000)
  exact ⟨reachable, layout.1.mpr ⟨_, highest, by decide⟩⟩

end FirmwareMeta.Update
