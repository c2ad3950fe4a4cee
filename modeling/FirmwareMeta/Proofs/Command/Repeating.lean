import FirmwareMeta.Proofs.Command.Making

/-! Runs after runs. A build that is run again ends the same way and changes nothing, and making all
is making the install entry and then the update. -/
namespace FirmwareMeta.Command

open Build FileSystem

variable {styled verbose : Bool} {arguments : List String} {w again : World} {selection : Selection}
  {options : BuildOptions} {config : Option Path} {texts : List (Path × String)} {middle : World}
  {result : Except SaveError Unit}

/-- No output that a run is to make is in the place of a file or directory that the run reads or
tests for. -/
def Clear (w : World) (styled : Bool) (arguments : List String) : Prop :=
  ∀ selection layout, Planned w arguments (.build selection layout) →
    ∀ operation ∈ w.operations (run styled arguments), ∀ p ∈ operation.consulted,
      ∀ o ∈ layout.requested selection, ¬w.files.Meets o p

theorem exitCode_eq_zero_iff {outcome : Except RunError Unit} :
    exitCode outcome = 0 ↔ outcome = .ok () := by
  cases outcome <;> simp [exitCode]

theorem exitCode_congr {outcome outcome' : Except RunError Unit}
    (same : outcome = .ok () ↔ outcome' = .ok ()) : exitCode outcome = exitCode outcome' := by
  cases outcome <;> cases outcome' <;> simp_all [exitCode]

theorem clear_of_planned {layout : Layout} (planned : Planned w arguments (.build selection layout))
    (off : ∀ operation ∈ w.operations (run styled arguments), ∀ p ∈ operation.consulted,
      ∀ o ∈ layout.requested selection, ¬w.files.Meets o p) : Clear w styled arguments := by
  intro selection' layout' planned'
  obtain ⟨rfl, rfl⟩ := Plan.build.inj (planned'.unique planned)
  exact off

theorem supplied_of_first {count : Nat} (first : w.temporaries = .first)
    (few : w.files.entries.length + count ≤ maxAttempts) : w.Supplied count where
  names fs place fewer := by
    rw [first]
    exact Naming.first_supplies fs place (Nat.lt_of_lt_of_le fewer few)
  room fs content _ := by
    rw [first]
    rfl

/-- No text goes to the place of a file or directory that a run reads or tests for. -/
def Avoids (w : World) (styled : Bool) (arguments : List String) (texts : List (Path × String)) :
    Prop :=
  ∀ operation ∈ w.operations (run styled arguments), ∀ p ∈ operation.consulted,
    ∀ t ∈ texts, ¬w.files.Meets t.1 p

/-- A part of what is asked for avoids what all of it avoids. -/
theorem Clear.avoids {part : Selection} (clear : Clear w styled arguments)
    (parsed : parse arguments = .ok ⟨.build selection options, verbose, config⟩)
    (within : ∀ layout : Layout, layout.requested part ⊆ layout.requested selection)
    (prepared : (w.run (prepare options config part)).1 = .ok texts) :
    Avoids w styled arguments texts := by
  obtain ⟨layout, found, rfl | requested⟩ := prepare_requested prepared
  · simp [Avoids]
  · intro operation performed p consulted t listed
    refine clear selection layout (planned_of_layoutOf parsed found) operation performed p consulted
      t.1 (within layout ?_)
    exact requested ▸ List.mem_map_of_mem listed

theorem Reaches.supplied (reaches : Reaches w middle styled arguments texts result)
    (supplied : w.Supplied 3)
    (prepared : (w.run (prepare options config selection)).1 = .ok texts) :
    middle.Supplied texts.length := by
  have all : middle.Supplied 3 := by
    unfold World.Supplied
    rw [reaches.files, reaches.temporaries]
    exact supplied
  exact all.mono (Nat.le_trans (length_prepared_le prepared) (by split <;> decide))

theorem Reaches.undisturbed (reaches : Reaches w middle styled arguments texts result)
    (avoids : Avoids w styled arguments texts) : Undisturbed middle texts := by
  intro operation performed
  rw [reaches.files]
  exact avoids operation (reaches.operations operation performed)

/-- What a run looked at is as it was when the run has ended. -/
theorem Reaches.kept (reaches : Reaches w middle styled arguments texts result)
    (avoids : Avoids w styled arguments texts) :
    SameTree w.files (w.run (run styled arguments)).2.files ∧
      ∀ operation ∈ w.operations (run styled arguments), ∀ p ∈ operation.consulted,
        AgreeAt w.files (w.run (run styled arguments)).2.files p := by
  obtain ⟨tree, kept⟩ := reaches.saves.kept (reaches.undisturbed avoids)
  rw [reaches.files] at tree kept
  refine ⟨tree, fun operation performed p consulted place led => kept place ?_⟩
  exact fun t listed named => avoids operation performed p consulted t listed ⟨place, named, led⟩

/-- The second run of a build finds what the first one found, and saves the same once more. -/
theorem run_build_again (sound : w.files.WellFormed)
    (parsed : parse arguments = .ok ⟨.build selection options, verbose, config⟩)
    (clear : Clear w styled arguments) (supplied : w.Supplied 3)
    (same : again.files = (w.run (run styled arguments)).2.files)
    (supplied_again : again.Supplied 3) :
    ((again.run (run styled arguments)).1 = .ok () ↔ (w.run (run styled arguments)).1 = .ok ()) ∧
      Same again.files (again.run (run styled arguments)).2.files := by
  have looks := uses_prepare options config selection
  rcases run_build styled sound.rooted parsed with ⟨e, failed, ended, files⟩ |
    ⟨texts, middle, result, prepared, reaches⟩
  · rw [files] at same
    rw [← looks.value same] at failed
    rcases run_build styled (same ▸ sound.rooted) parsed with ⟨e', _, ended', files'⟩ |
      ⟨_, _, _, prepared', _⟩
    · rw [ended, ended', files']
      exact ⟨by simp, .refl _⟩
    · rw [prepared'] at failed
      contradiction
  · have avoids := clear.avoids parsed (fun _ => List.Subset.refl _) prepared
    obtain ⟨tree, kept⟩ := reaches.kept avoids
    rw [← same] at tree kept
    have value := looks.toOption_eq tree fun operation performed =>
      kept operation (operations_prepare styled parsed operation performed)
    rw [prepared] at value
    have prepared_again := toOption_eq_some_iff.mp value
    rcases run_build styled (tree.rooted sound.rooted) parsed with ⟨_, failed, _⟩ |
      ⟨texts', middle', result', prepared', reaches'⟩
    · rw [prepared_again] at failed
      contradiction
    · obtain rfl := Except.ok.inj (prepared_again.symm.trans prepared')
      have first := reaches.saves
      rw [← same, ← reaches'.files] at first
      have second := first.again reaches'.saves (reaches.undisturbed avoids)
        (reaches.supplied supplied prepared) (reaches'.supplied supplied_again prepared')
      rw [reaches.ended, reaches'.ended, ← reaches'.files]
      exact second

/-- A build that is run a second time, on the files that the first run left, ends with the same
exit code and leaves them as they are, however the first run ended. -/
theorem run_again (sound : w.files.WellFormed)
    (generates : ∀ invocation input, parse arguments = .ok invocation →
      invocation.request ≠ .dump input)
    (clear : Clear w styled arguments) (supplied : w.Supplied 3)
    (same : again.files = (w.run (run styled arguments)).2.files)
    (supplied_again : again.Supplied 3) :
    exitCode (again.run (run styled arguments)).1 = exitCode (w.run (run styled arguments)).1 ∧
      Same (w.run (run styled arguments)).2.files (again.run (run styled arguments)).2.files := by
  rw [← same]
  cases parsed : parse arguments with
  | error usage =>
    have ends (w : World) : w.run (run styled arguments) = (.error (.usage usage), w) := by
      unfold run
      simp only [parsed]
      rfl
    rw [ends, ends]
    exact ⟨rfl, .refl _⟩
  | ok invocation =>
    obtain ⟨request, verbose, config⟩ := invocation
    cases request with
    | dump input => exact absurd rfl (generates _ input parsed)
    | build selection options =>
      obtain ⟨ended, kept⟩ := run_build_again sound parsed clear supplied same supplied_again
      exact ⟨exitCode_congr ended, kept⟩

/-- The options of the small build. -/
def sampleOptions : BuildOptions := ⟨⟨"b"⟩, none, none, none⟩

/-- What a run leaves that could not move its last output. -/
def takenBack : World := (blocked.run (run false sampleArguments)).2

/-- The record is removed again in both runs, as a directory is in the place of the other output. -/
theorem run_again_blocked :
    (blocked.run (run false sampleArguments)).1 =
      .error (.save (.move ⟨"b/combined_signed_update_images.hex"⟩ .isDirectory)) ∧
    exitCode (takenBack.run (run false sampleArguments)).1 = 1 ∧
    Same takenBack.files (takenBack.run (run false sampleArguments)).2.files := by
  have sound : blocked.files.WellFormed := by decide +kernel
  have parsed : parse sampleArguments = .ok ⟨.build .update sampleOptions, false, none⟩ := by
    decide +kernel
  have ran : (blocked.run (Plan.ofInvocation ⟨.build .update sampleOptions, false, none⟩)).1 =
        .ok (.build .update (.standard ⟨"b"⟩)) ∧
      (∀ operation ∈ blocked.operations (run false sampleArguments),
        ∀ p ∈ operation.consulted, ∀ o ∈ (Layout.standard ⟨"b"⟩).requested .update,
          ¬blocked.files.Meets o p) ∧
      (blocked.run (run false sampleArguments)).1 =
        .error (.save (.move ⟨"b/combined_signed_update_images.hex"⟩ .isDirectory)) ∧
      takenBack.files.entries.length < 99 := by
    decide +kernel
  obtain ⟨planned, off, ended, few⟩ := ran
  have generates : ∀ invocation input, parse sampleArguments = .ok invocation →
      invocation.request ≠ .dump input := by
    intro invocation input found
    obtain rfl := Except.ok.inj (parsed.symm.trans found)
    simp
  have first : takenBack.temporaries = blocked.temporaries := by
    rw [takenBack, World.temporaries_run]
  have files : takenBack.files = (blocked.run (run false sampleArguments)).2.files := by
    rw [takenBack]
  obtain ⟨codes, same⟩ := run_again sound generates (clear_of_planned ⟨_, parsed, planned⟩ off)
    (supplied_of_first rfl (by decide +kernel)) files
    (supplied_of_first first (by simp only [maxAttempts]; omega))
  rw [ended] at codes
  rw [← files] at same
  exact ⟨ended, codes, same⟩

/-! Parts of a build, one after the other -/

/-- What is asked for can be made, staged and moved into place. -/
def Feasible (w : World) (options : BuildOptions) (config : Option Path) (selection : Selection) :
    Prop :=
  ∃ texts, (w.run (prepare options config selection)).1 = .ok texts ∧
    ∀ t ∈ texts, Stageable w.files t.1 ∧ Movable w.files t.1

theorem run_ok_iff_feasible (rooted : w.files.Rooted) (supplied : w.Supplied 3)
    (parsed : parse arguments = .ok ⟨.build selection options, verbose, config⟩) :
    (w.run (run styled arguments)).1 = .ok () ↔ Feasible w options config selection := by
  rcases run_build styled rooted parsed with ⟨e, failed, ended, _⟩ |
    ⟨texts, middle, result, prepared, reaches⟩
  · simp [Feasible, failed, ended]
  · have saved := reaches.saves.ok_iff (reaches.supplied supplied prepared)
    simp only [Feasible, reaches.ended, saved, reaches.files, prepared, Except.ok.injEq,
      exists_eq_left']

theorem feasible_all_iff : Feasible w options config .all ↔
    Feasible w options config .entry ∧ Feasible w options config .update := by
  simp only [Feasible, prepare_all_ok_iff]
  constructor
  · rintro ⟨_, ⟨entry, update, first, second, rfl⟩, fine⟩
    rw [List.forall_mem_append] at fine
    exact ⟨⟨entry, first, fine.1⟩, ⟨update, second, fine.2⟩⟩
  · rintro ⟨⟨entry, first, fine⟩, ⟨update, second, fine'⟩⟩
    exact ⟨_, ⟨entry, update, first, second, rfl⟩, List.forall_mem_append.mpr ⟨fine, fine'⟩⟩

/-- A run that ends well leaves its texts in place. -/
theorem run_updated (rooted : w.files.Rooted)
    (parsed : parse arguments = .ok ⟨.build selection options, verbose, config⟩)
    (ended : (w.run (run styled arguments)).1 = .ok ())
    (prepared : (w.run (prepare options config selection)).1 = .ok texts)
    (avoids : texts.length ≤ 1 ∨ Avoids w styled arguments texts) :
    Updated texts w.files (w.run (run styled arguments)).2.files := by
  rcases run_build styled rooted parsed with ⟨e, _, failed, _⟩ |
    ⟨texts', middle, result, prepared', reaches⟩
  · rw [failed] at ended
    contradiction
  · obtain rfl := Except.ok.inj (prepared.symm.trans prepared')
    obtain rfl := reaches.ended.mp ended
    have saves := reaches.saves
    rcases avoids with single | avoids
    · exact reaches.files ▸ saves.updated_of_length single
    · exact reaches.files ▸ saves.updated (reaches.undisturbed avoids)

/-- Where an install entry goes, nothing is looked for that the update is made from. -/
theorem prepare_update_after_entry {second : World} (clear : Clear w styled arguments)
    (parsed : parse arguments = .ok ⟨.build .all options, verbose, config⟩)
    (prepared : (w.run (prepare options config .entry)).1 = .ok texts)
    (updated : Updated texts w.files second.files) :
    (second.run (prepare options config .update)).1.toOption =
      (w.run (prepare options config .update)).1.toOption := by
  have avoids : Avoids w styled arguments texts :=
    clear.avoids parsed (fun _ => List.subset_append_left _ _) prepared
  refine (uses_prepare options config .update).toOption_eq updated.tree ?_
  intro operation performed p consulted place led
  have also := operations_prepare styled parsed operation
    (operations_prepare_update prepared performed)
  refine updated.kept fun t listed named => ?_
  exact avoids operation also p consulted t listed ⟨place, named, led⟩

/-- Making all is making the install entry and then the update: it ends well exactly if the two
runs do, and then leaves the same files. -/
theorem all_is_entry_then_update {all entry update : List String} {verbose' verbose'' : Bool}
    {first second : World} (sound : w.files.WellFormed)
    (parsed_all : parse all = .ok ⟨.build .all options, verbose, config⟩)
    (parsed_entry : parse entry = .ok ⟨.build .entry options, verbose', config⟩)
    (parsed_update : parse update = .ok ⟨.build .update options, verbose'', config⟩)
    (same : first.files = w.files)
    (next : second.files = (first.run (run styled entry)).2.files)
    (clear : Clear w styled all) (clear_update : Clear second styled update)
    (supplied : w.Supplied 3) (supplied_first : first.Supplied 3)
    (supplied_second : second.Supplied 3) :
    (exitCode (w.run (run styled all)).1 = 0 ↔
      exitCode (first.run (run styled entry)).1 = 0 ∧
        exitCode (second.run (run styled update)).1 = 0) ∧
    (exitCode (w.run (run styled all)).1 = 0 →
      Same (w.run (run styled all)).2.files (second.run (run styled update)).2.files) := by
  have rooted := sound.rooted
  have value := (uses_prepare options config .entry).value same
  have ends_entry : (first.run (run styled entry)).1 = .ok () ↔
      Feasible w options config .entry := by
    rw [run_ok_iff_feasible (same ▸ rooted) supplied_first parsed_entry, Feasible, value, same,
      Feasible]
  -- What the first of the two runs leaves to the second one.
  have between (ended : (first.run (run styled entry)).1 = .ok ()) :
      ∃ texts, (w.run (prepare options config .entry)).1 = .ok texts ∧
        Updated texts w.files second.files := by
    obtain ⟨texts, prepared, _⟩ := ends_entry.mp ended
    have prepared_first := value.trans prepared
    have updated := run_updated (same ▸ rooted) parsed_entry ended prepared_first
      (Or.inl (length_prepared_le prepared))
    rw [← next, same] at updated
    exact ⟨texts, prepared, updated⟩
  simp only [exitCode_eq_zero_iff]
  have both : (w.run (run styled all)).1 = .ok () ↔ (first.run (run styled entry)).1 = .ok () ∧
      (second.run (run styled update)).1 = .ok () := by
    rw [run_ok_iff_feasible rooted supplied parsed_all, feasible_all_iff, ← ends_entry]
    refine and_congr_right fun ended => ?_
    obtain ⟨texts, prepared, updated⟩ := between ended
    have tree := updated.tree
    have made := prepare_update_after_entry clear parsed_all prepared updated
    rw [run_ok_iff_feasible (tree.rooted rooted) supplied_second parsed_update]
    simp only [Feasible, ← toOption_eq_some_iff, made, tree.stageable_iff, tree.movable_iff]
  refine ⟨both, fun ended => ?_⟩
  obtain ⟨ended_entry, ended_update⟩ := both.mp ended
  obtain ⟨front, prepared, updated⟩ := between ended_entry
  obtain ⟨_, prepared_all, _⟩ :=
    (run_ok_iff_feasible rooted supplied parsed_all).mp ended
  obtain ⟨front', back, prepared', prepared_back, rfl⟩ := prepare_all_ok_iff.mp prepared_all
  obtain rfl := Except.ok.inj (prepared.symm.trans prepared')
  have prepared_second : (second.run (prepare options config .update)).1 = .ok back := by
    rw [← toOption_eq_some_iff, prepare_update_after_entry clear parsed_all prepared updated,
      prepared_back, Except.toOption]
  have at_once := run_updated rooted parsed_all ended prepared_all
    (Or.inr (clear.avoids parsed_all (fun _ => List.Subset.refl _) prepared_all))
  have behind := run_updated (updated.tree.rooted rooted) parsed_update ended_update
    prepared_second
    (Or.inr (clear_update.avoids parsed_update (fun _ => List.Subset.refl _) prepared_second))
  exact at_once.unique (updated.append behind)

/-- The small build with all that an install entry takes, and with an old one. -/
def complete : World :=
  ⟨⟨(["flash_metadata.hex", "b"], .file "old".toUTF8) :: sampleEntries.map fun (place, e) =>
      if place = [".config", "zephyr", "a", "b"] then
        (place, .file "CONFIG_BM_INSTALL_ENTRY_SIZE=12\nCONFIG_BM_INSTALL_IMAGES=1\n".toUTF8)
      else if place = ["zephyr.dts", "zephyr", "a", "b"] then
        (place, .file ("/\x7bsoftdevice_partition:s\x7breg=<1 2>;\x7d;" ++
          "metadata_partition:m\x7breg=<0 16>;\x7d;\x7d;").toUTF8)
      else (place, e), []⟩, ⟨none, .notText, ""⟩, [], .first⟩

def allArguments : List String := ["all", "--build-dir", "b"]

def entryArguments : List String := ["flash", "--build-dir", "b"]

/-- The small build with a new install entry. -/
def flashed : World := (complete.run (run false entryArguments)).2

/-- All three runs end well, and the old entry is gone in both ways. -/
theorem all_is_entry_then_update_complete :
    exitCode (complete.run (run false allArguments)).1 = 0 ∧
    exitCode (complete.run (run false entryArguments)).1 = 0 ∧
    exitCode (flashed.run (run false sampleArguments)).1 = 0 ∧
    Same (complete.run (run false allArguments)).2.files
      (flashed.run (run false sampleArguments)).2.files := by
  have sound : complete.files.WellFormed := by decide +kernel
  have parsed_all : parse allArguments = .ok ⟨.build .all sampleOptions, false, none⟩ := by
    decide +kernel
  have parsed_entry : parse entryArguments = .ok ⟨.build .entry sampleOptions, false, none⟩ := by
    decide +kernel
  have parsed_update : parse sampleArguments =
      .ok ⟨.build .update sampleOptions, false, none⟩ := by decide +kernel
  have at_once : (complete.run (Plan.ofInvocation ⟨.build .all sampleOptions, false, none⟩)).1 =
        .ok (.build .all (.standard ⟨"b"⟩)) ∧
      (∀ operation ∈ complete.operations (run false allArguments),
        ∀ p ∈ operation.consulted, ∀ o ∈ (Layout.standard ⟨"b"⟩).requested .all,
          ¬complete.files.Meets o p) ∧
      exitCode (complete.run (run false allArguments)).1 = 0 := by
    decide +kernel
  have behind : (flashed.run (Plan.ofInvocation ⟨.build .update sampleOptions, false, none⟩)).1 =
        .ok (.build .update (.standard ⟨"b"⟩)) ∧
      (∀ operation ∈ flashed.operations (run false sampleArguments),
        ∀ p ∈ operation.consulted, ∀ o ∈ (Layout.standard ⟨"b"⟩).requested .update,
          ¬flashed.files.Meets o p) ∧
      flashed.files.entries.length < 99 := by
    decide +kernel
  obtain ⟨planned, off, ended⟩ := at_once
  obtain ⟨planned_update, off_update, few⟩ := behind
  have first : flashed.temporaries = complete.temporaries := by
    rw [flashed, World.temporaries_run]
  have supplied : complete.Supplied 3 := supplied_of_first rfl (by decide +kernel)
  have supplied_flashed : flashed.Supplied 3 :=
    supplied_of_first first (by simp only [maxAttempts]; omega)
  have next : flashed.files = (complete.run (run false entryArguments)).2.files := by rw [flashed]
  obtain ⟨both, same⟩ := all_is_entry_then_update sound parsed_all parsed_entry parsed_update rfl
    next (clear_of_planned ⟨_, parsed_all, planned⟩ off)
    (clear_of_planned ⟨_, parsed_update, planned_update⟩ off_update)
    supplied supplied supplied_flashed
  obtain ⟨ended_entry, ended_update⟩ := both.mp ended
  exact ⟨ended, ended_entry, ended_update, same ended⟩

end FirmwareMeta.Command
