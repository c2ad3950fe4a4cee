import FirmwareMeta.Command.Run
import FirmwareMeta.Proofs.Build.Artifacts
import FirmwareMeta.Proofs.Build.Saving

/-! What a run leaves on the file system: all of its outputs, or nothing that was not there. -/
namespace FirmwareMeta.Command

open Build FileSystem

variable {styled : Bool} {arguments : List String} {w w' : World} {selection : Selection}
  {layout : Layout} {outcome : Except RunError Unit}

/-- The plan of a run with some arguments in a world. -/
def Planned (w : World) (arguments : List String) (plan : Plan) : Prop :=
  ∃ invocation, parse arguments = .ok invocation ∧
    (w.run (Plan.ofInvocation invocation)).1 = .ok plan

theorem Planned.unique {plan plan' : Plan} (first : Planned w arguments plan)
    (second : Planned w arguments plan') : plan = plan' := by
  obtain ⟨invocation, parsed, made⟩ := first
  obtain ⟨invocation', parsed', made'⟩ := second
  obtain rfl := Except.ok.inj (parsed.symm.trans parsed')
  exact Except.ok.inj (made.symm.trans made')

theorem uses_dump (input : Path) : Uses Operation.Spares (dump styled input) := by
  refine .bind (.adapt (uses_loadImage input).spares) fun image => ?_
  refine .bind (.adapt (Job.uses_ofExcept _).spares) fun text => ?_
  refine .bind (.ask trivial) fun answer => ?_
  cases answer with
  | ok _ => exact .pure _
  | error e => exact .throw _

/-- A run that gets as far as a plan carries it out with the files as they were. -/
theorem run_cases (ran : w.run (run styled arguments) = (outcome, w')) :
    (∃ e, outcome = .error e ∧ w'.files = w.files) ∨
      ∃ (plan : Plan) (middle : World), Planned w arguments plan ∧ middle.files = w.files ∧
        middle.run (plan.run styled) = (outcome, w') := by
  unfold run at ran
  cases parsed : parse arguments with
  | error usage =>
    simp only [parsed] at ran
    obtain ⟨rfl, rfl⟩ := Prod.mk.inj ran
    exact Or.inl ⟨_, rfl, rfl⟩
  | ok invocation =>
    simp only [parsed] at ran
    have files := (Plan.uses_ofInvocation invocation).spares.files (w := w)
    rw [World.run_bind, World.run_adapt] at ran
    cases made : (w.run (Plan.ofInvocation invocation)).1 with
    | error e =>
      rw [made] at ran
      obtain ⟨rfl, rfl⟩ := Prod.mk.inj ran
      exact Or.inl ⟨_, rfl, files⟩
    | ok plan =>
      rw [made] at ran
      exact Or.inr ⟨plan, _, ⟨invocation, parsed, made⟩, files, ran⟩

/-- A build fails before anything is saved, has nothing to save, or saves all that it makes. -/
theorem build_cases (ran : w.run (build selection layout) = (outcome, w')) :
    (∃ f, outcome = .error (.failure f) ∧ w'.files = w.files) ∨
    (outcome = .ok () ∧ w'.files = w.files ∧ SoftDeviceDisabled w.files layout) ∨
    ∃ (c : Context) (artifacts : List Artifact) (middle : World)
      (result : Except SaveError Unit), (w.run (Context.load layout)).1 = .ok (some c) ∧
      (w.run (c.artifacts selection)).1 = .ok artifacts ∧ middle.files = w.files ∧
      middle.run (save (artifacts.map fun a => (a.path, IntelHex.print a.image))) = (result, w') ∧
      outcome = result.mapError .save := by
  unfold build at ran
  have files := (Context.uses_load layout).spares.files (w := w)
  rw [World.run_bind, World.run_adapt] at ran
  rcases loaded : w.run (Context.load layout) with ⟨made, middle⟩
  rw [loaded] at ran files
  cases made with
  | error f =>
    obtain ⟨rfl, rfl⟩ := Prod.mk.inj ran
    exact Or.inl ⟨f, rfl, files⟩
  | ok made =>
    cases made with
    | none =>
      obtain ⟨rfl, rfl⟩ := Prod.mk.inj ran
      exact Or.inr (Or.inl ⟨rfl, files, (Context.run_load_ok loaded).mp rfl⟩)
    | some c =>
      have looks := c.uses_artifacts selection
      have files' := looks.spares.files (w := middle)
      have value : (middle.run (c.artifacts selection)).1 = (w.run (c.artifacts selection)).1 :=
        looks.value files
      simp only [Except.mapError] at ran
      rw [World.run_bind, World.run_adapt] at ran
      rcases computed : middle.run (c.artifacts selection) with ⟨artifacts, after⟩
      rw [computed] at ran files' value
      cases artifacts with
      | error f =>
        obtain ⟨rfl, rfl⟩ := Prod.mk.inj ran
        exact Or.inl ⟨f, rfl, files'.trans files⟩
      | ok artifacts =>
        simp only [Except.mapError] at ran
        rw [World.run_adapt] at ran
        obtain ⟨rfl, rfl⟩ := Prod.mk.inj ran
        exact Or.inr (Or.inr
          ⟨c, artifacts, after, _, rfl, value.symm, files'.trans files, rfl, rfl⟩)

/-- A small build without a firmware loader. -/
def sampleEntries : List (Location × Entry) :=
  [(["b"], .directory), (["zephyr", "b"], .directory), (["a", "b"], .directory),
    (["zephyr", "a", "b"], .directory), (["installer", "b"], .directory),
    (["zephyr", "installer", "b"], .directory),
    (["CMakeCache.txt", "b"], .file "APP_DIR:PATH=a\n".toUTF8),
    ([".config", "zephyr", "b"], .file "SB_CONFIG_BM_FIRMWARE_LOADER_NONE=y\n".toUTF8),
    ([".config", "zephyr", "a", "b"], .file "".toUTF8),
    (["zephyr.dts", "zephyr", "a", "b"],
      .file "/\x7bsoftdevice_partition:s\x7breg=<1 2>;\x7d;\x7d;".toUTF8),
    (["softdevice.signed.hex", "b"], .file ":0100000001FE\n:00000001FF\n".toUTF8),
    ([".config", "zephyr", "installer", "b"], .file "CONFIG_KERNEL_BIN_NAME=i\n".toUTF8),
    (["i.hex", "zephyr", "installer", "b"], .file ":0100000001FE\n:00000001FF\n".toUTF8)]

/-- The small build with one more entry. -/
def sampleWorld (extra : Location × Entry) : World :=
  ⟨⟨sampleEntries ++ [extra], []⟩, ⟨none, .notText, ""⟩, [], .first⟩

def sampleArguments : List String := ["update", "--build-dir", "b"]

/-- A directory is in the place of the last output. -/
def blocked : World := sampleWorld (["combined_signed_update_images.hex", "b"], .directory)

/-- An earlier run left the first output. -/
def rebuilt : World := sampleWorld (["metadata.hex", "b"], .file "old".toUTF8)

/-- Two outputs have different paths and one place. -/
def aliased : World := sampleWorld (["bm-metadata.toml", "b"], .file
  "metadata_output = \"zephyr/../c.hex\"\ncombined_output = \"c.hex\"\n".toUTF8)

def aliasedLayout : Layout :=
  { Layout.standard ⟨"b"⟩ with
    recordOutput := ⟨"b/zephyr/../c.hex"⟩
    bundleOutput := ⟨"b/c.hex"⟩ }

/-- What is saved are the images of all outputs that are asked for. -/
theorem serves_requested {c : Context} {artifacts : List Artifact}
    (loaded : (w.run (Context.load layout)).1 = .ok (some c))
    (computed : (w.run (c.artifacts selection)).1 = .ok artifacts) :
    Serves artifacts (layout.requested selection) := by
  rw [← Context.gives_load layout w _ _ (Prod.ext loaded rfl) c rfl]
  exact c.gives_artifacts selection w _ _ (Prod.ext computed rfl)

/-- A run that fails leaves all files as they were, unless an output cannot be moved into place.
Then the outputs that were moved before it are gone, and all else is as it was. A run of a build
without a SoftDevice changes nothing. -/
theorem failed_run_leaves_no_output (sound : w.files.WellFormed)
    (ran : w.run (run styled arguments) = (outcome, w')) :
    (∀ e, outcome = .error e → w'.files = w.files ∨
      ∃ path cause selection layout front back, e = .save (.move path cause) ∧
        Planned w arguments (.build selection layout) ∧
        layout.requested selection = front ++ path :: back ∧
        RolledBack front w.files w'.files) ∧
    ∀ selection layout, Planned w arguments (.build selection layout) →
      SoftDeviceDisabled w.files layout → w'.files = w.files := by
  rcases run_cases ran with ⟨_, rfl, files⟩ | ⟨plan, middle, planned, files, carried_out⟩
  · exact ⟨fun _ _ => Or.inl files, fun _ _ _ _ => files⟩
  cases plan with
  | dump input =>
    have spared : (middle.run (Plan.run styled (.dump input))).2.files = middle.files :=
      (uses_dump input).files
    rw [carried_out] at spared
    exact ⟨fun _ _ => Or.inl (spared.trans files), fun _ _ _ _ => spared.trans files⟩
  | build selection layout =>
    rcases build_cases carried_out with ⟨f, rfl, same⟩ | ⟨rfl, same, _⟩ |
      ⟨c, artifacts, after, result, loaded, computed, same, saved, rfl⟩
    · exact ⟨fun _ _ => Or.inl (same.trans files), fun _ _ _ _ => same.trans files⟩
    · exact ⟨fun _ _ => Or.inl (same.trans files), fun _ _ _ _ => same.trans files⟩
    · rw [files] at same
      have serves := serves_requested loaded computed
      constructor
      · intro e failed
        cases result with
        | ok _ => contradiction
        | error cause =>
          obtain rfl := Except.error.inj failed
          rcases save_error (same ▸ sound.rooted) saved with ⟨_, _, _, kept⟩ |
            ⟨front, t, back, cause, texts, rfl, rolled⟩
          · exact Or.inl (kept.trans same)
          · have paths := congrArg (List.map (·.1)) texts
            simp only [List.map_map, List.map_append, List.map_cons] at paths
            refine Or.inr ⟨t.1, cause, selection, layout, front.map (·.1), back.map (·.1), rfl,
              planned, ?_, same ▸ rolled⟩
            rw [← serves.1, ← paths]
            rfl
      · intro selection' layout' planned' disabled
        obtain ⟨rfl, rfl⟩ := Plan.build.inj (planned'.unique planned)
        rw [← files] at disabled
        have none := (Context.run_load_ok (Prod.ext loaded rfl)).mpr disabled
        contradiction

/-- The second output is a directory, so the first one is taken back. -/
theorem failed_run_leaves_no_output_at_directory :
    ∃ w', blocked.run (run false sampleArguments) =
        (.error (.save (.move ⟨"b/combined_signed_update_images.hex"⟩ .isDirectory)), w') ∧
      ∀ q, w'.files.get? q = blocked.files.get? q ∨ w'.files.get? q = none := by
  have sound : blocked.files.WellFormed := by decide +kernel
  have failed : (blocked.run (run false sampleArguments)).1 =
      .error (.save (.move ⟨"b/combined_signed_update_images.hex"⟩ .isDirectory)) := by
    decide +kernel
  generalize result : blocked.run (run false sampleArguments) = ended at failed ⊢
  obtain ⟨outcome, w'⟩ := ended
  obtain rfl : outcome = _ := failed
  refine ⟨w', rfl, fun q => ?_⟩
  rcases (failed_run_leaves_no_output sound result).1 _ rfl with
    same | ⟨_, _, _, _, _, _, _, _, _, rolled⟩
  · exact Or.inl (congrArg (·.get? q) same)
  · exact (rolled.places q).imp_right And.left

/-- A run that ends well leaves the image of each output that is asked for at its path, and all
else as it was, if the paths name different files and none has the name of a temporary one. -/
theorem saved_run_holds_artifacts (sound : w.files.WellFormed)
    (planned : Planned w arguments (.build selection layout))
    (enabled : ¬SoftDeviceDisabled w.files layout)
    (apart : (layout.requested selection).Pairwise fun p q =>
      ∀ place, w.files.Names p place → ¬w.files.Names q place)
    (ordinary : ∀ p ∈ layout.requested selection, ∀ name directory,
      w.files.Names p (name :: directory) → isTemporary name = false)
    (ran : w.run (run styled arguments) = (.ok (), w')) :
    ∃ c artifacts, (w.run (Context.load layout)).1 = .ok (some c) ∧
      (w.run (c.artifacts selection)).1 = .ok artifacts ∧
      artifacts.map (·.path) = layout.requested selection ∧
      (∀ a ∈ artifacts, (w'.run (loadImage a.path)).1 = .ok a.image) ∧
      ∀ place, (∀ p ∈ layout.requested selection, ¬w.files.Names p place) →
        w'.files.get? place = w.files.get? place := by
  rcases run_cases ran with ⟨_, failed, _⟩ | ⟨plan, middle, planned', files, carried_out⟩
  · contradiction
  obtain rfl := planned.unique planned'
  rcases build_cases carried_out with ⟨_, failed, _⟩ | ⟨_, _, disabled⟩ |
    ⟨c, artifacts, after, result, loaded, computed, same, saved, outcome⟩
  · contradiction
  · exact absurd (files ▸ disabled) enabled
  · cases result with
    | error e => contradiction
    | ok _ =>
      have serves := serves_requested loaded computed
      rw [(Context.uses_load layout).value files] at loaded
      rw [(c.uses_artifacts selection).value files] at computed
      rw [files] at same
      rw [← serves.1, List.pairwise_map, ← same] at apart
      rw [← serves.1, List.forall_mem_map, ← same] at ordinary
      obtain ⟨tree, held, kept⟩ := save_ok (same ▸ sound.rooted) saved
        (List.pairwise_map.mpr apart) (List.forall_mem_map.mpr ordinary)
      rw [List.forall_mem_map] at held
      refine ⟨c, artifacts, loaded, computed, serves.1, fun a listed => ?_, fun place unnamed => ?_⟩
      · obtain ⟨place, named, content⟩ := held a listed
        exact run_loadImage_print (tree.names_iff.mpr named) (serves.2 a listed) content
      · rw [← serves.1, List.forall_mem_map] at unnamed
        rw [← same]
        exact kept place (List.forall_mem_map.mpr fun a listed => same ▸ unnamed a listed)

theorem saved_run_holds_artifacts_again :
    ∃ (w' : World) (artifacts : List Artifact),
      rebuilt.run (run false sampleArguments) = (.ok (), w') ∧
      artifacts.map (·.path.text) =
        ["b/metadata.hex", "b/combined_signed_update_images.hex"] ∧
      ∀ a ∈ artifacts, (w'.run (loadImage a.path)).1 = .ok a.image := by
  have sound : rebuilt.files.WellFormed := by decide +kernel
  have planned : Planned rebuilt sampleArguments (.build .update (.standard ⟨"b"⟩)) :=
    ⟨⟨.build .update ⟨⟨"b"⟩, none, none, none⟩, false, none⟩, by decide +kernel, by decide +kernel⟩
  have enabled : ¬SoftDeviceDisabled rebuilt.files (.standard ⟨"b"⟩) := by decide +kernel
  have record : rebuilt.files.Names ⟨"b/metadata.hex"⟩ ["metadata.hex", "b"] := by
    decide +kernel
  have bundle : rebuilt.files.Names ⟨"b/combined_signed_update_images.hex"⟩
      ["combined_signed_update_images.hex", "b"] := by
    decide +kernel
  have requested : (Layout.standard ⟨"b"⟩).requested .update =
      [⟨"b/metadata.hex"⟩, ⟨"b/combined_signed_update_images.hex"⟩] := by
    decide +kernel
  have ran : (rebuilt.run (run false sampleArguments)).1 = .ok () := by decide +kernel
  have apart : ((Layout.standard ⟨"b"⟩).requested .update).Pairwise fun p q =>
      ∀ place, rebuilt.files.Names p place → ¬rebuilt.files.Names q place := by
    rw [requested, List.pairwise_pair]
    intro place first second
    have same := (first.unique record).symm.trans (second.unique bundle)
    revert same
    decide
  have ordinary : ∀ p ∈ (Layout.standard ⟨"b"⟩).requested .update, ∀ name directory,
      rebuilt.files.Names p (name :: directory) → isTemporary name = false := by
    rw [requested, List.forall_mem_cons, List.forall_mem_singleton]
    refine ⟨fun name directory named => ?_, fun name directory named => ?_⟩
    · rw [(List.cons.inj (named.unique record)).1]
      decide +kernel
    · rw [(List.cons.inj (named.unique bundle)).1]
      decide +kernel
  generalize result : rebuilt.run (run false sampleArguments) = ended at ran ⊢
  obtain ⟨outcome, w'⟩ := ended
  obtain rfl : outcome = _ := ran
  obtain ⟨_, artifacts, _, _, paths, loaded, _⟩ :=
    saved_run_holds_artifacts sound planned enabled apart ordinary result
  refine ⟨w', artifacts, rfl, ?_, loaded⟩
  have texts := congrArg (List.map Path.text) (paths.trans requested)
  rwa [List.map_map] at texts

/-- The artifacts of a build in a world, if they can be made. -/
def artifacts? (w : World) (selection : Selection) (layout : Layout) :
    Option (List Artifact) := do
  let c ← (← (w.run (Context.load layout)).1.toOption)
  (w.run (c.artifacts selection)).1.toOption

theorem artifacts?_spec {artifacts : List Artifact}
    (made : artifacts? w selection layout = some artifacts) :
    ∃ c, (w.run (Context.load layout)).1 = .ok (some c) ∧
      (w.run (c.artifacts selection)).1 = .ok artifacts := by
  obtain ⟨found, loaded, rest⟩ := Option.bind_eq_some_iff.mp made
  obtain ⟨c, rfl, computed⟩ := Option.bind_eq_some_iff.mp rest
  exact ⟨c, toOption_eq_some_iff.mp loaded, toOption_eq_some_iff.mp computed⟩

/-- Two paths of one place are not taken for the same output: the second artifact replaces the
first one, and the run ends well. -/
theorem aliased_outputs_lose_record :
    aliased.files.WellFormed ∧
    Planned aliased sampleArguments (.build .update aliasedLayout) ∧
    ¬SoftDeviceDisabled aliased.files aliasedLayout ∧
    ∃ (w' : World) (c : Context) (artifacts : List Artifact),
      aliased.run (run false sampleArguments) = (.ok (), w') ∧
      (aliased.run (Context.load aliasedLayout)).1 = .ok (some c) ∧
      (aliased.run (c.artifacts .update)).1 = .ok artifacts ∧
      ∃ a ∈ artifacts, a.path ∈ aliasedLayout.requested .update ∧
        (w'.run (loadImage a.path)).1 ≠ .ok a.image := by
  have sound : aliased.files.WellFormed := by decide +kernel
  have planned : Planned aliased sampleArguments (.build .update aliasedLayout) :=
    ⟨⟨.build .update ⟨⟨"b"⟩, none, none, none⟩, false, none⟩, by decide +kernel, by decide +kernel⟩
  have enabled : ¬SoftDeviceDisabled aliased.files aliasedLayout := by decide +kernel
  have ran : (aliased.run (run false sampleArguments)).1 = .ok () := by decide +kernel
  have lost : (artifacts? aliased .update aliasedLayout).any (·.any fun a =>
      a.path ∈ aliasedLayout.requested .update ∧
        ((aliased.run (run false sampleArguments)).2.run (loadImage a.path)).1 ≠ .ok a.image) =
      true := by
    decide +kernel
  refine ⟨sound, planned, enabled, ?_⟩
  generalize aliased.run (run false sampleArguments) = ended at ran lost ⊢
  obtain ⟨outcome, w'⟩ := ended
  obtain rfl : outcome = _ := ran
  obtain ⟨artifacts, made, lost⟩ := (Option.any_eq_true _ _).mp lost
  obtain ⟨c, loaded, computed⟩ := artifacts?_spec made
  obtain ⟨a, listed, differs⟩ := List.any_eq_true.mp lost
  obtain ⟨requested, differs⟩ := of_decide_eq_true differs
  exact ⟨w', c, artifacts, rfl, loaded, computed, a, listed, requested, differs⟩

end FirmwareMeta.Command
