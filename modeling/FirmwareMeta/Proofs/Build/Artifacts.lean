import FirmwareMeta.Proofs.Build.Looking
import FirmwareMeta.Proofs.FileSystem.Places
import FirmwareMeta.Proofs.Image.IntelHex.RoundTrip
import FirmwareMeta.Proofs.Failure

/-! What a build makes: an artifact for each path that is asked for, with an image that a file can
hold. -/
namespace FirmwareMeta

theorem Image.normal_ofBytes {address : Nat} {data : List UInt8} {image : Image}
    (made : Image.ofBytes address data = .ok image) : image.Normal :=
  (write_ok normal_empty made).1

namespace Update

variable {installer image : Image} {r : Record} {payloads : List Payload} {bundle : Bundle}

theorem Bundle.normal_addPayloads {base : Nat} {items : List (Block × Payload)} {written : Image}
    (normal : image.Normal) (added : items.foldlM (Bundle.addPayload base) image = .ok written) :
    written.Normal := by
  induction items generalizing image with
  | nil => exact Except.ok.inj added ▸ normal
  | cons item rest ih =>
    rw [List.foldlM_cons] at added
    simp only [Bundle.addPayload, bind_ok_iff, Failure.lift_ok_iff] at added
    obtain ⟨next, ⟨address, _, write⟩, added⟩ := added
    exact ih (Image.write_ok normal write).1 added

theorem Bundle.normal_make (made : Bundle.make installer r payloads = .ok bundle) :
    bundle.record.Normal ∧ bundle.combined.Normal := by
  simp only [Bundle.make, bind_ok_iff, Failure.lift_ok_iff] at made
  obtain ⟨_, _, made⟩ := made
  split at made
  · contradiction
  · rename_i last _
    split at made
    · contradiction
    · simp only [bind_ok_iff, Failure.lift_ok_iff] at made
      obtain ⟨base, _, record, single, combined, added, made⟩ := made
      obtain rfl := Except.ok.inj made
      have normal := Image.normal_ofBytes single
      exact ⟨normal, normal_addPayloads normal added⟩

end Update

theorem fromUTF8?_toUTF8 (text : String) : String.fromUTF8? text.toUTF8 = some text := by
  have valid : text.toUTF8.IsValidUTF8 := text.isValidUTF8
  rw [String.fromUTF8?, dif_pos valid]
  rfl

namespace Build

/-- The outputs that a selection asks for. -/
def Layout.requested (l : Layout) (selection : Selection) : List Path :=
  (if selection.hasEntry then [l.entryOutput] else []) ++
    (if selection.hasUpdate then [l.recordOutput, l.bundleOutput] else [])

/-- Artifacts for some paths, with images that a file can hold. -/
def Serves (artifacts : List Artifact) (paths : List Path) : Prop :=
  artifacts.map (·.path) = paths ∧ ∀ a ∈ artifacts, a.image.Normal

theorem Serves.nil : Serves [] [] := ⟨rfl, by simp⟩

theorem Serves.append {before after : List Artifact} {front back : List Path}
    (first : Serves before front) (second : Serves after back) :
    Serves (before ++ after) (front ++ back) := by
  refine ⟨by rw [List.map_append, first.1, second.1], ?_⟩
  exact List.forall_mem_append.mpr ⟨first.2, second.2⟩

variable {w w' : World} {path : Path}

theorem run_readBytes :
    w.run (Job.readBytes path) = ((w.files.read path).mapError (.io path), w) := by
  rw [Job.readBytes, Job.ask, World.run_ask_bind (.read path), World.perform_read]
  cases w.files.read path <;> rfl

theorem run_readText_ok_iff {text : String} : w.run (Job.readText path) = (.ok text, w') ↔
    w' = w ∧ ∃ content, w.files.read path = .ok content ∧ String.fromUTF8? content = some text := by
  rw [Job.readText, World.run_bind, run_readBytes]
  cases w.files.read path with
  | error e => simp [Except.mapError]
  | ok content =>
    cases decoded : String.fromUTF8? content with
    | none => simp [Except.mapError, decoded]
    | some found =>
      simp only [Except.mapError, decoded, World.run_pure, Prod.mk.injEq, Except.ok.injEq]
      constructor
      · rintro ⟨rfl, rfl⟩
        exact ⟨rfl, content, rfl, decoded⟩
      · rintro ⟨rfl, _, rfl, again⟩
        exact ⟨Option.some.inj (decoded.symm.trans again), rfl⟩

theorem run_isFile : w.run (Job.isFile path) = (.ok (w.files.kind? path == some .file), w) := rfl

theorem kind?_of_read {fs : FileSystem} {content : ByteArray} (found : fs.read path = .ok content) :
    fs.kind? path = some .file := by
  unfold FileSystem.read at found
  split at found
  · rename_i reached
    rw [FileSystem.kind?, reached]
    rfl
  · contradiction
  · contradiction

theorem read_of_names {fs : FileSystem} {place : Location} {content : ByteArray}
    (named : fs.Names path place) (held : fs.get? place = some (.file content)) :
    fs.read path = .ok content := by
  simp only [FileSystem.read, FileSystem.find, named.locate_eq, held]

/-- A file that is read as an image. -/
def ImageFile (fs : FileSystem) (path : Path) (image : Image) : Prop :=
  ∃ content text, fs.read path = .ok content ∧ String.fromUTF8? content = some text ∧
    IntelHex.parse text = .ok image

theorem ImageFile.of_names {place : Location} {text : String} {image : Image} {fs : FileSystem}
    (named : fs.Names path place) (held : fs.get? place = some (.file text.toUTF8))
    (parsed : IntelHex.parse text = .ok image) : ImageFile fs path image :=
  ⟨_, text, read_of_names named held, fromUTF8?_toUTF8 text, parsed⟩

theorem ImageFile.unique {image other : Image} {fs : FileSystem}
    (file : ImageFile fs path image) (also : ImageFile fs path other) : image = other := by
  obtain ⟨content, text, found, decoded, parsed⟩ := file
  obtain ⟨content', text', found', decoded', parsed'⟩ := also
  obtain rfl := Except.ok.inj (found.symm.trans found')
  obtain rfl := Option.some.inj (decoded.symm.trans decoded')
  exact Except.ok.inj (parsed.symm.trans parsed')

theorem run_loadImage_ok_iff {image : Image} : w.run (loadImage path) = (.ok image, w') ↔
    w' = w ∧ ImageFile w.files path image := by
  have parsed : ∀ {text} {w : World}, w.run (Job.ofExcept (Failure.lift
      (Failure.ofReadError (some path)) (IntelHex.parse text))) = (.ok image, w') ↔
        w' = w ∧ IntelHex.parse text = .ok image := by
    intro text w
    change (Failure.lift _ _, w) = _ ↔ _
    rw [Prod.mk.injEq, Failure.lift_ok_iff, and_comm, eq_comm]
  simp only [loadImage, World.run_bind_ok_iff, run_readText_ok_iff, parsed]
  constructor
  · rintro ⟨text, _, ⟨rfl, content, found, decoded⟩, rfl, read⟩
    exact ⟨rfl, content, text, found, decoded, read⟩
  · rintro ⟨rfl, content, text, found, decoded, read⟩
    exact ⟨text, w', ⟨rfl, content, found, decoded⟩, rfl, read⟩

/-- A file with the text of an image is loaded as the image. -/
theorem run_loadImage_print {place : Location} {image : Image}
    (named : w.files.Names path place) (normal : image.Normal)
    (held : w.files.get? place = some (.file (IntelHex.print image).toUTF8)) :
    (w.run (loadImage path)).1 = .ok image := by
  have file : ImageFile w.files path image := .of_names named held (IntelHex.parse_print normal)
  exact congrArg Prod.fst (run_loadImage_ok_iff.mpr ⟨rfl, file⟩)

/-! Builds without a SoftDevice -/

/-- The options of a file, if they can be read. -/
def optionsOf? (fs : FileSystem) (dialect : Config.Dialect) (path : Path) :
    Option Config.Options := do
  let content ← (fs.read path).toOption
  let text ← String.fromUTF8? content
  (Config.Options.parse dialect text).toOption

theorem run_loadSettings_ok {dialect : Config.Dialect} {settings : Config.Settings}
    (ran : w.run (loadSettings dialect path) = (.ok settings, w')) :
    optionsOf? w.files dialect path = some settings.options := by
  obtain ⟨kind, middle, asked, guarded⟩ := World.run_bind_ok_iff.mp ran
  obtain ⟨_, rest⟩ := World.run_guarded_ok_iff.mp guarded
  obtain ⟨text, _, read, rest⟩ := World.run_bind_ok_iff.mp rest
  obtain ⟨options, _, parsed, rest⟩ := World.run_bind_ok_iff.mp rest
  obtain ⟨_, _, _, rest⟩ := World.run_bind_ok_iff.mp rest
  obtain rfl := Except.ok.inj (Prod.mk.inj rest).1
  obtain ⟨_, rfl⟩ := Prod.mk.inj asked
  obtain ⟨_, content, found, decoded⟩ := run_readText_ok_iff.mp read
  have parsed := Failure.lift_ok_iff.mp (Prod.mk.inj parsed).1
  simp [optionsOf?, found, decoded, parsed, Except.toOption]

/-- The configuration of a build says that it has no SoftDevice. -/
def SoftDeviceDisabled (fs : FileSystem) (layout : Layout) : Prop :=
  ∃ options, optionsOf? fs .kconfig ((layout.directory.join ⟨"zephyr"⟩).join ⟨".config"⟩) =
    some options ∧ options.contains noSoftDeviceKey = true

instance (fs : FileSystem) (layout : Layout) : Decidable (SoftDeviceDisabled fs layout) :=
  decidable_of_iff _ (Option.any_eq_true (·.contains noSoftDeviceKey)
    (optionsOf? fs .kconfig ((layout.directory.join ⟨"zephyr"⟩).join ⟨".config"⟩)))

namespace Context

theorem gives_load (layout : Layout) :
    Gives (fun made => ∀ c : Context, made = some c → c.layout = layout) (load layout) := by
  refine .bind .any fun _ _ => .bind .any fun _ _ => .ite (.bind .any fun _ _ => .pure ?_) ?_
  · simp
  · refine .bind .any fun _ _ => .bind .any fun _ _ => .bind .any fun _ _ => .bind .any fun _ _ =>
      .bind .any fun _ _ => .pure ?_
    rintro c ⟨⟩
    rfl

/-- A context is found unless the configuration says that there is no SoftDevice. -/
theorem run_load_ok {layout : Layout} {made : Option Context}
    (ran : w.run (load layout) = (.ok made, w')) :
    made = none ↔ SoftDeviceDisabled w.files layout := by
  obtain ⟨cache, middle, loaded, ran⟩ := World.run_bind_ok_iff.mp ran
  obtain ⟨sysbuild, after, loaded', ran⟩ := World.run_bind_ok_iff.mp ran
  have files : middle.files = w.files := by
    rw [← (uses_loadSettings _ _).spares.files (w := w), loaded]
  have found := run_loadSettings_ok loaded'
  rw [files] at found
  split at ran
  · rename_i contained
    obtain ⟨_, _, _, ran⟩ := World.run_bind_ok_iff.mp ran
    obtain rfl := Except.ok.inj (Prod.mk.inj ran).1
    exact iff_of_true rfl ⟨sysbuild.options, found, contained⟩
  · rename_i lacking
    have made_some : made ≠ none := by
      refine (?_ : Gives (fun made : Option Context => made ≠ none) _) _ _ _ ran
      exact .bind .any fun _ _ => .bind .any fun _ _ => .bind .any fun _ _ => .bind .any fun _ _ =>
        .bind .any fun _ _ => .pure (Option.some_ne_none _)
    refine iff_of_false made_some ?_
    rintro ⟨options, found', contained⟩
    obtain rfl := Option.some.inj (found.symm.trans found')
    exact lacking contained

variable (c : Context)

theorem gives_entry : Gives (Serves [·] [c.layout.entryOutput]) c.entry := by
  refine .bind .any fun _ _ => .bind .any fun _ _ => .bind .any fun _ _ => .bind .any fun _ _ =>
    .bind (P := Image.Normal) (.mk_pure fun image made => ?_) fun image normal =>
    .pure ⟨rfl, by simpa using normal⟩
  exact Image.normal_ofBytes (Failure.lift_ok_iff.mp made)

theorem gives_update :
    Gives (Serves · [c.layout.recordOutput, c.layout.bundleOutput]) c.update := by
  refine .bind .any fun _ _ => .bind .any fun _ _ => .bind .any fun _ _ => .bind .any fun _ _ =>
    .bind (P := fun b : Update.Bundle => b.record.Normal ∧ b.combined.Normal)
      (.mk_pure fun bundle made => Update.Bundle.normal_make made) fun bundle normal =>
    .bind .any fun _ _ => .pure ⟨rfl, by simpa using normal⟩

theorem gives_artifacts (selection : Selection) :
    Gives (Serves · (c.layout.requested selection)) (c.artifacts selection) := by
  have rest {front : List Path} (entry : List Artifact) (serves : Serves entry front) :
      Gives (Serves · (front ++
          if selection.hasUpdate then [c.layout.recordOutput, c.layout.bundleOutput] else []))
        (do
          let update ← if selection.hasUpdate then c.update else pure []
          pure (entry ++ update) : Job (List Artifact)) := by
    cases selection.hasUpdate with
    | true => exact .bind c.gives_update fun _ update => .pure (serves.append update)
    | false => exact .bind (.pure .nil) fun _ none => .pure (serves.append none)
  unfold artifacts Layout.requested
  cases selection.hasEntry with
  | true => exact .bind (.map (Q := (Serves · _)) c.gives_entry) rest
  | false => exact .bind (.pure .nil) rest

end Context
end Build
end FirmwareMeta
