import FirmwareMeta.Proofs.Command.Outputs
import FirmwareMeta.Proofs.FileSystem.Frames

/-! A run that builds makes all of its artifacts, by looking at files only, and then saves them. The
parts of a build come out the same whether they are made alone or together. -/
namespace FirmwareMeta

open Operation (Looks)

namespace Build

variable {w : World} {layout : Layout} {selection : Selection} {artifacts : List Artifact}

namespace Context

variable (c : Context)

theorem artifacts_entry : c.artifacts .entry = List.singleton <$> c.entry := by
  have parts : c.artifacts .entry =
      List.singleton <$> c.entry >>= fun entry => pure (entry ++ []) := rfl
  simp only [parts, List.append_nil, bind_pure]

theorem artifacts_update : c.artifacts .update = c.update := by
  have parts : c.artifacts .update = c.update >>= fun update => pure ([] ++ update) := rfl
  simp only [parts, List.nil_append, bind_pure]

theorem artifacts_all : c.artifacts .all =
    c.artifacts .entry >>= fun entry => c.artifacts .update >>= fun update =>
      pure (entry ++ update) := by
  rw [artifacts_entry, artifacts_update]
  rfl

end Context

/-- What is made of the context of a build, which it may lack. -/
def makeFrom (made : Option Context) (selection : Selection) : Job (List Artifact) :=
  match made with
  | none => pure []
  | some c => c.artifacts selection

/-- What is made of a build. -/
def make (layout : Layout) (selection : Selection) : Job (List Artifact) := do
  makeFrom (← Context.load layout) selection

theorem uses_makeFrom (made : Option Context) (selection : Selection) :
    Uses Looks (makeFrom made selection) := by
  cases made with
  | none => exact .pure _
  | some c => exact c.uses_artifacts selection

theorem uses_make (layout : Layout) (selection : Selection) :
    Uses Looks (make layout selection) :=
  .bind (Context.uses_load layout) fun _ => uses_makeFrom _ _

theorem makeFrom_all (made : Option Context) : makeFrom made .all =
    makeFrom made .entry >>= fun entry => makeFrom made .update >>= fun update =>
      pure (entry ++ update) := by
  cases made with
  | none => rfl
  | some c => exact c.artifacts_all

theorem make_ok_iff : (w.run (make layout selection)).1 = .ok artifacts ↔
    ∃ made, (w.run (Context.load layout)).1 = .ok made ∧
      (w.run (makeFrom made selection)).1 = .ok artifacts :=
  Uses.bind_ok_iff (Context.uses_load layout) fun _ => uses_makeFrom _ _

theorem makeFrom_all_ok_iff {made : Option Context} :
    (w.run (makeFrom made .all)).1 = .ok artifacts ↔
      ∃ entry update, (w.run (makeFrom made .entry)).1 = .ok entry ∧
        (w.run (makeFrom made .update)).1 = .ok update ∧ artifacts = entry ++ update := by
  have rest (entry : List Artifact) : Uses Looks
      (makeFrom made .update >>= fun update => pure (entry ++ update)) :=
    .bind (uses_makeFrom _ _) fun _ => .pure _
  simp only [makeFrom_all, Uses.bind_ok_iff (uses_makeFrom _ _) rest,
    Uses.bind_ok_iff (uses_makeFrom _ _) fun _ => .pure _, World.run_pure, Except.ok.injEq,
    exists_and_left, eq_comm (b := artifacts)]

/-- One context serves both parts. -/
theorem make_all_ok_iff : (w.run (make layout .all)).1 = .ok artifacts ↔
    ∃ entry update, (w.run (make layout .entry)).1 = .ok entry ∧
      (w.run (make layout .update)).1 = .ok update ∧ artifacts = entry ++ update := by
  simp only [make_ok_iff, makeFrom_all_ok_iff]
  constructor
  · rintro ⟨made, loaded, entry, update, first, second, rfl⟩
    exact ⟨entry, update, ⟨made, loaded, first⟩, ⟨made, loaded, second⟩, rfl⟩
  · rintro ⟨entry, update, ⟨made, loaded, first⟩, ⟨made', loaded', second⟩, rfl⟩
    obtain rfl := Except.ok.inj (loaded.symm.trans loaded')
    exact ⟨made, loaded, entry, update, first, second, rfl⟩

/-- Making all goes through what the update is made of, once there is an entry. -/
theorem operations_make_update {operation : Operation} {entry : List Artifact}
    (first : (w.run (make layout .entry)).1 = .ok entry)
    (listed : operation ∈ w.operations (make layout .update)) :
    operation ∈ w.operations (make layout .all) := by
  have through (selection : Selection) : operation ∈ w.operations (make layout selection) ↔
      operation ∈ w.operations (Context.load layout) ∨
        ∃ made, (w.run (Context.load layout)).1 = .ok made ∧
          operation ∈ w.operations (makeFrom made selection) :=
    Uses.mem_operations_bind (Context.uses_load layout) fun _ => uses_makeFrom _ _
  rw [through] at listed ⊢
  obtain ⟨made, loaded, first⟩ := make_ok_iff.mp first
  refine listed.imp_right ?_
  rintro ⟨made', loaded', listed⟩
  obtain rfl := Except.ok.inj (loaded.symm.trans loaded')
  refine ⟨made, loaded, ?_⟩
  rw [makeFrom_all, Uses.mem_operations_bind (uses_makeFrom _ _) fun _ =>
    .bind (uses_makeFrom _ _) fun _ => .pure _]
  refine Or.inr ⟨entry, first, ?_⟩
  rw [World.operations_bind]
  exact List.mem_append_left _ listed

end Build

namespace Command

open Build FileSystem

variable {styled verbose : Bool} {arguments : List String} {w w' : World} {selection : Selection}
  {options : BuildOptions} {config : Option Path} {layout : Layout} {artifacts : List Artifact}
  {texts : List (Path × String)}

/-- The texts of some artifacts, with their paths. -/
def textsOf (artifacts : List Artifact) : List (Path × String) :=
  artifacts.map fun a => (a.path, IntelHex.print a.image)

/-- What a run makes, with the paths that it goes to, before anything is saved. -/
def prepare (options : BuildOptions) (config : Option Path) (selection : Selection) :
    Run (List (Path × String)) := do
  let layout ← (Plan.layoutOf options config).adapt .plan
  textsOf <$> (make layout selection).adapt .failure

theorem uses_prepare (options : BuildOptions) (config : Option Path) (selection : Selection) :
    Uses Looks (prepare options config selection) :=
  .bind (.adapt (Plan.uses_layoutOf _ _)) fun _ => .map (.adapt (uses_make _ _))

theorem prepare_ok_iff : (w.run (prepare options config selection)).1 = .ok texts ↔
    ∃ layout, (w.run (Plan.layoutOf options config)).1 = .ok layout ∧
      ∃ artifacts, (w.run (make layout selection)).1 = .ok artifacts ∧
        textsOf artifacts = texts := by
  have rest (layout : Layout) : Uses Looks
      (textsOf <$> (make layout selection).adapt RunError.failure) :=
    .map (.adapt (uses_make _ _))
  simp only [prepare, Uses.bind_ok_iff (.adapt (Plan.uses_layoutOf _ _)) rest,
    World.run_adapt_ok_iff, World.run_map_ok_iff]

/-- All texts are those of the two parts. -/
theorem prepare_all_ok_iff : (w.run (prepare options config .all)).1 = .ok texts ↔
    ∃ entry update, (w.run (prepare options config .entry)).1 = .ok entry ∧
      (w.run (prepare options config .update)).1 = .ok update ∧ texts = entry ++ update := by
  simp only [prepare_ok_iff, make_all_ok_iff]
  constructor
  · rintro ⟨layout, planned, _, ⟨entry, update, first, second, rfl⟩, rfl⟩
    exact ⟨_, _, ⟨layout, planned, entry, first, rfl⟩, ⟨layout, planned, update, second, rfl⟩,
      List.map_append⟩
  · rintro ⟨_, _, ⟨layout, planned, entry, first, rfl⟩, ⟨layout', planned', update, second, rfl⟩,
      rfl⟩
    obtain rfl := Except.ok.inj (planned.symm.trans planned')
    exact ⟨layout, planned, _, ⟨entry, update, first, second, rfl⟩, List.map_append⟩

theorem operations_prepare_update {operation : Operation}
    (first : (w.run (prepare options config .entry)).1 = .ok texts)
    (listed : operation ∈ w.operations (prepare options config .update)) :
    operation ∈ w.operations (prepare options config .all) := by
  have through (selection : Selection) :
      operation ∈ w.operations (prepare options config selection) ↔
        operation ∈ w.operations (Plan.layoutOf options config) ∨
          ∃ layout, (w.run (Plan.layoutOf options config)).1 = .ok layout ∧
            operation ∈ w.operations (make layout selection) := by
    rw [prepare, Uses.mem_operations_bind (.adapt (Plan.uses_layoutOf _ _)) fun _ =>
      .map (.adapt (uses_make _ _))]
    simp only [World.operations_adapt, World.operations_map, World.run_adapt_ok_iff]
  rw [through] at listed ⊢
  obtain ⟨layout, planned, entry, made, _⟩ := prepare_ok_iff.mp first
  refine listed.imp_right ?_
  rintro ⟨layout', planned', listed⟩
  obtain rfl := Except.ok.inj (planned.symm.trans planned')
  exact ⟨layout, planned, operations_make_update made listed⟩

theorem planned_of_layoutOf
    (parsed : parse arguments = .ok ⟨.build selection options, verbose, config⟩)
    (found : (w.run (Plan.layoutOf options config)).1 = .ok layout) :
    Planned w arguments (.build selection layout) := by
  refine ⟨_, parsed, ?_⟩
  rw [Plan.ofInvocation_build]
  exact World.run_map_ok_iff.mpr ⟨layout, found, rfl⟩

/-- The texts that are prepared are for the outputs of the layout, if the build has any. -/
theorem prepare_requested (prepared : (w.run (prepare options config selection)).1 = .ok texts) :
    ∃ layout, (w.run (Plan.layoutOf options config)).1 = .ok layout ∧
      (texts = [] ∨ texts.map (·.1) = layout.requested selection) := by
  obtain ⟨layout, found, artifacts, made, rfl⟩ := prepare_ok_iff.mp prepared
  refine ⟨layout, found, ?_⟩
  obtain ⟨context, loaded, made⟩ := make_ok_iff.mp made
  cases context with
  | none =>
    obtain rfl := Except.ok.inj made
    exact Or.inl rfl
  | some c =>
    rw [← (serves_requested loaded made).1]
    exact Or.inr List.map_map

theorem length_prepared_le (prepared : (w.run (prepare options config selection)).1 = .ok texts) :
    texts.length ≤ if selection = .entry then 1 else 3 := by
  obtain ⟨layout, _, rfl | requested⟩ := prepare_requested prepared
  · exact Nat.zero_le _
  · rw [← List.length_map (fun t : Path × String => t.1), requested]
    cases selection <;> simp [Layout.requested, Selection.hasEntry, Selection.hasUpdate]

theorem run_eq (parsed : parse arguments = .ok ⟨.build selection options, verbose, config⟩) :
    run styled arguments =
      prepare options config selection >>= fun texts => (save texts).adapt .save := by
  unfold run prepare make
  simp only [parsed, Plan.ofInvocation_build, bind_assoc, map_eq_pure_bind, adapt_bind]
  refine congrArg _ (funext fun layout => ?_)
  refine (pure_bind _ _).trans ?_
  change build selection layout = _
  refine congrArg _ (funext fun made => ?_)
  cases made with
  | none => rfl
  | some c => simp only [makeFrom, pure_bind, textsOf]

theorem operations_prepare (styled : Bool)
    (parsed : parse arguments = .ok ⟨.build selection options, verbose, config⟩) :
    ∀ operation ∈ w.operations (prepare options config selection),
      operation ∈ w.operations (run styled arguments) := by
  intro operation listed
  rw [run_eq parsed, World.operations_bind]
  exact List.mem_append_left _ listed

/-- A run that gets to save some texts, in a world that has the files of its start. -/
structure Reaches (w middle : World) (styled : Bool) (arguments : List String)
    (texts : List (Path × String)) (result : Except SaveError Unit) : Prop where
  files : middle.files = w.files
  temporaries : middle.temporaries = w.temporaries
  operations : ∀ operation ∈ middle.operations (save texts),
    operation ∈ w.operations (run styled arguments)
  ended : (w.run (run styled arguments)).1 = .ok () ↔ result = .ok ()
  saves : Saves middle texts result (w.run (run styled arguments)).2.files

/-- A run ends where its preparation fails, or saves what is prepared. -/
theorem run_build (styled : Bool) (rooted : w.files.Rooted)
    (parsed : parse arguments = .ok ⟨.build selection options, verbose, config⟩) :
    (∃ e, (w.run (prepare options config selection)).1 = .error e ∧
      (w.run (run styled arguments)).1 = .error e ∧
      (w.run (run styled arguments)).2.files = w.files) ∨
    ∃ texts middle result, (w.run (prepare options config selection)).1 = .ok texts ∧
      Reaches w middle styled arguments texts result := by
  have files := (uses_prepare options config selection).spares.files (w := w)
  have temporaries : (w.run (prepare options config selection)).2.temporaries = w.temporaries :=
    World.temporaries_run
  have ran : w.run (run styled arguments) = _ :=
    (congrArg w.run (run_eq parsed)).trans World.run_bind
  have operations : w.operations (run styled arguments) = _ :=
    (congrArg w.operations (run_eq parsed)).trans World.operations_bind
  rcases prepared : w.run (prepare options config selection) with ⟨e | texts, middle⟩
  · rw [prepared] at ran files
    exact Or.inl ⟨e, rfl, congrArg Prod.fst ran, (congrArg (·.2.files) ran).trans files⟩
  · rw [prepared] at ran operations files temporaries
    simp only [World.run_adapt, World.operations_adapt] at ran operations
    refine Or.inr ⟨texts, middle, (middle.run (save texts)).1, rfl, files, temporaries, ?_, ?_, ?_⟩
    · intro operation listed
      rw [operations]
      exact List.mem_append_right _ listed
    · rw [ran]
      exact mapError_ok_iff
    · rw [ran]
      exact saves_of_run (files ▸ rooted) rfl

end Command
end FirmwareMeta
