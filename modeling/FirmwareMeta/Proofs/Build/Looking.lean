import FirmwareMeta.Build.Context
import FirmwareMeta.Command.Plan
import FirmwareMeta.Proofs.FileSystem.Scripts

/-! Plans, contexts and images are made by looking at files only. -/
namespace FirmwareMeta

open Operation (Looks)

namespace Job

theorem uses_isFile (path : Path) : Uses Looks (isFile path) :=
  .bind (.ask trivial) fun _ => .pure _

theorem uses_isDirectory (path : Path) : Uses Looks (isDirectory path) :=
  .bind (.ask trivial) fun _ => .pure _

theorem uses_readBytes (path : Path) : Uses Looks (readBytes path) :=
  .read (fun _ => .pure _) fun _ => ⟨_, rfl⟩

theorem uses_readText (path : Path) : Uses Looks (readText path) := by
  refine .bind (uses_readBytes path) fun content => ?_
  split
  · exact .pure _
  · exact .throw _

theorem uses_log (level : Level) (message : String) : Uses Looks (log level message) :=
  .ask trivial

theorem uses_ofExcept {α : Type} (result : Except Failure α) : Uses Looks (ofExcept result) :=
  .mk_pure result

end Job

namespace Build

open Job

theorem uses_loadSettings (dialect : Config.Dialect) (path : Path) :
    Uses Looks (loadSettings dialect path) :=
  .bind (.ask trivial) fun _ => .guarded <| .bind (uses_readText path) fun _ =>
    .bind (uses_ofExcept _) fun _ => .bind (uses_log _ _) fun _ => .pure _

theorem uses_loadDescription (path : Path) : Uses Looks (loadDescription path) :=
  .bind (uses_isFile path) fun _ => .guarded <| .bind (uses_readText path) fun _ =>
    .bind (uses_ofExcept _) fun _ => .bind (uses_log _ _) fun _ => .pure _

theorem uses_resolvePartitions (nodes : List Hardware.NodeInfo) (names : List String) :
    Uses Looks (resolvePartitions nodes names) :=
  .bind (uses_ofExcept _) fun _ => .bind (.forM fun _ _ => uses_log _ _) fun _ => .pure _

theorem uses_loadImage (path : Path) : Uses Looks (loadImage path) :=
  .bind (uses_readText path) fun _ => uses_ofExcept _

theorem uses_loadPayload (role : Role) (path : Path) : Uses Looks (loadPayload role path) := by
  have rest (data : List UInt8) : Uses Looks (do
      if data.isEmpty then throw (.artifactMissing path)
      log .debug (role.name ++ " payload " ++ path.text ++ ": " ++ toString data.length ++
        " bytes, crc " ++ Numeral.hexWord (crc32 data).toNat)
      pure (⟨role, path, data⟩ : Update.Payload)) :=
    .guarded <| .bind (uses_log _ _) fun _ => .pure _
  refine .bind (uses_isFile path) fun _ => .guarded <| .ite ?_ ?_
  · exact .bind (.map (uses_loadImage path)) rest
  · exact .bind (.map (uses_readBytes path)) rest

theorem Part.uses_load (directory : Path) : Uses Looks (Part.load directory) :=
  .bind (uses_isDirectory _) fun _ => .guarded <| .bind (uses_loadSettings _ _) fun _ => .pure _

namespace Context

theorem uses_loadLoader (layout : Layout) (sysbuild : Config.Settings) :
    Uses Looks (loadLoader layout sysbuild) :=
  .ite (.bind (uses_log _ _) fun _ => .pure _)
    (.bind (uses_ofExcept _) fun _ => .map (Part.uses_load _))

theorem uses_load (layout : Layout) : Uses Looks (load layout) := by
  refine .bind (uses_loadSettings _ _) fun _ => .bind (uses_loadSettings _ _) fun sysbuild => ?_
  refine .ite (.bind (uses_log _ _) fun _ => .pure _) ?_
  exact .bind (uses_ofExcept _) fun _ => .bind (Part.uses_load _) fun _ =>
    .bind (uses_loadDescription _) fun _ => .bind (uses_resolvePartitions _ _) fun _ =>
    .bind (uses_loadLoader _ _) fun _ => .pure _

variable (c : Context)

theorem uses_entry : Uses Looks c.entry :=
  .bind (uses_ofExcept _) fun _ => .bind (uses_ofExcept _) fun _ => .bind (uses_ofExcept _) fun _ =>
    .bind (uses_log _ _) fun _ => .bind (uses_ofExcept _) fun _ => .pure _

theorem uses_loadInstaller : Uses Looks c.loadInstaller :=
  .bind (Part.uses_load _) fun _ => .bind (uses_ofExcept _) fun _ =>
    .bind (uses_isFile _) fun _ => .guarded <| .bind (uses_loadImage _) fun _ => .guarded <| .pure _

theorem uses_update : Uses Looks c.update := by
  refine .bind (uses_loadPayload _ _) fun softDevice => .bind ?_ fun loader => ?_
  · cases c.loader with
    | none => exact .pure _
    | some part =>
      exact .map <| .bind (uses_ofExcept _) fun _ => uses_loadPayload _ _
  · exact .bind (uses_ofExcept _) fun _ => .bind c.uses_loadInstaller fun _ =>
      .bind (uses_ofExcept _) fun _ => .bind (uses_log _ _) fun _ => .pure _

theorem uses_artifacts (selection : Selection) : Uses Looks (c.artifacts selection) := by
  have rest (entry : List Artifact) : Uses Looks (do
      let update ← if selection.hasUpdate then c.update else pure []
      pure (entry ++ update)) :=
    .ite (.bind c.uses_update fun _ => .pure _) (.bind (.pure _) fun _ => .pure _)
  exact .ite (.bind (.map c.uses_entry) rest) (.bind (.pure _) rest)

end Context
end Build

namespace Command.Plan

theorem uses_loadOverrides (path : Path) : Uses Looks (loadOverrides path) := by
  refine .bind (.ask trivial) fun _ => .read (fun content => ?_) fun _ => ⟨_, rfl⟩
  dsimp only
  split
  · exact .throw _
  · split
    · exact .pure _
    · exact .throw _

theorem uses_overridesPath (directory : Path) (named : Option Path) :
    Uses Looks (overridesPath directory named) := by
  cases named with
  | some path => exact .pure _
  | none => exact .bind (.ask trivial) fun _ => .pure _

/-- The layout that a build goes by, whatever it makes. -/
def layoutOf (options : BuildOptions) (config : Option Path) : Planning Build.Layout := do
  if (← ask (.kind options.directory)) ≠ some .directory then
    throw (.directoryMissing options.directory)
  let overrides ← match ← overridesPath options.directory config with
    | some path => loadOverrides path
    | none => pure Overrides.none
  ExceptT.mk (pure (options.layout overrides))

theorem ofInvocation_build {selection : Build.Selection} {options : BuildOptions} {verbose : Bool}
    {config : Option Path} : ofInvocation ⟨.build selection options, verbose, config⟩ =
      Plan.build selection <$> layoutOf options config := by
  simp only [ofInvocation, layoutOf, map_eq_pure_bind, bind_assoc]
  refine congrArg _ (funext fun kind => ?_)
  split
  · rfl
  · rw [bind_assoc]
    refine congrArg _ (funext fun named => ?_)
    cases named with
    | some path => simp only [bind_assoc]
    | none => rfl

theorem uses_layoutOf (options : BuildOptions) (config : Option Path) :
    Uses Looks (layoutOf options config) := by
  refine .bind (.ask trivial) fun _ => .guarded ?_
  refine .bind (uses_overridesPath _ _) fun named => ?_
  cases named with
  | some path => exact .bind (uses_loadOverrides _) fun _ => .mk_pure _
  | none => exact .bind (.pure _) fun _ => .mk_pure _

theorem uses_ofInvocation (invocation : Invocation) : Uses Looks (ofInvocation invocation) := by
  obtain ⟨request, verbose, config⟩ := invocation
  cases request with
  | dump input => exact .pure _
  | build selection options =>
    rw [ofInvocation_build]
    exact .map (uses_layoutOf options config)

end Command.Plan
end FirmwareMeta
