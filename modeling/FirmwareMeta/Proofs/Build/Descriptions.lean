import FirmwareMeta.Proofs.Build.Artifacts
import FirmwareMeta.Proofs.Hardware.Json

/-! A hardware description is the same whether it comes from devicetree source or from its JSON, and
so are the partitions that are found in it. -/
namespace FirmwareMeta.Build

open Hardware (Description NodeInfo PartitionTable)

variable {fs : FileSystem} {w : World} {path : Path} {d : Description} {text : String}

/-- A file that is read as a description. -/
def DescriptionFile (fs : FileSystem) (path : Path) (d : Description) : Prop :=
  ∃ content text, fs.read path = .ok content ∧ String.fromUTF8? content = some text ∧
    describe path text = .ok d

theorem DescriptionFile.of_json (named : path.hasExtension "json" = true)
    (held : fs.read path = .ok d.json.toUTF8) : DescriptionFile fs path d := by
  refine ⟨_, d.json, held, fromUTF8?_toUTF8 _, ?_⟩
  rw [describe, if_pos named, d.ofJson_json]

theorem DescriptionFile.of_source {tree : Devicetree} (named : path.hasExtension "json" = false)
    (held : fs.read path = .ok text.toUTF8) (parsed : Devicetree.parse text = .ok tree) :
    DescriptionFile fs path (.ofDevicetree tree) := by
  refine ⟨_, text, held, fromUTF8?_toUTF8 _, ?_⟩
  rw [describe, named, if_neg Bool.false_ne_true, parsed]

theorem run_loadDescription (file : DescriptionFile w.files path d) :
    (w.run (loadDescription path)).1 = .ok d := by
  obtain ⟨content, text, held, decoded, described⟩ := file
  have read : w.run (Job.readText path) = (.ok text, w) :=
    run_readText_ok_iff.mpr ⟨rfl, content, held, decoded⟩
  unfold loadDescription
  simp only [World.run_bind, run_isFile, kind?_of_read held, BEq.rfl, Bool.not_true,
    Bool.false_eq_true, ↓reduceIte, World.run_pure, read, described]
  rfl

theorem run_forM_log {α : Type} (level : Level) (message : α → String) (items : List α)
    (w : World) :
    ∃ w', w.run (items.forM fun x => Job.log level (message x)) = (.ok (), w') := by
  induction items generalizing w with
  | nil => exact ⟨w, rfl⟩
  | cons x rest ih =>
    obtain ⟨w', others⟩ := ih { w with events := w.events ++ [⟨level, message x⟩] }
    exact ⟨w', others⟩

theorem run_resolvePartitions (w : World) (nodes : List NodeInfo) (names : List String) :
    (w.run (resolvePartitions nodes names)).1 =
      Failure.lift (.description none) (PartitionTable.resolve nodes names) := by
  cases resolved : PartitionTable.resolve nodes names with
  | error fault => rw [resolvePartitions, resolved]; rfl
  | ok table =>
    obtain ⟨w', logged⟩ := run_forM_log .debug Hardware.Partition.summary table.partitions w
    have found : w.run (Job.ofExcept (Failure.lift (.description none) (.ok table))) =
        (.ok table, w) := rfl
    rw [resolvePartitions, resolved, World.run_bind, found]
    simp only [World.run_bind, logged]
    rfl

/-- The partitions of some names in the description of a file. -/
def loadPartitions (path : Path) (names : List String) : Job PartitionTable := do
  let d ← loadDescription path
  resolvePartitions d.nodes names

theorem run_loadPartitions (file : DescriptionFile w.files path d) (names : List String) :
    (w.run (loadPartitions path names)).1 =
      Failure.lift (.description none) (PartitionTable.resolve d.nodes names) := by
  have loaded := run_loadDescription file
  rw [loadPartitions, World.run_bind]
  cases ran : w.run (loadDescription path) with
  | mk result w' =>
    rw [ran] at loaded
    obtain rfl : result = .ok d := loaded
    exact run_resolvePartitions w' d.nodes names

/-- The two forms of a description agree. Whatever its texts and its cells are, the description is
read back from its JSON, and loaded from a file that has the JSON, so that each request for
partitions has the outcome that it has for the nodes themselves. A devicetree is such a description:
its source and the JSON that is made from it are loaded alike, with the same partitions or the same
failure. -/
theorem description_forms_agree :
    (∀ d : Description, Description.ofJson d.json = .ok d) ∧
    (∀ (w : World) (path : Path) (d : Description),
      path.hasExtension "json" = true → w.files.read path = .ok d.json.toUTF8 →
      (w.run (loadDescription path)).1 = .ok d ∧
      ∀ names, (w.run (loadPartitions path names)).1 =
        Failure.lift (.description none) (PartitionTable.resolve d.nodes names)) ∧
    ∀ (w w' : World) (source path : Path) (text : String) (tree : Devicetree),
      source.hasExtension "json" = false → path.hasExtension "json" = true →
      w.files.read source = .ok text.toUTF8 → Devicetree.parse text = .ok tree →
      w'.files.read path = .ok (Description.ofDevicetree tree).json.toUTF8 →
      (w.run (loadDescription source)).1 = .ok (.ofDevicetree tree) ∧
      (w'.run (loadDescription path)).1 = .ok (.ofDevicetree tree) ∧
      ∀ names,
        (w'.run (loadPartitions path names)).1 = (w.run (loadPartitions source names)).1 := by
  refine ⟨Description.ofJson_json, fun w path d named held => ?_,
    fun w w' source path text tree named named' held parsed held' => ?_⟩
  · have file : DescriptionFile w.files path d := .of_json named held
    exact ⟨run_loadDescription file, run_loadPartitions file⟩
  · have file : DescriptionFile w.files source (.ofDevicetree tree) := .of_source named held parsed
    have file' : DescriptionFile w'.files path (.ofDevicetree tree) := .of_json named' held'
    exact ⟨run_loadDescription file, run_loadDescription file', fun names =>
      (run_loadPartitions file' names).trans (run_loadPartitions file names).symm⟩

/-- A board whose partition has a cell of 64 bits, below a path that needs escapes. -/
def wideBoard : Description :=
  ⟨[⟨"/\x22\\\n\x01é", ["b"], some [0x7b000, 0xFFFFFFFFFFFFFFFF]⟩, ⟨"", ["c", "d"], some []⟩,
    ⟨"/n", [], none⟩]⟩

def smallBoard : Description := ⟨[⟨"/", [], none⟩, ⟨"/p", ["b"], some [1, 2]⟩]⟩

def boardSource : String := "/\x7bb:p\x7breg=<1 2>;\x7d;\x7d;"

/-- The first board as JSON, and the second one in both forms. -/
def boardFiles : World :=
  ⟨⟨[(["wide.json"], .file wideBoard.json.toUTF8), (["small.dts"], .file boardSource.toUTF8),
    (["small.json"], .file smallBoard.json.toUTF8)], []⟩, ⟨none, .notText, ""⟩, [], .first⟩

/-- The text of a description with all that it can hold, and the two forms of another one. -/
theorem description_forms_agree_boards :
    wideBoard.json = "\x7b\x22nodes\x22:[\x7b\x22path\x22:\x22/\\\x22\\\\\\n\\u0001é\x22," ++
      "\x22labels\x22:[\x22b\x22],\x22reg\x22:[503808,18446744073709551615]\x7d," ++
      "\x7b\x22path\x22:\x22\x22,\x22labels\x22:[\x22c\x22,\x22d\x22],\x22reg\x22:[]\x7d," ++
      "\x7b\x22path\x22:\x22/n\x22,\x22labels\x22:[],\x22reg\x22:null\x7d]\x7d" ∧
    (boardFiles.run (loadDescription ⟨"wide.json"⟩)).1 = .ok wideBoard ∧
    (boardFiles.run (loadPartitions ⟨"wide.json"⟩ ["b"])).1 =
      .error (.description none (.wideCell "/\x22\\\n\x01é" 0xFFFFFFFFFFFFFFFF)) ∧
    (boardFiles.run (loadDescription ⟨"small.dts"⟩)).1 = .ok smallBoard ∧
    (boardFiles.run (loadPartitions ⟨"small.json"⟩ ["b"])).1 =
      (boardFiles.run (loadPartitions ⟨"small.dts"⟩ ["b"])).1 := by
  obtain ⟨-, loads, agree⟩ := description_forms_agree
  have wide : boardFiles.files.read ⟨"wide.json"⟩ = .ok wideBoard.json.toUTF8 :=
    read_of_names (show boardFiles.files.Names _ ["wide.json"] by decide +kernel) rfl
  have source : boardFiles.files.read ⟨"small.dts"⟩ = .ok boardSource.toUTF8 :=
    read_of_names (show boardFiles.files.Names _ ["small.dts"] by decide +kernel) rfl
  have json : boardFiles.files.read ⟨"small.json"⟩ = .ok smallBoard.json.toUTF8 :=
    read_of_names (show boardFiles.files.Names _ ["small.json"] by decide +kernel) rfl
  have parsed : (Devicetree.parse boardSource).toOption.map Description.ofDevicetree =
      some smallBoard := by decide +kernel
  simp only [Option.map_eq_some_iff, toOption_eq_some_iff] at parsed
  obtain ⟨tree, parsed, same⟩ := parsed
  rw [← same] at json ⊢
  have failed : PartitionTable.resolve wideBoard.nodes ["b"] =
      .error (.wideCell "/\x22\\\n\x01é" 0xFFFFFFFFFFFFFFFF) := by decide +kernel
  obtain ⟨loaded, resolved⟩ := loads boardFiles ⟨"wide.json"⟩ wideBoard (by decide +kernel) wide
  obtain ⟨small, -, alike⟩ := agree boardFiles boardFiles ⟨"small.dts"⟩ ⟨"small.json"⟩ boardSource
    tree (by decide +kernel) (by decide +kernel) source parsed json
  refine ⟨by decide +kernel, loaded, ?_, small, alike ["b"]⟩
  rw [resolved, failed]
  rfl

end FirmwareMeta.Build
