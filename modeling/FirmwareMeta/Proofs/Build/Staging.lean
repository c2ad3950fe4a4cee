import FirmwareMeta.Build.Saving
import FirmwareMeta.Proofs.FileSystem.Changes
import FirmwareMeta.Proofs.FileSystem.Scripts
import Mathlib.Data.List.Forall2

/-! Texts wait in temporary files before any of them is moved. All of them can be staged if the
directories of their paths are there; else nothing is left of those in front. -/
namespace FirmwareMeta

namespace FileSystem

variable {fs fs' : FileSystem} {naming : Naming} {p : Path} {content : ByteArray}

/-- A text for a path can be staged: its directory is there, and names of temporary files in the
directory are not too long. -/
structure Stageable (fs : FileSystem) (p : Path) : Prop where
  short : ((Path.join ⟨absolute fs.here⟩ (Build.Saving.directoryOf p)).join
    ⟨".tmpXXXXXX"⟩).text.utf8ByteSize < maxPath
  inside : ∃ place, fs.locate ((Build.Saving.directoryOf p).join ⟨""⟩) = .ok place

theorem SameTree.stageable_iff (same : SameTree fs fs') : Stageable fs' p ↔ Stageable fs p := by
  constructor
  · rintro ⟨short, place, led⟩
    exact ⟨same.here ▸ short, place, same.locate_ok_iff.mp led⟩
  · rintro ⟨short, place, led⟩
    exact ⟨same.here ▸ short, place, same.locate_ok_iff.mpr led⟩

theorem stageable_of_stage {staged : Path × FileSystem}
    (done : fs.stage naming (Build.Saving.directoryOf p) content = .ok staged) :
    Stageable fs p := by
  simp only [stage] at done
  split at done
  · simp at done
  · rename_i short
    split at done
    · simp at done
    · rename_i place led
      exact ⟨Nat.not_le.mp short, place, led⟩

/-- Only a lack of names keeps a text from a directory that is there. -/
theorem Stageable.no_name {e : IoError × Path} (stageable : Stageable fs p)
    (failed : fs.stage naming (Build.Saving.directoryOf p) content = .error e) :
    ∃ place, naming.pick fs place = none := by
  obtain ⟨short, place, led⟩ := stageable
  simp only [stage, Nat.not_le.mpr short, ↓reduceIte, led] at failed
  cases picked : naming.pick fs place with
  | some name => simp [picked] at failed
  | none => exact ⟨place, picked⟩

end FileSystem

/-- As long as there are less than a number of entries, names are found and files can be
written. -/
structure Temporaries.Supplies (temporaries : Temporaries) (count : Nat) : Prop where
  names : temporaries.naming.Supplies count
  room : ∀ (fs : FileSystem) (content : ByteArray), fs.entries.length < count →
    temporaries.refuse fs content = none

/-- There are names for a number of temporary files, and room for what is written to them. -/
def World.Supplied (w : World) (count : Nat) : Prop :=
  w.temporaries.Supplies (w.files.entries.length + count)

theorem World.Supplied.mono {w : World} {count fewer : Nat} (supplied : w.Supplied count)
    (bound : fewer ≤ count) : w.Supplied fewer := by
  have total := Nat.add_le_add_left bound w.files.entries.length
  exact ⟨fun fs place few => supplied.names fs place (Nat.lt_of_lt_of_le few total),
    fun fs content few => supplied.room fs content (Nat.lt_of_lt_of_le few total)⟩

namespace Build

open FileSystem

variable {start fs fs' : FileSystem} {w w' : World} {paths : List Path} {places : List Location}

/-! Removing -/

theorem mem_places_iff (named : List.Forall₂ start.Names paths places) {q : Location} :
    q ∈ places ↔ ∃ p ∈ paths, start.Names p q := by
  induction named with
  | nil => simp
  | @cons p place _ _ first _ ih =>
    have same : q = place ↔ start.Names p q :=
      ⟨fun same => same ▸ first, fun second => second.unique first⟩
    rw [List.mem_cons, List.exists_mem_cons_iff, same, ih]

theorem inner_of_named (named : List.Forall₂ start.Names paths places) : [] ∉ places := by
  intro root
  obtain ⟨p, _, named⟩ := (mem_places_iff named).mp root
  exact named.inner rfl

theorem run_remove {p : Path} {place : Location} (named : w.files.Names p place)
    (filed : w.files.get? place ≠ some .directory) :
    (w.perform (.remove p)).2 = { w with files := w.files.erase place } := by
  rw [World.perform_remove, remove_eq named filed]
  by_cases free : w.files.get? place = none
  · simp [free, erase_of_free free]
  · simp [free]

/-- Removing the files of some paths, one after the other. -/
theorem run_forM_remove {action : Path → Saving Unit}
    (removes : ∀ (w : World) (p : Path) (place : Location), w.files.Names p place →
      w.files.get? place ≠ some .directory →
      ∃ events, w.run (action p) = (.ok (), { w with files := w.files.erase place, events }))
    (tree : SameTree start w.files) (named : List.Forall₂ start.Names paths places)
    (filed : ∀ place ∈ places, start.get? place ≠ some .directory) :
    ∃ events, w.run (paths.forM action) =
      (.ok (), { w with files := w.files.without places, events }) := by
  induction named generalizing w with
  | nil => exact ⟨w.events, by rw [without_nil]; rfl⟩
  | @cons p place paths places named rest ih =>
    rw [List.forall_mem_cons] at filed
    have filed_now := (tree.directories place).not.mpr filed.1
    obtain ⟨events, first⟩ := removes w p place (tree.names_iff.mpr named) filed_now
    obtain ⟨events', after⟩ := ih (w := { w with files := w.files.erase place, events })
      (tree.trans (sameTree_erase filed_now)) filed.2
    have steps : (p :: paths).forM action = action p >>= fun _ => paths.forM action := rfl
    refine ⟨events', ?_⟩
    rw [steps, World.run_bind, first, without_cons]
    exact after

theorem run_discard (tree : SameTree start w.files)
    (named : List.Forall₂ start.Names paths places)
    (filed : ∀ place ∈ places, start.get? place ≠ some .directory) :
    ∃ events, w.run (Saving.discard paths) =
      (.ok (), { w with files := w.files.without places, events }) := by
  refine run_forM_remove (fun w p place named filed => ⟨w.events, ?_⟩) tree named filed
  rw [Saving.ask, World.run_ask_bind (.remove p), run_remove named filed]
  rfl

theorem run_retract (tree : SameTree start w.files)
    (named : List.Forall₂ start.Names paths places)
    (filed : ∀ place ∈ places, start.get? place ≠ some .directory) :
    ∃ events, w.run (Saving.retract paths) =
      (.ok (), { w with files := w.files.without places, events }) := by
  refine run_forM_remove (fun w p place named filed => ?_) tree named filed
  rw [Saving.ask, World.run_ask_bind (.remove p), run_remove named filed]
  cases (w.perform (.remove p)).1 with
  | ok _ => exact ⟨_, rfl⟩
  | error e => exact ⟨_, rfl⟩

/-! Staging -/

/-- A text that waits in a temporary file. -/
structure Pending extends Staged where
  place : Location
  text : String

def Pending.saved (i : Pending) : Path × String := (i.path, i.text)

/-- Texts wait in temporary files next to what was there. -/
structure Waiting (start fs : FileSystem) (items : List Pending) : Prop where
  tree : SameTree start fs
  kept : fs.without (items.map (·.place)) = start
  named : ∀ i ∈ items, start.Names i.temporary i.place
  marked : ∀ i ∈ items, ∃ name directory, i.place = name :: directory ∧ isTemporary name = true
  held : ∀ i ∈ items, fs.get? i.place = some (.file i.text.toUTF8)
  once : (items.map (·.place)).Nodup

variable {items : List Pending} {staged : List Staged}

theorem forall₂_temporary (named : ∀ i ∈ items, start.Names i.temporary i.place) :
    List.Forall₂ start.Names (items.map (·.temporary)) (items.map (·.place)) := by
  rw [List.forall₂_map_left_iff, List.forall₂_map_right_iff, List.forall₂_same]
  exact named

theorem forall_free (fresh : ∀ i ∈ items, start.get? i.place = none) :
    ∀ place ∈ items.map (·.place), start.get? place ≠ some .directory := by
  intro place listed
  obtain ⟨i, inside, rfl⟩ := List.mem_map.mp listed
  simp [fresh i inside]

theorem Waiting.fresh (waiting : Waiting start fs items) :
    ∀ i ∈ items, start.get? i.place = none := by
  intro i listed
  have inner := inner_of_named (forall₂_temporary waiting.named)
  rw [← waiting.kept, get?_without inner, if_pos (List.mem_map_of_mem listed)]

theorem Waiting.nil (fs : FileSystem) : Waiting fs fs [] where
  tree := .refl fs
  kept := without_nil
  named := by simp
  marked := by simp
  held := by simp
  once := List.nodup_nil

theorem Waiting.concat (waiting : Waiting start fs items) {temporary path : Path} {name : String}
    {directory : Location} {text : String} (marked : isTemporary name = true)
    (free : fs.get? (name :: directory) = none) (named : fs.Names temporary (name :: directory)) :
    Waiting start (fs.put (name :: directory) (.file text.toUTF8))
      (items ++ [⟨⟨temporary, path⟩, name :: directory, text⟩]) where
  tree := waiting.tree.trans (sameTree_put (by simp [free]))
  kept := by
    rw [List.map_append, List.map_singleton, without_concat, erase_put free]
    exact waiting.kept
  named := by
    rw [List.forall_mem_append, List.forall_mem_singleton]
    exact ⟨waiting.named, waiting.tree.names_iff.mp named⟩
  marked := by
    rw [List.forall_mem_append, List.forall_mem_singleton]
    exact ⟨waiting.marked, name, directory, rfl, marked⟩
  held := by
    rw [List.forall_mem_append, List.forall_mem_singleton]
    refine ⟨fun i listed => ?_, ?_⟩
    · have other : i.place ≠ name :: directory := by
        intro same
        have held := waiting.held i listed
        simp [same, free] at held
      rw [get?_put _ (List.cons_ne_nil _ _), if_neg other]
      exact waiting.held i listed
    · rw [get?_put _ (List.cons_ne_nil _ _), if_pos rfl]
  once := by
    rw [List.map_append, List.map_singleton]
    refine List.nodup_append.mpr ⟨waiting.once, List.pairwise_singleton _ _, ?_⟩
    rintro _ listed _ single same
    obtain ⟨i, inside, rfl⟩ := List.mem_map.mp listed
    rw [List.mem_singleton.mp single] at same
    have held := waiting.held i inside
    simp [same, free] at held

/-- Staging a text leaves nothing behind where the temporary file cannot be made or not be written.
Else a new file is there. -/
theorem perform_stage_cases (rooted : w.files.Rooted) (path : Path) (text : String) :
    (∃ cause, w.perform (.stage (Saving.directoryOf path) text) = (.error cause, w) ∧
      (w.Supplied 1 → ¬Stageable w.files path)) ∨
    ∃ temporary files,
      w.perform (.stage (Saving.directoryOf path) text) = (.ok temporary, { w with files }) ∧
      w.files.stage w.temporaries.naming (Saving.directoryOf path) text.toUTF8 =
        .ok (temporary, files) := by
  have few := Nat.lt_succ_self w.files.entries.length
  rw [World.perform_stage]
  cases made : w.files.stage w.temporaries.naming (Saving.directoryOf path) text.toUTF8 with
  | error e =>
    refine Or.inl ⟨_, rfl, fun supplied stageable => ?_⟩
    obtain ⟨place, none⟩ := stageable.no_name made
    obtain ⟨name, some⟩ := supplied.names w.files place few
    simp [none] at some
  | ok stage =>
    obtain ⟨temporary, files⟩ := stage
    cases refused : w.temporaries.refuse w.files text.toUTF8 with
    | none => exact Or.inr ⟨temporary, files, rfl, rfl⟩
    | some e =>
      simp only [discard_stage rooted made]
      refine Or.inl ⟨.write e, rfl, fun supplied => ?_⟩
      simp [supplied.room w.files _ few] at refused

/-- Staging ends with all texts in temporary files, or with the files that were there. Where they
can be made and written, it ends well exactly if each text can be staged. -/
theorem run_stageAll (rooted : start.Rooted) {texts : List (Path × String)}
    {result : Except SaveError (List Staged)} (waiting : Waiting start w.files items)
    (ran : w.run (Saving.stageAll (items.map (·.toStaged)) texts) = (result, w')) :
    (∃ path cause, result = .error (.stage path cause) ∧ w'.files = start ∧
      (w.Supplied texts.length → ∃ t ∈ texts, ¬Stageable start t.1)) ∨
    ∃ items', result = .ok (items'.map (·.toStaged)) ∧ Waiting start w'.files items' ∧
      items'.map (·.saved) = items.map (·.saved) ++ texts ∧ ∀ t ∈ texts, Stageable start t.1 := by
  -- The texts that wait are those in front; `Waiting` is what each new one keeps up.
  induction texts generalizing w items with
  | nil =>
    obtain ⟨rfl, rfl⟩ := Prod.mk.inj ran
    exact Or.inr ⟨items, rfl, waiting, (List.append_nil _).symm, by simp⟩
  | cons t rest ih =>
    obtain ⟨path, text⟩ := t
    rw [Saving.stageAll, Saving.ask,
      World.run_ask_bind (.stage (Saving.directoryOf path) text)] at ran
    rcases perform_stage_cases (waiting.tree.rooted rooted) path text with
      ⟨cause, refused, blamed⟩ | ⟨temporary, files, performed, attempt⟩
    · simp only [refused] at ran
      obtain ⟨events, discarded⟩ := run_discard (w := w) waiting.tree
        (forall₂_temporary waiting.named) (forall_free waiting.fresh)
      rw [List.map_map, World.run_bind] at ran
      rw [show (fun s : Staged => s.temporary) ∘ Pending.toStaged = fun i => i.temporary from rfl,
        discarded] at ran
      obtain ⟨rfl, rfl⟩ := Prod.mk.inj ran
      refine Or.inl ⟨path, _, rfl, waiting.kept, fun supplied => ?_⟩
      have bad := blamed (supplied.mono (Nat.succ_le_succ (Nat.zero_le _)))
      exact ⟨_, List.mem_cons_self, fun stageable =>
        bad (waiting.tree.stageable_iff.mpr stageable)⟩
    · simp only [performed] at ran
      have stageable := waiting.tree.stageable_iff.mp (stageable_of_stage attempt)
      obtain ⟨name, directory, marked, free, named, rfl⟩ :=
        stage_ok (waiting.tree.rooted rooted) attempt
      have waiting' : Waiting start _ (items ++ [⟨⟨temporary, path⟩, name :: directory, text⟩]) :=
        waiting.concat marked free named
      rw [← List.map_singleton (f := fun i : Pending => i.toStaged)
        (a := ⟨⟨temporary, path⟩, name :: directory, text⟩), ← List.map_append] at ran
      rcases ih waiting' ran with ⟨path', cause, failed, files, blamed⟩ |
        ⟨items', done, after, saved, others⟩
      · refine Or.inl ⟨path', cause, failed, files, fun supplied => ?_⟩
        obtain ⟨t, listed, bad⟩ := blamed (by
          simpa [World.Supplied, length_put free, Nat.add_right_comm, Nat.add_assoc] using supplied)
        exact ⟨t, List.mem_cons_of_mem _ listed, bad⟩
      · exact Or.inr ⟨items', done, after, by simpa [Pending.saved] using saved,
          List.forall_mem_cons.mpr ⟨stageable, others⟩⟩

end Build
end FirmwareMeta
