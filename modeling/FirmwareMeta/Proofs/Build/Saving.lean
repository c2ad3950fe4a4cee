import FirmwareMeta.Proofs.Build.Staging
import FirmwareMeta.Proofs.FileSystem.Effects
import FirmwareMeta.Proofs.FileSystem.Frames

/-! Texts are saved all or none. A failure leaves
no text and no temporary file, and what a path named before is there as it was or is gone. -/
namespace FirmwareMeta.Build

open FileSystem

variable {start fs fs' : FileSystem} {w w' : World} {paths : List Path} {places : List Location}
  {moved items : List Pending} {i : Pending}

/-! Moving -/

/-- Some texts were moved and others still wait. -/
structure Moving (start fs : FileSystem) (moved items : List Pending) : Prop where
  tree : SameTree start fs
  named : ∀ i ∈ items, start.Names i.temporary i.place
  fresh : ∀ i ∈ items, start.get? i.place = none
  there : ∀ i ∈ items, fs.get? i.place ≠ none
  once : (items.map (·.place)).Nodup
  targets : ∀ i ∈ moved, Movable start i.path
  kept : ∀ q, (∀ i ∈ moved, ¬start.Names i.path q) → (∀ i ∈ items, q ≠ i.place) →
    fs.get? q = start.get? q

theorem Waiting.moving (waiting : Waiting start fs items) : Moving start fs [] items where
  tree := waiting.tree
  named := waiting.named
  fresh := waiting.fresh
  there := fun i listed => by simp [waiting.held i listed]
  once := waiting.once
  targets := by simp
  kept := by
    intro q _ other
    have inner := inner_of_named (forall₂_temporary waiting.named)
    have absent : q ∉ items.map (·.place) := by
      intro listed
      obtain ⟨i, inside, rfl⟩ := List.mem_map.mp listed
      exact other i inside rfl
    rw [← waiting.kept, get?_without inner, if_neg absent]

/-- A move puts the content of a temporary file in the place of its path. -/
theorem Moving.rename_ok_iff (moving : Moving start fs moved (i :: items)) :
    fs.rename i.temporary i.path = .ok fs' ↔
      ∃ e place, fs.get? i.place = some e ∧ start.Names i.path place ∧
        start.get? place ≠ some .directory ∧ fs' = (fs.erase i.place).put place e := by
  have named := moving.tree.names_iff.mpr (moving.named i List.mem_cons_self)
  simp only [FileSystem.rename_ok_iff named, moving.tree.names_iff, ne_eq,
    moving.tree.directories]

theorem Moving.not_movable (moving : Moving start fs moved (i :: items)) {cause : IoError}
    (failed : fs.rename i.temporary i.path = .error cause) : ¬Movable start i.path := by
  rintro ⟨place, named, filed⟩
  obtain ⟨e, held⟩ := Option.ne_none_iff_exists'.mp (moving.there i List.mem_cons_self)
  rw [moving.rename_ok_iff.mpr ⟨e, place, held, named, filed, rfl⟩] at failed
  contradiction

theorem Moving.step (moving : Moving start fs moved (i :: items)) {e : Entry} {place : Location}
    (held : fs.get? i.place = some e) (named : start.Names i.path place)
    (filed : start.get? place ≠ some .directory) :
    Moving start ((fs.erase i.place).put place e) (moved ++ [i]) items where
  tree := by
    have free := moving.fresh i List.mem_cons_self
    have filed_now := (moving.tree.directories place).not.mpr filed
    have temporary : fs.get? i.place ≠ some .directory :=
      (moving.tree.directories i.place).not.mpr (by simp [free])
    have erased := sameTree_erase temporary
    cases e with
    | directory => exact absurd held temporary
    | file content =>
      exact moving.tree.trans (erased.trans
        (sameTree_put ((erased.directories place).not.mpr filed_now)))
  named := fun j listed => moving.named j (List.mem_cons_of_mem _ listed)
  fresh := fun j listed => moving.fresh j (List.mem_cons_of_mem _ listed)
  there := by
    intro j listed
    have other : j.place ≠ i.place := fun same =>
      (List.nodup_cons.mp moving.once).1 (List.mem_map.mpr ⟨j, listed, same⟩)
    rw [get?_put _ named.inner, get?_erase _ (moving.named i List.mem_cons_self).inner,
      if_neg other]
    split
    · exact Option.some_ne_none _
    · exact moving.there j (List.mem_cons_of_mem _ listed)
  once := (List.nodup_cons.mp moving.once).2
  targets := by
    rw [List.forall_mem_append, List.forall_mem_singleton]
    exact ⟨moving.targets, place, named, filed⟩
  kept := by
    -- The place of the temporary file is empty again, as it was at the start.
    intro q unnamed other
    rw [List.forall_mem_append, List.forall_mem_singleton] at unnamed
    have inner := (moving.named i List.mem_cons_self).inner
    have off : q ≠ place := fun same => unnamed.2 (same ▸ named)
    rw [get?_put _ named.inner, if_neg off, get?_erase _ inner]
    by_cases emptied : q = i.place
    · rw [if_pos emptied, emptied, moving.fresh i List.mem_cons_self]
    · rw [if_neg emptied]
      exact moving.kept q unnamed.1 (List.forall_mem_cons.mpr ⟨emptied, other⟩)

theorem exists_places (movable : ∀ p ∈ paths, Movable start p) :
    ∃ places, List.Forall₂ start.Names paths places ∧
      ∀ place ∈ places, start.get? place ≠ some .directory := by
  induction paths with
  | nil => exact ⟨[], .nil, by simp⟩
  | cons p rest ih =>
    rw [List.forall_mem_cons] at movable
    obtain ⟨⟨place, named, filed⟩, movable⟩ := movable
    obtain ⟨places, named_rest, filed_rest⟩ := ih movable
    exact ⟨place :: places, .cons named named_rest, List.forall_mem_cons.mpr ⟨filed, filed_rest⟩⟩

/-- Taking back what was moved and what still waits. -/
theorem Moving.emptied (moving : Moving start fs moved items)
    (named : List.Forall₂ start.Names (moved.map (·.path)) places) :
    Emptied (moved.map (·.path)) start
      ((fs.without places).without (items.map (·.place))) := by
  have get?_back (q : Location) :
      ((fs.without places).without (items.map (·.place))).get? q =
        if q ∈ items.map (·.place) ∨ q ∈ places then none else fs.get? q := by
    rw [get?_without (inner_of_named (forall₂_temporary moving.named)),
      get?_without (inner_of_named named)]
    by_cases temporary : q ∈ items.map (·.place) <;> simp [temporary]
  refine ⟨moving.tree.here, fun p listed q named_q => ?_, fun q unnamed => ?_⟩
  · rw [get?_back, if_pos (Or.inr ((mem_places_iff named).mpr ⟨p, listed, named_q⟩))]
  · have target : q ∉ places := fun listed => by
      obtain ⟨p, inside, named_q⟩ := (mem_places_iff named).mp listed
      exact unnamed p inside named_q
    rw [get?_back]
    by_cases temporary : q ∈ items.map (·.place)
    · obtain ⟨i, listed, rfl⟩ := List.mem_map.mp temporary
      rw [if_pos (Or.inl temporary), moving.fresh i listed]
    · rw [if_neg (not_or.mpr ⟨temporary, target⟩)]
      refine moving.kept q (fun i listed => unnamed i.path (List.mem_map_of_mem listed)) ?_
      exact fun i listed same => temporary (same ▸ List.mem_map_of_mem listed)

theorem moveAll_cons {rest : List Staged} {s : Staged} {result : Except SaveError Unit}
    (ran : w.run (Saving.moveAll paths (s :: rest)) = (result, w')) :
    (∃ files events event, w.files.rename s.temporary s.path = .ok files ∧
      World.run { w with files, events } (Saving.moveAll (paths ++ [s.path]) rest) =
        (result, w') ∧
      w.operations (Saving.moveAll paths (s :: rest)) = .rename s.temporary s.path :: .log event ::
        World.operations { w with files, events } (Saving.moveAll (paths ++ [s.path]) rest)) ∨
    ∃ cause, w.files.rename s.temporary s.path = .error cause ∧
      w.run (do
        Saving.retract paths
        Saving.discard (s.temporary :: rest.map (·.temporary))
        throw (.move s.path cause)) = (result, w') := by
  rw [Saving.moveAll, Saving.ask, World.operations_ask_bind (.rename s.temporary s.path),
    World.perform_rename]
  rw [Saving.moveAll, Saving.ask, World.run_ask_bind (.rename s.temporary s.path),
    World.perform_rename] at ran
  cases attempt : w.files.rename s.temporary s.path with
  | ok files =>
    simp only [attempt] at ran
    exact Or.inl ⟨files, _, _, rfl, ran, rfl⟩
  | error cause =>
    simp only [attempt] at ran
    exact Or.inr ⟨cause, rfl, ran⟩

/-- The first text that cannot be moved ends the run. -/
theorem run_moveAll_error {e : SaveError} (moving : Moving start w.files moved items)
    (ran : w.run (Saving.moveAll (moved.map (·.path)) (items.map (·.toStaged))) = (.error e, w')) :
    ∃ front i back cause, items = front ++ i :: back ∧ e = .move i.path cause ∧
      (∀ j ∈ front, Movable start j.path) ∧ ¬Movable start i.path ∧
      Emptied ((moved ++ front).map (·.path)) start w'.files := by
  -- The texts in front of the one that fails are in `moved` by then.
  induction items generalizing w moved with
  | nil => simp [Saving.moveAll] at ran
  | cons i rest ih =>
    rcases moveAll_cons ran with ⟨files, _, _, renamed, further, _⟩ | ⟨cause, failed, taken_back⟩
    · obtain ⟨_, place, held, named, filed, rfl⟩ := moving.rename_ok_iff.mp renamed
      have moving' := moving.step held named filed
      rw [← List.map_singleton (f := fun i : Pending => i.path), ← List.map_append] at further
      obtain ⟨front, j, back, cause, rfl, failed, movable, stuck, emptied⟩ := ih moving' further
      refine ⟨i :: front, j, back, cause, rfl, failed, ?_, stuck, by simpa using emptied⟩
      exact List.forall_mem_cons.mpr ⟨⟨place, named, filed⟩, movable⟩
    · have targets : ∀ p ∈ moved.map (·.path), Movable start p :=
        List.forall_mem_map.mpr moving.targets
      obtain ⟨places, named, filed⟩ := exists_places targets
      obtain ⟨events, retracted⟩ := run_retract moving.tree named filed
      have tree : SameTree start (w.files.without places) := moving.tree.trans
        (sameTree_without fun q listed => (moving.tree.directories q).not.mpr (filed q listed))
      obtain ⟨events', discarded⟩ := run_discard
        (w := { w with files := w.files.without places, events }) tree
        (forall₂_temporary moving.named) (forall_free moving.fresh)
      have temporaries : i.temporary :: (rest.map (·.toStaged)).map (·.temporary) =
          (i :: rest).map (·.temporary) := by simp
      rw [temporaries, World.run_bind, retracted] at taken_back
      simp only [World.run_bind, discarded, World.run_throw] at taken_back
      obtain ⟨ended, rfl⟩ := Prod.mk.inj taken_back
      refine ⟨[], i, rest, cause, rfl, (Except.error.inj ended).symm, by simp,
        moving.not_movable failed, ?_⟩
      rw [List.append_nil]
      exact moving.emptied named

/-- No text goes to the place of a temporary file that is moved after it. -/
def Apart (start : FileSystem) (items : List Pending) : Prop :=
  items.Pairwise fun i j => ¬start.Names i.path j.place

/-- What was moved is in place, and what waits is in its temporary file. -/
structure Landed (start fs : FileSystem) (moved items : List Pending) : Prop where
  held : ∀ i ∈ items, fs.get? i.place = some (.file i.text.toUTF8)
  placed : ∀ q, (∀ i ∈ items, q ≠ i.place) →
    fs.get? q = (savedAt start (moved.map (·.saved)) q).or (start.get? q)

theorem Waiting.landed (waiting : Waiting start fs items) : Landed start fs [] items where
  held := waiting.held
  placed := fun q => waiting.moving.kept q (by simp)

theorem Landed.step (landed : Landed start fs moved (i :: items))
    (moving : Moving start fs moved (i :: items)) (apart : Apart start (moved ++ i :: items))
    {place : Location} (named : start.Names i.path place) :
    Landed start ((fs.erase i.place).put place (.file i.text.toUTF8)) (moved ++ [i]) items := by
  obtain ⟨_, apart_items, apart_moved⟩ := List.pairwise_append.mp apart
  have off := (List.pairwise_cons.mp apart_items).1
  have once := (List.nodup_cons.mp moving.once).1
  have get?_step (q : Location) :
      ((fs.erase i.place).put place (.file i.text.toUTF8)).get? q =
        if q = place then some (.file i.text.toUTF8)
        else if q = i.place then none else fs.get? q := by
    rw [get?_put _ named.inner, get?_erase _ (moving.named i List.mem_cons_self).inner]
  constructor
  · intro j listed
    have off_target : j.place ≠ place := fun same => off j listed (same ▸ named)
    have off_temporary : j.place ≠ i.place := fun same =>
      once (List.mem_map.mpr ⟨j, listed, same⟩)
    rw [get?_step, if_neg off_target, if_neg off_temporary]
    exact landed.held j (List.mem_cons_of_mem _ listed)
  · intro q other
    rw [get?_step, List.map_append, savedAt_append, List.map_singleton, savedAt_single]
    by_cases target : q = place
    · simp [target, Pending.saved, named]
    · have unnamed : ¬start.Names i.saved.1 q := fun same => target (same.unique named)
      rw [if_neg target, if_neg unnamed, Option.none_or]
      by_cases temporary : q = i.place
      · have free : savedAt start (moved.map (·.saved)) q = none := by
          rw [savedAt_eq_none_iff, temporary]
          exact List.forall_mem_map.mpr fun j listed => apart_moved j listed i List.mem_cons_self
        rw [if_pos temporary, free, temporary, moving.fresh i List.mem_cons_self, Option.none_or]
      · rw [if_neg temporary]
        exact landed.placed q (List.forall_mem_cons.mpr ⟨temporary, other⟩)

theorem run_moveAll_ok (moving : Moving start w.files moved items)
    (ran : w.run (Saving.moveAll (moved.map (·.path)) (items.map (·.toStaged))) = (.ok (), w')) :
    Moving start w'.files (moved ++ items) [] ∧
      (∀ i ∈ items, .rename i.temporary i.path ∈
        w.operations (Saving.moveAll (moved.map (·.path)) (items.map (·.toStaged)))) ∧
      (Landed start w.files moved items → Apart start (moved ++ items) →
        Landed start w'.files (moved ++ items) []) := by
  induction items generalizing w moved with
  | nil =>
    obtain ⟨-, rfl⟩ := Prod.mk.inj ran
    rw [List.append_nil]
    exact ⟨moving, by simp, fun landed _ => landed⟩
  | cons i rest ih =>
    rcases moveAll_cons ran with ⟨files, _, _, renamed, further, operations⟩ |
      ⟨cause, _, taken_back⟩
    · obtain ⟨e, place, held, named, filed, rfl⟩ := moving.rename_ok_iff.mp renamed
      rw [List.map_cons, operations]
      rw [← List.map_singleton (f := fun i : Pending => i.path), ← List.map_append] at further ⊢
      obtain ⟨moved_all, renames, landed_all⟩ := ih (moving.step held named filed) further
      rw [List.append_assoc, List.singleton_append] at moved_all landed_all
      refine ⟨moved_all, ?_, fun landed apart => landed_all ?_ apart⟩
      · rw [List.forall_mem_cons]
        refine ⟨List.mem_cons_self, fun j listed => ?_⟩
        exact List.mem_cons_of_mem _ (List.mem_cons_of_mem _ (renames j listed))
      · obtain rfl := Option.some.inj (held.symm.trans (landed.held i List.mem_cons_self))
        exact landed.step moving apart named
    · simp only [World.run_bind_eq_iff, World.run_throw] at taken_back
      simp at taken_back

/-! Saving -/

variable {texts : List (Path × String)} {result : Except SaveError Unit}

/-- How saving can end, with the files that it leaves: it stops while it stages, stops while it
moves, or moves all texts. -/
inductive Saves (w : World) (texts : List (Path × String)) :
    Except SaveError Unit → FileSystem → Prop
  | unstaged {path : Path} {cause : StageError} :
      (w.Supplied texts.length → ∃ t ∈ texts, ¬Stageable w.files t.1) →
      Saves w texts (.error (.stage path cause)) w.files
  | unmoved {front back : List (Path × String)} {t : Path × String} {cause : IoError}
      {fs : FileSystem} : (∀ s ∈ texts, Stageable w.files s.1) → texts = front ++ t :: back →
      (∀ s ∈ front, Movable w.files s.1) → ¬Movable w.files t.1 →
      Emptied (front.map (·.1)) w.files fs → Saves w texts (.error (.move t.1 cause)) fs
  | saved {middle fs : FileSystem} {items : List Pending} :
      (∀ t ∈ texts, Stageable w.files t.1) → (∀ t ∈ texts, Movable w.files t.1) →
      items.map (·.saved) = texts → Waiting w.files middle items →
      (∀ i ∈ items, .rename i.temporary i.path ∈ w.operations (save texts)) →
      (Apart w.files items → Updated texts w.files fs) → Saves w texts (.ok ()) fs

theorem saves_of_run (rooted : w.files.Rooted) (ran : w.run (save texts) = (result, w')) :
    Saves w texts result w'.files := by
  rcases World.run_bind_eq_iff.mp ran with ⟨e, failed, rfl⟩ | ⟨staged, middle, done, moved⟩
  · rcases run_stageAll rooted (.nil _) failed with ⟨path, cause, stage, files, blamed⟩ | ⟨_, ok, _⟩
    · rw [files, Except.error.inj stage]
      exact .unstaged blamed
    · contradiction
  · rcases run_stageAll rooted (.nil _) done with ⟨_, _, stage, _⟩ |
      ⟨items, ok, waiting, saved, stageable⟩
    · contradiction
    · obtain rfl := Except.ok.inj ok
      obtain rfl : items.map (·.saved) = texts := saved
      cases result with
      | error e =>
        obtain ⟨front, i, back, cause, rfl, rfl, movable, stuck, emptied⟩ :=
          run_moveAll_error waiting.moving moved
        have split : (front ++ i :: back).map (·.saved) =
            front.map (·.saved) ++ i.saved :: back.map (·.saved) := by simp
        refine .unmoved stageable split (List.forall_mem_map.mpr movable) stuck ?_
        simpa [Pending.saved, Function.comp_def] using emptied
      | ok _ =>
        obtain ⟨moving, renames, landed⟩ := run_moveAll_ok waiting.moving moved
        have operations : w.operations (save (items.map (·.saved))) = _ := World.operations_bind
        refine .saved stageable (List.forall_mem_map.mpr moving.targets) rfl waiting ?_ ?_
        · intro i listed
          rw [operations, done]
          exact List.mem_append_right _ (renames i listed)
        · exact fun apart =>
            ⟨moving.tree, fun q => (landed waiting.landed apart).placed q (by simp)⟩

/-- The second text is refused when it is written, and the first one does not stay either. -/
example :
    let full : IoError := .other "No space left on device (os error 28)"
    let refuse (_ : FileSystem) (content : ByteArray) :=
      if content.size ≤ 1 then none else some full
    let w : World := ⟨.emptyAt [], ⟨none, full, ""⟩, [], ⟨.first, refuse⟩⟩
    let ended := w.run (save [(⟨"a"⟩, "x"), (⟨"b"⟩, "yz")])
    ended.1 = .error (.stage ⟨"b"⟩ (.write full)) ∧ ended.2.files.entries.length = 0 := by
  decide +kernel

theorem Saves.ok_iff (saves : Saves w texts result fs)
    (supplied : w.Supplied texts.length) :
    result = .ok () ↔ ∀ t ∈ texts, Stageable w.files t.1 ∧ Movable w.files t.1 := by
  cases saves with
  | unstaged blamed =>
    obtain ⟨t, listed, bad⟩ := blamed supplied
    exact iff_of_false (by simp) fun fine => bad (fine t listed).1
  | @unmoved _ _ t _ _ _ split _ stuck _ =>
    refine iff_of_false (by simp) fun fine => stuck (fine t ?_).2
    exact split ▸ List.mem_append_right _ List.mem_cons_self
  | saved stageable movable _ _ _ _ =>
    exact iff_of_true rfl fun t listed => ⟨stageable t listed, movable t listed⟩

/-- No path of some texts leads to what is read while they are saved, which are the temporary
files. -/
def Undisturbed (w : World) (texts : List (Path × String)) : Prop :=
  ∀ operation ∈ w.operations (save texts), ∀ p ∈ operation.consulted,
    ∀ t ∈ texts, ¬w.files.Meets t.1 p

theorem Saves.updated (saves : Saves w texts (.ok ()) fs)
    (clear : Undisturbed w texts) : Updated texts w.files fs := by
  cases saves with
  | @saved _ _ items _ _ saved waiting renames updated =>
    refine updated (List.pairwise_of_forall_mem_list fun i first j second named => ?_)
    refine clear _ (renames j second) j.temporary (by simp [Operation.consulted]) i.saved
      (saved ▸ List.mem_map_of_mem first) ⟨j.place, named, ?_⟩
    exact (waiting.named j second).locate_eq

theorem Saves.updated_of_length (saves : Saves w texts (.ok ()) fs) (single : texts.length ≤ 1) :
    Updated texts w.files fs := by
  cases saves with
  | @saved _ _ items _ _ saved _ _ updated =>
    have few : items.length ≤ 1 := by rwa [← saved, List.length_map] at single
    refine updated ?_
    match items, few with
    | [], _ => exact .nil
    | [i], _ => exact List.pairwise_singleton _ _

/-- Where no text goes, saving changes nothing in the end. -/
theorem Saves.kept (saves : Saves w texts result fs)
    (clear : Undisturbed w texts) : SameTree w.files fs ∧
      ∀ q, (∀ t ∈ texts, ¬w.files.Names t.1 q) → fs.get? q = w.files.get? q := by
  cases result with
  | ok _ =>
    have updated := saves.updated clear
    exact ⟨updated.tree, fun q => updated.kept⟩
  | error e =>
    cases saves with
    | unstaged _ => exact ⟨.refl _, fun _ _ => rfl⟩
    | unmoved _ split movable _ emptied =>
      refine ⟨emptied.sameTree (List.forall_mem_map.mpr movable), fun q unnamed => ?_⟩
      rw [split, List.forall_mem_append] at unnamed
      exact emptied.kept q (List.forall_mem_map.mpr unnamed.1)

open Classical in
theorem front_eq_takeWhile {front back : List (Path × String)} {t : Path × String}
    (split : texts = front ++ t :: back) (movable : ∀ s ∈ front, Movable start s.1)
    (stuck : ¬Movable start t.1) : front = texts.takeWhile fun s => Movable start s.1 := by
  rw [split, List.takeWhile_append_of_pos (by simpa using movable),
    List.takeWhile_cons_of_neg (by simpa using stuck), List.append_nil]

/-- The first text that cannot be moved says what is left. -/
theorem Saves.emptied {front back : List (Path × String)} {t : Path × String}
    (saves : Saves w texts result fs) (supplied : w.Supplied texts.length)
    (stageable : ∀ s ∈ texts, Stageable w.files s.1) (split : texts = front ++ t :: back)
    (movable : ∀ s ∈ front, Movable w.files s.1) (stuck : ¬Movable w.files t.1) :
    Emptied (front.map (·.1)) w.files fs := by
  cases saves with
  | unstaged blamed =>
    obtain ⟨s, listed, bad⟩ := blamed supplied
    exact absurd (stageable s listed) bad
  | unmoved _ split' movable' stuck' emptied =>
    rwa [front_eq_takeWhile split movable stuck, ← front_eq_takeWhile split' movable' stuck']
  | saved _ all _ _ _ _ =>
    exact absurd (all t (split ▸ List.mem_append_right _ List.mem_cons_self)) stuck

/-- Saving a second time ends the same way and changes nothing. -/
theorem Saves.again {again : World} {result' : Except SaveError Unit}
    (first : Saves w texts result again.files) (second : Saves again texts result' fs)
    (clear : Undisturbed w texts) (supplied : w.Supplied texts.length)
    (supplied' : again.Supplied texts.length) :
    (result' = .ok () ↔ result = .ok ()) ∧ Same again.files fs := by
  have tree := (first.kept clear).1
  have same : result' = .ok () ↔ result = .ok () := by
    rw [first.ok_iff supplied, second.ok_iff supplied']
    simp only [tree.stageable_iff, tree.movable_iff]
  refine ⟨same, ?_⟩
  cases second with
  | unstaged _ => exact .refl _
  | unmoved stageable split movable stuck emptied =>
    simp only [tree.stageable_iff, tree.movable_iff] at stageable movable stuck
    exact (first.emptied supplied stageable split movable stuck).again tree emptied
  | @saved _ _ items _ _ saved waiting _ updated' =>
    obtain rfl : result = .ok () := same.mp rfl
    have updated := first.updated clear
    refine updated.again (updated' (List.pairwise_of_forall_mem_list ?_))
    -- The places of the outputs are taken by now, so no temporary file is in one of them.
    intro i inside j listed named
    have free := waiting.fresh j listed
    rw [updated.places, Option.or_eq_none_iff, savedAt_eq_none_iff] at free
    exact free.1 i.saved (saved ▸ List.mem_map_of_mem inside) (tree.names_iff.mp named)

theorem save_error {e : SaveError} (rooted : w.files.Rooted)
    (ran : w.run (save texts) = (.error e, w')) :
    (∃ path cause, e = .stage path cause ∧ w'.files = w.files) ∨
      ∃ front t back cause, texts = front ++ t :: back ∧ e = .move t.1 cause ∧
        RolledBack (front.map (·.1)) w.files w'.files := by
  have saves := saves_of_run rooted ran
  generalize w'.files = fs at saves ⊢
  cases saves with
  | unstaged _ => exact Or.inl ⟨_, _, rfl, rfl⟩
  | unmoved _ split movable _ emptied =>
    exact Or.inr ⟨_, _, _, _, split, rfl, emptied.rolledBack (List.forall_mem_map.mpr movable)⟩

theorem savedAt_of_apart (apart : texts.Pairwise fun s t => ∀ q, start.Names s.1 q →
      ¬start.Names t.1 q) {t : Path × String} (listed : t ∈ texts) {q : Location}
    (named : start.Names t.1 q) : savedAt start texts q = some (.file t.2.toUTF8) := by
  obtain ⟨front, back, rfl⟩ := List.append_of_mem listed
  have others := (List.pairwise_cons.mp (List.pairwise_append.mp apart).2.1).1
  have none : savedAt start back q = none :=
    savedAt_eq_none_iff.mpr fun s behind => others s behind q named
  rw [List.append_cons, savedAt_append, none, Option.none_or, savedAt_append, savedAt_single,
    if_pos named, Option.some_or]

theorem save_ok (rooted : w.files.Rooted) (ran : w.run (save texts) = (.ok (), w'))
    (apart : texts.Pairwise fun s t => ∀ q, w.files.Names s.1 q → ¬w.files.Names t.1 q)
    (ordinary : ∀ t ∈ texts, ∀ name directory, w.files.Names t.1 (name :: directory) →
      isTemporary name = false) :
    SameTree w.files w'.files ∧
      (∀ t ∈ texts, ∃ place, w.files.Names t.1 place ∧
        w'.files.get? place = some (.file t.2.toUTF8)) ∧
      ∀ q, (∀ t ∈ texts, ¬w.files.Names t.1 q) → w'.files.get? q = w.files.get? q := by
  have saves := saves_of_run rooted ran
  generalize w'.files = fs at saves ⊢
  cases saves with
  | @saved _ _ items _ movable saved waiting _ updated =>
    have clear : Apart w.files items := by
      refine List.pairwise_of_forall_mem_list fun i first j second named => ?_
      obtain ⟨name, directory, place, marked⟩ := waiting.marked j second
      have unmarked := ordinary i.saved (saved ▸ List.mem_map_of_mem first) name directory
        (place ▸ named)
      simp [unmarked] at marked
    have updated := updated clear
    refine ⟨updated.tree, fun t listed => ?_, fun q => updated.kept⟩
    obtain ⟨place, named, _⟩ := movable t listed
    refine ⟨place, named, ?_⟩
    rw [updated.places, savedAt_of_apart apart listed named, Option.some_or]

end FirmwareMeta.Build
