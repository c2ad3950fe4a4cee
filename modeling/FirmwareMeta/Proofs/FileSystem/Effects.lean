import FirmwareMeta.Proofs.FileSystem.Places

/-! What texts do to files when they are moved to their paths, and when that is taken back. Of
several texts for one place the last one stays, so doing the same once more changes nothing. -/
namespace FirmwareMeta.FileSystem

variable {start fs fs' : FileSystem} {paths : List Path} {p : Path} {q : Location}
  {texts others : List (Path × String)}

/-- Files after a failure: each place is as it was or, if one of some paths names it and it was no
directory, empty. -/
structure RolledBack (paths : List Path) (start fs : FileSystem) : Prop where
  here : fs.here = start.here
  places : ∀ q, fs.get? q = start.get? q ∨
    fs.get? q = none ∧ start.get? q ≠ some .directory ∧ ∃ p ∈ paths, start.Names p q

/-- A text can be moved to a path: the path names a place, in which there is no directory. -/
def Movable (fs : FileSystem) (p : Path) : Prop :=
  ∃ place, fs.Names p place ∧ fs.get? place ≠ some .directory

theorem SameTree.movable_iff (same : SameTree fs fs') : Movable fs' p ↔ Movable fs p := by
  simp only [Movable, same.names_iff, ne_eq, same.directories]

/-- The places that some paths name are empty, and all others are as they were. -/
structure Emptied (paths : List Path) (start fs : FileSystem) : Prop where
  here : fs.here = start.here
  gone : ∀ p ∈ paths, ∀ q, start.Names p q → fs.get? q = none
  kept : ∀ q, (∀ p ∈ paths, ¬start.Names p q) → fs.get? q = start.get? q

theorem Emptied.rolledBack (emptied : Emptied paths start fs)
    (movable : ∀ p ∈ paths, Movable start p) : RolledBack paths start fs := by
  refine ⟨emptied.here, fun q => ?_⟩
  by_cases named : ∃ p ∈ paths, start.Names p q
  · obtain ⟨p, listed, named⟩ := named
    obtain ⟨place, same, filed⟩ := movable p listed
    obtain rfl := named.unique same
    exact Or.inr ⟨emptied.gone p listed q named, filed, p, listed, named⟩
  · exact Or.inl (emptied.kept q fun p listed same => named ⟨p, listed, same⟩)

/-- What the last of some texts whose path names a place puts there. -/
def savedAt (fs : FileSystem) (texts : List (Path × String)) (q : Location) : Option Entry :=
  texts.reverse.findSome? fun t => if fs.Names t.1 q then some (.file t.2.toUTF8) else none

theorem savedAt_append :
    savedAt fs (texts ++ others) q = (savedAt fs others q).or (savedAt fs texts q) := by
  rw [savedAt, List.reverse_append, List.findSome?_append, savedAt, savedAt]

theorem savedAt_single {t : Path × String} :
    savedAt fs [t] q = if fs.Names t.1 q then some (.file t.2.toUTF8) else none := by
  simp [savedAt]

theorem savedAt_eq_none_iff : savedAt fs texts q = none ↔ ∀ t ∈ texts, ¬fs.Names t.1 q := by
  simp [savedAt, List.findSome?_eq_none_iff]

theorem SameTree.savedAt_eq (same : SameTree fs fs') :
    savedAt fs' texts q = savedAt fs texts q := by
  simp only [savedAt, same.names_iff]

/-- Texts are in the places that their paths name, and all else is as it was. -/
structure Updated (texts : List (Path × String)) (start fs : FileSystem) : Prop where
  tree : SameTree start fs
  places : ∀ q, fs.get? q = (savedAt start texts q).or (start.get? q)

/-- There is the same everywhere, and paths start in the same place. -/
structure Same (fs fs' : FileSystem) : Prop where
  here : fs'.here = fs.here
  places : ∀ q, fs'.get? q = fs.get? q

theorem Same.refl (fs : FileSystem) : Same fs fs := ⟨rfl, fun _ => rfl⟩

theorem Emptied.sameTree (emptied : Emptied paths start fs)
    (movable : ∀ p ∈ paths, Movable start p) : SameTree start fs := by
  refine ⟨emptied.here, fun q => ?_⟩
  rcases (emptied.rolledBack movable).places q with same | ⟨gone, filed, _⟩
  · rw [same]
  · exact iff_of_false (by simp [gone]) filed

theorem Emptied.again (first : Emptied paths start fs) (tree : SameTree start fs)
    (second : Emptied paths fs fs') : Same fs fs' := by
  refine ⟨second.here, fun q => ?_⟩
  by_cases named : ∃ p ∈ paths, start.Names p q
  · obtain ⟨p, listed, named⟩ := named
    rw [first.gone p listed q named, second.gone p listed q (tree.names_iff.mpr named)]
  · exact second.kept q fun p listed same => named ⟨p, listed, tree.names_iff.mp same⟩

theorem Updated.kept (updated : Updated texts start fs)
    (unnamed : ∀ t ∈ texts, ¬start.Names t.1 q) : fs.get? q = start.get? q := by
  rw [updated.places, savedAt_eq_none_iff.mpr unnamed, Option.none_or]

theorem Updated.unique (first : Updated texts start fs) (second : Updated texts start fs') :
    Same fs fs' :=
  ⟨second.tree.here.trans first.tree.here.symm, fun q =>
    (second.places q).trans (first.places q).symm⟩

theorem Updated.append (first : Updated texts start fs) (second : Updated others fs fs') :
    Updated (texts ++ others) start fs' := by
  refine ⟨first.tree.trans second.tree, fun q => ?_⟩
  rw [second.places, first.tree.savedAt_eq, first.places, savedAt_append, Option.or_assoc]

theorem Updated.again (first : Updated texts start fs) (second : Updated texts fs fs') :
    Same fs fs' := by
  refine ⟨second.tree.here, fun q => ?_⟩
  rw [second.places, first.tree.savedAt_eq, first.places, ← Option.or_assoc, Option.or_self]

end FirmwareMeta.FileSystem
