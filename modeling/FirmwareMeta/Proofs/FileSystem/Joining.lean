import FirmwareMeta.Proofs.FileSystem.Places

/-! Joined paths. A name in a directory leads to its place there, and the text of a place leads to
the place from the root. -/
namespace FirmwareMeta

namespace Path

variable {p q r : Path}

theorem join_eq_right (stands : q.isAbsolute = true ∨ p.text = "") : p.join q = q := by
  rcases stands with absolute | empty
  · simp [join, absolute]
  · simp [join, empty]

theorem toList_join (filled : p.text ≠ "") (relative : q.isAbsolute = false) :
    (p.join q).text.toList = p.text.toList ++
      ((if p.text.toList.getLast? = some '/' then [] else ['/']) ++ q.text.toList) := by
  have some_text : p.text.isEmpty = false := String.isEmpty_eq_false_iff.mpr filled
  unfold join
  by_cases ended : p.text.toList.getLast? = some '/'
  · simp [relative, some_text, ended]
  · simp [relative, some_text, ended]

theorem isAbsolute_join (filled : p.text ≠ "") (relative : q.isAbsolute = false) :
    (p.join q).isAbsolute = p.isAbsolute := by
  obtain ⟨c, rest, opened⟩ := List.exists_cons_of_ne_nil fun empty =>
    filled (String.toList_eq_nil_iff.mp empty)
  simp only [isAbsolute, toList_join filled relative, opened, List.cons_append, List.head?_cons]

theorem join_assoc (filled : q.text ≠ "") (relative : r.isAbsolute = false) :
    (p.join q).join r = p.join (q.join r) := by
  by_cases stands : q.isAbsolute = true ∨ p.text = ""
  · have stands_join : (q.join r).isAbsolute = true ∨ p.text = "" :=
      stands.imp_left fun absolute => (isAbsolute_join filled relative).trans absolute
    rw [join_eq_right stands, join_eq_right stands_join]
  · rw [not_or, Bool.not_eq_true] at stands
    obtain ⟨inner, filled_p⟩ := stands
    have inner_join : (q.join r).isAbsolute = false := (isAbsolute_join filled relative).trans inner
    have filled_join : (p.join q).text ≠ "" := by
      intro empty
      have joined := toList_join filled_p inner
      simp only [empty, String.toList_empty] at joined
      exact filled_p (String.toList_eq_nil_iff.mp (List.append_eq_nil_iff.mp joined.symm).1)
    obtain ⟨c, ended⟩ : ∃ c, q.text.toList.getLast? = some c :=
      Option.isSome_iff_exists.mp (by simpa [List.getLast?_isSome] using filled)
    suffices same : ((p.join q).join r).text.toList = (p.join (q.join r)).text.toList from
      congrArg Path.mk (String.toList_injective same)
    rw [toList_join filled_join relative, toList_join filled_p inner,
      toList_join filled_p inner_join, toList_join filled relative]
    simp only [List.getLast?_append, ended, Option.some_or, List.append_assoc]

/-- The pieces of a path in a directory are those of the directory and those of the path. -/
theorem exists_split_join (filled : p.text ≠ "") : ∃ pieces, ∀ q : Path, q.isAbsolute = false →
    split (p.join q).text.toList = pieces ++ split q.text.toList := by
  by_cases ended : p.text.toList.getLast? = some '/'
  · obtain ⟨front, closed⟩ := List.getLast?_eq_some_iff.mp ended
    refine ⟨split front, fun q relative => ?_⟩
    rw [toList_join filled relative, if_pos ended, List.nil_append, closed, List.append_assoc]
    exact split_append_slash front q.text.toList
  · refine ⟨split p.text.toList, fun q relative => ?_⟩
    rw [toList_join filled relative, if_neg ended]
    exact split_append_slash p.text.toList q.text.toList

end Path

namespace FileSystem

variable {fs fs' : FileSystem} {p directory : Path} {place : Location} {name : String}

theorem isName_spec (proper : isName name = true) :
    name ≠ "" ∧ name ≠ "." ∧ name ≠ ".." ∧ '/' ∉ name.toList ∧ '\x00' ∉ name.toList ∧
      name.utf8ByteSize ≤ maxName := by
  simpa [isName, and_assoc] using proper

theorem isAbsolute_name (proper : isName name = true) : Path.isAbsolute ⟨name⟩ = false := by
  have slashless := (isName_spec proper).2.2.2.1
  simp only [Path.isAbsolute, decide_eq_false_iff_not]
  exact fun opened => slashless (List.mem_of_mem_head? opened)

theorem isAbsolute_empty : Path.isAbsolute ⟨""⟩ = false := rfl

theorem special_name (proper : isName name = true) :
    ¬(name.toList = [] ∨ name.toList = ['.'] ∨ name.toList = ['.', '.']) := by
  obtain ⟨filled, not_here, not_up, _⟩ := isName_spec proper
  have other (text : String) (different : name ≠ text) : name.toList ≠ text.toList :=
    fun same => different (String.toList_injective same)
  have filled := other "" filled
  have not_here := other "." not_here
  have not_up := other ".." not_up
  simp only [String.toList_empty, show ".".toList = ['.'] from rfl,
    show "..".toList = ['.', '.'] from rfl] at filled not_here not_up
  simp [filled, not_here, not_up]

theorem steps_name (proper : isName name = true) : Steps place name.toList (name :: place) := by
  have special := special_name proper
  rw [← or_assoc, not_or] at special
  have fits := (isName_spec proper).2.2.2.2.2
  rw [Steps, if_neg special.1, if_neg special.2, String.ofList_toList]
  exact ⟨fits, rfl⟩

theorem names_join_name (led : fs.locate (directory.join ⟨""⟩) = .ok place)
    (proper : isName name = true)
    (short : (directory.join ⟨name⟩).text.utf8ByteSize < maxPath) :
    fs.Names (directory.join ⟨name⟩) (name :: place) := by
  obtain ⟨_, _, _, slashless, nulless, fits⟩ := isName_spec proper
  have relative := isAbsolute_name proper
  have filled : directory.text ≠ "" := by
    intro empty
    rw [Path.join_eq_right (Or.inr empty)] at led
    simp [locate] at led
  obtain ⟨_, clean, _, led⟩ := locate_ok_iff.mp led
  obtain ⟨pieces, split_join⟩ := Path.exists_split_join filled
  have origin : fs.origin (directory.join ⟨name⟩) = fs.origin (directory.join ⟨""⟩) := by
    simp only [FileSystem.origin, Path.isAbsolute_join filled relative,
      Path.isAbsolute_join filled isAbsolute_empty]
  rw [split_join _ isAbsolute_empty, ← origin] at led
  refine ⟨?_, short, pieces, name.toList, place, ?_, led, special_name proper, ?_⟩
  · rw [Path.toList_join filled isAbsolute_empty] at clean
    rw [Path.toList_join filled relative]
    simp only [List.mem_append, not_or] at clean ⊢
    exact ⟨clean.1, clean.2.1, nulless⟩
  · rw [split_join _ relative, Path.split_name slashless]
  · simp [fits]

/-! Texts of places -/

theorem absolute_cons : absolute (name :: place) = absolute place ++ "/" ++ name := rfl

theorem WellFormed.inside_of_get? (sound : fs.WellFormed) {e : Entry}
    (found : fs.get? (name :: place) = some e) :
    isName name = true ∧ fs.get? place = some .directory := by
  have listed : fs.entries.lookup (name :: place) = some e := by
    simpa [get?] using found
  obtain ⟨before, after, split, _⟩ := List.lookup_eq_some_iff.mp listed
  obtain ⟨_, _, same, proper, inside⟩ :=
    sound.inside (name :: place, e) (split ▸ List.mem_append_right _ List.mem_cons_self)
  obtain ⟨rfl, rfl⟩ := List.cons.inj same
  exact ⟨proper, inside⟩

theorem WellFormed.follow_absolute (sound : fs.WellFormed)
    (inside : fs.get? place = some .directory) :
    fs.follow [] (Path.split (absolute place).toList) = .ok place ∧
      '\x00' ∉ (absolute place).toList := by
  induction place with
  | nil =>
    refine ⟨?_, by decide⟩
    exact follow_cons_ok_iff.mpr ⟨rfl, [], by simp [Steps], rfl⟩
  | cons name parent ih =>
    obtain ⟨proper, around⟩ := sound.inside_of_get? inside
    obtain ⟨led, clean⟩ := ih around
    obtain ⟨_, _, _, slashless, nulless, _⟩ := isName_spec proper
    have text : (absolute (name :: parent)).toList =
        (absolute parent).toList ++ '/' :: name.toList := by
      simp [absolute_cons]
    rw [text, Path.split_append_slash, Path.split_name slashless]
    refine ⟨follow_append_ok_iff.mpr ⟨parent, led, ?_⟩, ?_⟩
    · exact follow_cons_ok_iff.mpr ⟨around, _, steps_name proper, rfl⟩
    · simpa [clean] using nulless

theorem isAbsolute_absolute (name : String) (place : Location) :
    Path.isAbsolute ⟨absolute (name :: place)⟩ = true := by
  have opened : (absolute (name :: place)).toList.head? = some '/' := by
    induction place generalizing name with
    | nil => simp [absolute]
    | cons around place ih =>
      rw [absolute_cons, String.toList_append, String.toList_append, List.append_assoc,
        List.head?_append, ih around, Option.some_or]
  simpa [Path.isAbsolute] using opened

theorem getLast?_absolute (proper : isName name = true) :
    (absolute (name :: place)).toList.getLast? ≠ some '/' := by
  obtain ⟨filled, _, _, slashless, _⟩ := isName_spec proper
  obtain ⟨c, ended⟩ : ∃ c, name.toList.getLast? = some c :=
    Option.isSome_iff_exists.mp (by simpa [List.getLast?_isSome] using filled)
  have other : c ≠ '/' := by
    rintro rfl
    exact slashless (List.mem_of_getLast? ended)
  rw [absolute_cons, String.toList_append, List.getLast?_append, ended]
  simpa using other

/-- The text of the place where paths start leads to it from the root, and more can be put
behind it. -/
structure Rooted (fs : FileSystem) : Prop where
  clean : '\x00' ∉ (absolute fs.here).toList
  led : fs.follow [] (Path.split (absolute fs.here).toList) = .ok fs.here
  ended : (absolute fs.here).toList.getLast? ≠ some '/'

theorem WellFormed.rooted (sound : fs.WellFormed) : fs.Rooted := by
  obtain ⟨led, clean⟩ := sound.follow_absolute sound.started
  refine ⟨clean, led, ?_⟩
  cases place : fs.here with
  | nil => decide
  | cons name parent =>
    exact getLast?_absolute (sound.inside_of_get? (place ▸ sound.started)).1

theorem SameTree.rooted (same : SameTree fs fs') (rooted : fs.Rooted) : fs'.Rooted := by
  obtain ⟨clean, led, ended⟩ := rooted
  rw [← same.follow_ok_iff, ← same.here] at led
  rw [← same.here] at clean ended
  exact ⟨clean, led, ended⟩

/-- A path names the same from the root, unless it gets too long. -/
theorem Names.from_root (rooted : fs.Rooted) (named : fs.Names p place)
    (short : (Path.join ⟨absolute fs.here⟩ p).text.utf8ByteSize < maxPath) :
    fs.Names (Path.join ⟨absolute fs.here⟩ p) place := by
  by_cases stands : p.isAbsolute = true ∨ absolute fs.here = ""
  · rwa [Path.join_eq_right (p := ⟨absolute fs.here⟩) stands]
  · rw [not_or, Bool.not_eq_true] at stands
    obtain ⟨relative, filled⟩ := stands
    obtain ⟨clean, _, before, last, directory, split, led, rest⟩ := named
    have text := Path.toList_join (p := ⟨absolute fs.here⟩) filled relative
    rw [if_neg rooted.ended] at text
    refine ⟨?_, short, Path.split (absolute fs.here).toList ++ before, last, directory, ?_, ?_,
      rest⟩
    · rw [text]
      simp [rooted.clean, clean]
    · rw [text, List.append_assoc, ← split]
      exact Path.split_append_slash _ _
    · have opened : Path.isAbsolute ⟨absolute fs.here⟩ = true := by
        cases place : fs.here with
        | nil => exact absurd (congrArg absolute place) filled
        | cons name parent => exact isAbsolute_absolute name parent
      have inner : fs.origin (Path.join ⟨absolute fs.here⟩ p) = [] := by
        rw [FileSystem.origin, Path.isAbsolute_join (p := ⟨absolute fs.here⟩) filled relative,
          if_pos opened]
      have outer : fs.origin p = fs.here := by
        simp only [FileSystem.origin, relative, Bool.false_eq_true, ↓reduceIte]
      rw [inner, List.append_assoc]
      exact follow_append_ok_iff.mpr ⟨fs.here, rooted.led, outer ▸ led⟩

end FileSystem
end FirmwareMeta
