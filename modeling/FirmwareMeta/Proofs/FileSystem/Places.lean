import FirmwareMeta.FileSystem.Lemmas

/-! Where paths lead. It hangs on the directories and on the place where paths start, so it stays
the same while files come and go. -/
namespace FirmwareMeta

namespace Path

variable {text before after : List Char}

theorem split_cons_slash (text : List Char) : split ('/' :: text) = [] :: split text := rfl

theorem split_ne_nil (text : List Char) : split text ≠ [] := by
  cases text with
  | nil => simp [split]
  | cons c rest =>
    by_cases slash : c = '/'
    · rw [slash, split_cons_slash]
      exact List.cons_ne_nil _ _
    · simp only [split, List.foldr_cons, slash, ↓reduceIte]
      split <;> exact List.cons_ne_nil _ _

theorem split_cons {c : Char} (other : c ≠ '/') (text : List Char) :
    ∃ piece rest, split text = piece :: rest ∧ split (c :: text) = (c :: piece) :: rest := by
  obtain ⟨piece, rest, found⟩ := List.exists_cons_of_ne_nil (split_ne_nil text)
  refine ⟨piece, rest, found, ?_⟩
  unfold split at found ⊢
  rw [List.foldr_cons, if_neg other, found]

theorem split_append_slash (before after : List Char) :
    split (before ++ '/' :: after) = split before ++ split after := by
  induction before with
  | nil => rfl
  | cons c rest ih =>
    by_cases slash : c = '/'
    · rw [slash, List.cons_append, split_cons_slash, ih, split_cons_slash, List.cons_append]
    · obtain ⟨piece, more, found, split_c⟩ := split_cons slash rest
      obtain ⟨piece', more', found', split_c'⟩ := split_cons slash (rest ++ '/' :: after)
      rw [ih, found, List.cons_append] at found'
      obtain ⟨rfl, rfl⟩ := List.cons.inj found'
      rw [List.cons_append, split_c', split_c, List.cons_append]

theorem split_name (closed : '/' ∉ text) : split text = [text] := by
  induction text with
  | nil => rfl
  | cons c rest ih =>
    rw [List.mem_cons, not_or] at closed
    obtain ⟨other, closed⟩ := closed
    obtain ⟨piece, more, found, split_c⟩ := split_cons (Ne.symm other) rest
    rw [ih closed] at found
    obtain ⟨rfl, rfl⟩ := List.cons.inj found
    exact split_c

end Path

namespace FileSystem

variable {fs fs' fs'' : FileSystem} {p : Path} {place directory : Location} {name : String}

/-! Directories -/

/-- The directories are the same, and so is the place where paths start. -/
structure SameTree (fs fs' : FileSystem) : Prop where
  here : fs'.here = fs.here
  directories : ∀ place, fs'.get? place = some .directory ↔ fs.get? place = some .directory

theorem SameTree.refl (fs : FileSystem) : SameTree fs fs := ⟨rfl, fun _ => Iff.rfl⟩

theorem SameTree.trans (first : SameTree fs fs') (second : SameTree fs' fs'') :
    SameTree fs fs'' :=
  ⟨second.here.trans first.here, fun place =>
    (second.directories place).trans (first.directories place)⟩

theorem sameTree_erase (filed : fs.get? place ≠ some .directory) :
    SameTree fs (fs.erase place) := by
  have inner : place ≠ [] := by
    rintro rfl
    exact filed rfl
  refine ⟨rfl, fun q => ?_⟩
  rw [get?_erase fs inner]
  split
  · rename_i same
    exact iff_of_false (by simp) (same ▸ filed)
  · exact Iff.rfl

theorem sameTree_put {content : ByteArray} (filed : fs.get? place ≠ some .directory) :
    SameTree fs (fs.put place (.file content)) := by
  have inner : place ≠ [] := by
    rintro rfl
    exact filed rfl
  refine ⟨rfl, fun q => ?_⟩
  rw [get?_put fs inner]
  split
  · rename_i same
    exact iff_of_false (by simp) (same ▸ filed)
  · exact Iff.rfl

/-! Following -/

/-- One step on the way, from a directory. -/
def Steps (place : Location) (piece : List Char) (next : Location) : Prop :=
  if piece = [] ∨ piece = ['.'] then next = place
  else if piece = ['.', '.'] then next = place.tail
  else (String.ofList piece).utf8ByteSize ≤ maxName ∧ next = String.ofList piece :: place

theorem follow_cons_ok_iff {piece : List Char} {rest : List (List Char)} {target : Location} :
    fs.follow place (piece :: rest) = .ok target ↔
      fs.get? place = some .directory ∧ ∃ next, Steps place piece next ∧
        fs.follow next rest = .ok target := by
  rw [follow]
  cases found : fs.get? place with
  | none => simp
  | some e =>
    cases e with
    | file content => simp
    | directory =>
      simp only [Steps]
      by_cases stays : piece = [] ∨ piece = ['.']
      · simp [stays]
      · by_cases up : piece = ['.', '.']
        · simp [up]
        · simp only [stays, up, ↓reduceIte]
          by_cases long : maxName < (String.ofList piece).utf8ByteSize
          · simp [long, Nat.not_le.mpr long]
          · simp [long, Nat.not_lt.mp long]

theorem follow_append_ok_iff {front back : List (List Char)} {target : Location} :
    fs.follow place (front ++ back) = .ok target ↔
      ∃ middle, fs.follow place front = .ok middle ∧ fs.follow middle back = .ok target := by
  induction front generalizing place with
  | nil => simp [follow]
  | cons piece rest ih =>
    simp only [List.cons_append, follow_cons_ok_iff, ih]
    constructor
    · rintro ⟨inside, next, step, middle, first, second⟩
      exact ⟨middle, ⟨inside, next, step, first⟩, second⟩
    · rintro ⟨middle, ⟨inside, next, step, first⟩, second⟩
      exact ⟨inside, next, step, middle, first, second⟩

theorem SameTree.follow_ok_iff (same : SameTree fs fs') {pieces : List (List Char)}
    {target : Location} : fs'.follow place pieces = .ok target ↔
      fs.follow place pieces = .ok target := by
  induction pieces generalizing place with
  | nil => rfl
  | cons piece rest ih => simp only [follow_cons_ok_iff, same.directories, ih]

/-- A path that ends in a separator leads to a directory. -/
theorem follow_void_ok_iff {front : List (List Char)} {target : Location} :
    fs.follow place (front ++ [[]]) = .ok target ↔
      fs.follow place front = .ok target ∧ fs.get? target = some .directory := by
  simp only [follow_append_ok_iff, follow_cons_ok_iff, Steps]
  simp only [true_or, ↓reduceIte, exists_eq_left, follow, Except.ok.injEq]
  constructor
  · rintro ⟨middle, first, inside, rfl⟩
    exact ⟨first, inside⟩
  · rintro ⟨first, inside⟩
    exact ⟨target, first, inside, rfl⟩

theorem locate_ok_iff : fs.locate p = .ok place ↔
    p.text ≠ "" ∧ '\x00' ∉ p.text.toList ∧ p.text.utf8ByteSize < maxPath ∧
      fs.follow (fs.origin p) (Path.split p.text.toList) = .ok place := by
  unfold locate
  by_cases filled : p.text = ""
  · simp [filled]
  · have some_text : p.text.isEmpty = false := String.isEmpty_eq_false_iff.mpr filled
    by_cases nul : '\x00' ∈ p.text.toList
    · simp [some_text, nul]
    · by_cases long : maxPath ≤ p.text.utf8ByteSize
      · simp [some_text, nul, long, Nat.not_lt.mpr long]
      · simp [filled, some_text, nul, long, Nat.not_le.mp long]

theorem SameTree.locate_ok_iff (same : SameTree fs fs') :
    fs'.locate p = .ok place ↔ fs.locate p = .ok place := by
  have origin : fs'.origin p = fs.origin p := by simp only [FileSystem.origin, same.here]
  simp only [FileSystem.locate_ok_iff, origin, same.follow_ok_iff]

/-! Names of files -/

/-- A path that names a file, there or to be made: its last piece is the name, and the pieces in
front of it lead to the directory. -/
structure Names (fs : FileSystem) (p : Path) (place : Location) : Prop where
  clean : '\x00' ∉ p.text.toList
  short : p.text.utf8ByteSize < maxPath
  named : ∃ before last directory, Path.split p.text.toList = before ++ [last] ∧
    fs.follow (fs.origin p) (before ++ [[]]) = .ok directory ∧
    ¬(last = [] ∨ last = ['.'] ∨ last = ['.', '.']) ∧
    (String.ofList last).utf8ByteSize ≤ maxName ∧ place = String.ofList last :: directory

theorem lastPiece_eq_iff {before : List (List Char)} {last : List Char} (filled : last ≠ []) :
    lastPiece p = (before, last, false) ↔ Path.split p.text.toList = before ++ [last] := by
  unfold lastPiece
  generalize Path.split p.text.toList = pieces
  constructor
  · intro found
    simp only [Prod.mk.injEq, decide_eq_false_iff_not, Nat.not_lt] at found
    obtain ⟨rfl, rfl, long⟩ := found
    have whole : pieces.reverse.dropWhile (·.isEmpty) = pieces.reverse :=
      (List.dropWhile_suffix _).eq_of_length_le long
    rw [whole] at filled ⊢
    cases reversed : pieces.reverse with
    | nil => simp [reversed] at filled
    | cons last rest =>
      rw [← List.reverse_reverse pieces, reversed, List.reverse_cons]
      rfl
  · rintro rfl
    have opened : last.isEmpty = false := List.isEmpty_eq_false_iff.mpr filled
    simp [opened]

theorem filled_of_split {before : List (List Char)} {last : List Char}
    (split : Path.split p.text.toList = before ++ [last]) (filled : last ≠ []) :
    p.text ≠ "" := by
  intro empty
  rw [empty] at split
  have void : before ++ [last] = [] ++ [[]] := split.symm
  exact filled (List.singleton_inj.mp (List.append_inj_right' void rfl))

theorem names_iff_slot {nameless : IoError} :
    fs.Names p place ↔ fs.slot p nameless = .ok (place, false) := by
  constructor
  · rintro ⟨clean, short, before, last, directory, split, led, proper, fits, rfl⟩
    have filled : last ≠ [] := fun void => proper (Or.inl void)
    have some_text : p.text.isEmpty = false :=
      String.isEmpty_eq_false_iff.mpr (filled_of_split split filled)
    simp only [slot, some_text, clean, Nat.not_le.mpr short, Bool.false_eq_true, ↓reduceIte,
      (lastPiece_eq_iff filled).mpr split, led, proper, Nat.not_lt.mpr fits]
  · intro found
    unfold slot at found
    split at found
    · contradiction
    · split at found
      · contradiction
      · split at found
        · contradiction
        · rename_i clean short
          rcases pieces : lastPiece p with ⟨before, last, closed⟩
          simp only [pieces] at found
          split at found
          · contradiction
          · rename_i directory led
            split at found
            · contradiction
            · rename_i proper
              split at found
              · contradiction
              · rename_i fits
                simp only [Except.ok.injEq, Prod.mk.injEq] at found
                obtain ⟨rfl, rfl⟩ := found
                have filled : last ≠ [] := fun void => proper (Or.inl void)
                exact ⟨clean, Nat.not_le.mp short, before, last, directory,
                  (lastPiece_eq_iff filled).mp pieces, led, proper, Nat.not_lt.mp fits, rfl⟩

instance (fs : FileSystem) (p : Path) (place : Location) : Decidable (fs.Names p place) :=
  decidable_of_iff ((fs.slot p .busy).toOption = some (place, false)) <| by
    rw [names_iff_slot (p := p)]
    cases fs.slot p .busy <;> simp [Except.toOption]

theorem Names.unique {place' : Location} (first : fs.Names p place) (second : fs.Names p place') :
    place = place' := by
  have found : fs.slot p .busy = _ := names_iff_slot.mp first
  rw [names_iff_slot.mp second] at found
  simpa using found.symm

theorem Names.inner (named : fs.Names p place) : place ≠ [] := by
  obtain ⟨_, _, _, _, _, _, _, _, _, rfl⟩ := named
  exact List.cons_ne_nil _ _

theorem Names.locate_eq (named : fs.Names p place) : fs.locate p = .ok place := by
  obtain ⟨clean, short, before, last, directory, split, led, proper, fits, rfl⟩ := named
  obtain ⟨front, inside⟩ := follow_void_ok_iff.mp led
  rw [not_or, not_or] at proper
  obtain ⟨filled, not_here, not_up⟩ := proper
  have last_step : fs.follow directory [last] = .ok (String.ofList last :: directory) :=
    follow_cons_ok_iff.mpr ⟨inside, _, by simp [Steps, filled, not_here, not_up, fits], rfl⟩
  refine locate_ok_iff.mpr ⟨filled_of_split split filled, clean, short, ?_⟩
  rw [split]
  exact follow_append_ok_iff.mpr ⟨directory, front, last_step⟩

theorem SameTree.names_iff (same : SameTree fs fs') : fs'.Names p place ↔ fs.Names p place := by
  have origin : fs'.origin p = fs.origin p := by simp only [FileSystem.origin, same.here]
  constructor
  · rintro ⟨clean, short, before, last, directory, split, led, rest⟩
    rw [origin, same.follow_ok_iff] at led
    exact ⟨clean, short, before, last, directory, split, led, rest⟩
  · rintro ⟨clean, short, before, last, directory, split, led, rest⟩
    rw [← origin, ← same.follow_ok_iff] at led
    exact ⟨clean, short, before, last, directory, split, led, rest⟩

end FileSystem
end FirmwareMeta
