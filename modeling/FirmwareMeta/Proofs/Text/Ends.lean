import FirmwareMeta.Text.Blank
import Mathlib.Data.List.DropRight

/-! What is left of a text when characters are taken from its ends, by the parts of the text. -/
namespace FirmwareMeta.Text

/-- What is kept of a text without the characters of a kind at its end. -/
def DropsEnd (p : Char → Prop) (text kept : List Char) : Prop :=
  (∃ dropped, text = kept ++ dropped ∧ ∀ c ∈ dropped, p c) ∧ ∀ c, kept.getLast? = some c → ¬p c

/-- What is kept of a text without the blanks at its ends. -/
def Trims (text kept : List Char) : Prop :=
  ∃ front back, text = front ++ kept ++ back ∧ (∀ c ∈ front ++ back, isBlank c) ∧
    (∀ c, kept.head? = some c → ¬isBlank c) ∧ ∀ c, kept.getLast? = some c → ¬isBlank c

variable {p : Char → Bool} {text kept : List Char}

theorem dropEnd_eq_iff : dropEnd p text = kept ↔ DropsEnd (p ·) text kept := by
  change text.rdropWhile p = kept ↔ _
  constructor
  · rintro rfl
    refine ⟨⟨text.rtakeWhile p, List.rdropWhile_append_rtakeWhile.symm, ?_⟩, ?_⟩
    · intro c mem
      exact List.mem_rtakeWhile_imp mem
    · intro c last
      obtain ⟨some, rfl⟩ := List.mem_getLast?_eq_getLast last
      exact List.rdropWhile_last_not p text some
  · rintro ⟨⟨dropped, rfl, all⟩, stops⟩
    induction dropped using List.reverseRecOn with
    | nil =>
      rw [List.append_nil, List.rdropWhile_eq_self_iff]
      intro some
      exact stops _ (List.getLast?_eq_some_getLast some)
    | append_singleton dropped c ih =>
      rw [← List.append_assoc, List.rdropWhile_concat_pos _ _ _ (all c (by simp))]
      exact ih fun d mem => all d (List.mem_append_left _ mem)

theorem head?_dropWhile {c : Char} (first : (text.dropWhile p).head? = some c) : ¬p c := by
  have stops := List.head?_dropWhile_not p text
  rw [first] at stops
  simpa using stops

theorem trim_eq_iff : trim text = kept ↔ Trims text kept := by
  rw [trim, dropEnd_eq_iff]
  constructor
  · rintro ⟨⟨back, parts, blank⟩, stops⟩
    have whole := List.takeWhile_append_dropWhile (p := isBlank) (l := text)
    refine ⟨text.takeWhile isBlank, back, ?_, ?_, ?_, stops⟩
    · rw [List.append_assoc, ← parts, whole]
    · intro c mem
      rcases List.mem_append.mp mem with front | behind
      · exact List.mem_takeWhile_imp front
      · exact blank c behind
    · intro c first
      refine @head?_dropWhile _ text _ ?_
      rw [parts, List.head?_append, first, Option.some_or]
  · rintro ⟨front, back, rfl, blank, starts, stops⟩
    have before : ∀ c ∈ front, isBlank c := fun c mem => blank c (List.mem_append_left _ mem)
    have behind : ∀ c ∈ back, isBlank c := fun c mem => blank c (List.mem_append_right _ mem)
    refine ⟨?_, stops⟩
    rw [List.append_assoc, List.dropWhile_append_of_pos before]
    cases kept with
    | nil =>
      refine ⟨[], ?_, by simp⟩
      rw [List.nil_append, List.append_nil]
      exact List.dropWhile_eq_nil_iff.mpr behind
    | cons c rest =>
      exact ⟨back, List.dropWhile_cons_of_neg (starts c rfl), behind⟩

end FirmwareMeta.Text
