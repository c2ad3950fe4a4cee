import FirmwareMeta.Association
import Mathlib.Data.List.Induction
import Mathlib.Data.List.Nodup

/-! Lists without repetitions: what is left when only first occurrences are kept, and maps as lists
with distinct keys. -/
namespace FirmwareMeta

section Occurrences

variable {α : Type} [BEq α] [LawfulBEq α] {l : List α}

theorem eraseDups_concat (l : List α) (a : α) :
    (l ++ [a]).eraseDups = if a ∈ l then l.eraseDups else l.eraseDups ++ [a] := by
  rw [List.eraseDups_append]
  split
  · rename_i known
    simp [List.removeAll, known]
  · rename_i fresh
    simp [List.removeAll, fresh, List.eraseDups_cons]

theorem nodup_eraseDups (l : List α) : l.eraseDups.Nodup := by
  induction l using List.reverseRecOn with
  | nil => exact List.nodup_nil
  | append_singleton l a ih =>
    rw [eraseDups_concat]
    split
    · exact ih
    · rename_i fresh
      rw [← List.concat_eq_append]
      exact ih.concat (mt List.mem_eraseDups.mp fresh)

theorem eraseDups_of_nodup (distinct : l.Nodup) : l.eraseDups = l := by
  induction l with
  | nil => rfl
  | cons a rest ih =>
    rw [List.nodup_cons] at distinct
    have others : rest.filter (fun x => !x == a) = rest := by
      rw [List.filter_eq_self]
      rintro x mem
      simpa using ne_of_mem_of_not_mem mem distinct.1
    rw [List.eraseDups_cons, others, ih distinct.2]

theorem eraseDups_append_eraseDups (a b : List α) :
    (a ++ b.eraseDups).eraseDups = (a ++ b).eraseDups := by
  induction b using List.reverseRecOn with
  | nil => rfl
  | append_singleton b x ih =>
    rw [eraseDups_concat, ← List.append_assoc, eraseDups_concat, ← ih]
    by_cases known : x ∈ b
    · rw [if_pos known, if_pos (List.mem_append_right a known)]
    · rw [if_neg known, ← List.append_assoc, eraseDups_concat]
      simp only [List.mem_append, List.mem_eraseDups]

end Occurrences

namespace Association

variable {κ ν : Type} [BEq κ] [LawfulBEq κ] {a b : List (κ × ν)}

theorem lookup_eq_none_of_not_mem {k : κ} (absent : k ∉ a.map Prod.fst) : a.lookup k = none :=
  List.lookup_eq_none_iff.mpr fun _ listed =>
    bne_iff_ne.mpr fun same => absent (same ▸ List.mem_map_of_mem listed)

variable [DecidableEq κ]

/-- Where each key stands once, the order of the pairs does not matter. -/
theorem lookup_reverse (distinct : (a.map Prod.fst).Nodup) (k : κ) :
    a.reverse.lookup k = a.lookup k := by
  induction a with
  | nil => rfl
  | cons x rest ih =>
    rw [List.map_cons, List.nodup_cons] at distinct
    rw [List.reverse_cons, lookup_concat, lookup_cons, ih distinct.2]
    split
    · rename_i same
      rw [same, lookup_eq_none_of_not_mem distinct.1, Option.none_or]
    · rw [Option.or_none]

theorem eq_of_lookup (keys : a.map Prod.fst = b.map Prod.fst) (distinct : (a.map Prod.fst).Nodup)
    (values : ∀ k, a.lookup k = b.lookup k) : a = b := by
  induction a generalizing b with
  | nil => exact (List.map_eq_nil_iff.mp keys.symm).symm
  | cons x rest ih =>
    obtain ⟨y, others, rfl, first, behind⟩ := List.map_eq_cons_iff.mp keys.symm
    rw [List.map_cons, List.nodup_cons] at distinct
    have own := values x.1
    rw [lookup_cons, lookup_cons, if_pos rfl, if_pos first.symm, Option.some.injEq] at own
    have same : x = y := Prod.ext first.symm own
    subst same
    rw [ih behind.symm distinct.2]
    intro k
    have found := values k
    rw [lookup_cons, lookup_cons] at found
    by_cases head : k = x.1
    · rw [head, lookup_eq_none_of_not_mem distinct.1,
        lookup_eq_none_of_not_mem (behind ▸ distinct.1)]
    · rwa [if_neg head, if_neg head] at found

end Association
end FirmwareMeta
