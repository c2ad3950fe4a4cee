/-!
Lists of keys and values as maps: what is found under a key when pairs are added, replaced or
removed.
-/
namespace FirmwareMeta.Association

variable {κ ν : Type} [BEq κ] [LawfulBEq κ] [DecidableEq κ]

theorem lookup_cons (k q : κ) (v : ν) (rest : List (κ × ν)) :
    ((k, v) :: rest).lookup q = if q = k then some v else rest.lookup q := by
  by_cases h : q = k
  · simp [h]
  · have : (q == k) = false := by simpa using h
    simp [List.lookup_cons, this, h]

theorem lookup_concat (l : List (κ × ν)) (k q : κ) (v : ν) :
    (l ++ [(k, v)]).lookup q = (l.lookup q).or (if q = k then some v else none) := by
  rw [List.lookup_append, lookup_cons, List.lookup_nil]

theorem lookup_remove (l : List (κ × ν)) (k q : κ) :
    (l.filter (·.1 ≠ k)).lookup q = if q = k then none else l.lookup q := by
  induction l with
  | nil => simp
  | cons x rest ih =>
    obtain ⟨k', v⟩ := x
    by_cases hk : k' = k
    · subst hk
      rw [List.filter_cons_of_neg (by simp), ih, lookup_cons]
      split <;> rfl
    · rw [List.filter_cons_of_pos (by simpa using hk), lookup_cons, lookup_cons, ih]
      grind

theorem lookup_replace (l : List (κ × ν)) (k q : κ) (v : ν) :
    (l.map fun (k', old) => if k' = k then (k', v) else (k', old)).lookup q =
      if q = k then (l.lookup q).map fun _ => v else l.lookup q := by
  induction l with
  | nil => simp
  | cons x rest ih =>
    obtain ⟨k', old⟩ := x
    rw [List.map_cons, lookup_cons]
    by_cases hk : k' = k
    · rw [if_pos hk, lookup_cons, ih]
      grind
    · rw [if_neg hk, lookup_cons, ih]
      grind

end FirmwareMeta.Association
