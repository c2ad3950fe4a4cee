import FirmwareMeta.Config.Options
import FirmwareMeta.Proofs.Distinct

/-! Options as what assignments leave: each key stands where it was assigned first, with the value
that it was assigned last. Options that say so of the same assignments are the same, and the entries
of options are assignments that lead to them. -/
namespace FirmwareMeta.Config.Options

variable {o more : Options} {key value : String} {front list : List (String × String)}

def keys (o : Options) : List String := o.entries.map Prod.fst

/-- The assignments of a list, one after the other. -/
def assignAll (o : Options) (list : List (String × String)) : Options :=
  list.foldl (fun o entry => o.assign entry.1 entry.2) o

/-- The options that assignments leave, the first one in front. -/
structure Holds (o : Options) (list : List (String × String)) : Prop where
  keys : o.keys = (list.map Prod.fst).eraseDups
  values : ∀ key, o.get? key = list.reverse.lookup key

theorem keys_assign (o : Options) (key value : String) :
    (o.assign key value).keys = if key ∈ o.keys then o.keys else o.keys ++ [key] := by
  unfold keys assign
  generalize o.entries = entries
  induction entries with
  | nil => rfl
  | cons x rest ih =>
    obtain ⟨k, v⟩ := x
    rw [assignIn]
    by_cases same : k = key
    · simp [same]
    · have head : key ∈ k :: rest.map Prod.fst ↔ key ∈ rest.map Prod.fst := by
        simp [Ne.symm same]
      rw [if_neg same, List.map_cons, ih, List.map_cons]
      simp only [head]
      split <;> rfl

theorem holds_empty : empty.Holds [] := ⟨rfl, fun _ => rfl⟩

/-- One more assignment. -/
theorem Holds.assign (holds : o.Holds list) (key value : String) :
    (o.assign key value).Holds (list ++ [(key, value)]) := by
  constructor
  · have known : key ∈ o.keys ↔ key ∈ list.map Prod.fst := by
      rw [holds.keys, List.mem_eraseDups]
    rw [keys_assign, List.map_append, List.map_singleton, eraseDups_concat, holds.keys]
    simp only [List.mem_eraseDups]
  · intro q
    rw [get?_assign, List.reverse_append, List.reverse_singleton, List.singleton_append,
      Association.lookup_cons, holds.values]

theorem Holds.assignAll (holds : o.Holds front) (list : List (String × String)) :
    (o.assignAll list).Holds (front ++ list) := by
  induction list generalizing o front with
  | nil => simpa [Options.assignAll] using holds
  | cons x rest ih =>
    have next := ih (holds.assign x.1 x.2)
    rwa [List.append_assoc, List.singleton_append] at next

theorem Holds.distinct (holds : o.Holds list) : o.keys.Nodup := by
  rw [holds.keys]
  exact nodup_eraseDups _

theorem Holds.unique (one : o.Holds list) (also : more.Holds list) : o = more := by
  have same : o.entries = more.entries := by
    apply Association.eq_of_lookup
    · exact one.keys.trans also.keys.symm
    · exact one.distinct
    · exact fun k => (one.values k).trans (also.values k).symm
  cases o
  cases more
  exact congrArg Options.mk same

/-- The entries are assignments in which every key stands once. -/
theorem Holds.entries (holds : o.Holds list) : o.Holds o.entries := by
  constructor
  · exact (eraseDups_of_nodup holds.distinct).symm
  · exact fun key => (Association.lookup_reverse holds.distinct key).symm

/-- Instead of assignments, the entries that they lead to can be assigned. -/
theorem Holds.assignAll_entries (holds : o.Holds front) (others : more.Holds list) :
    o.assignAll more.entries = o.assignAll list := by
  have entered := holds.assignAll more.entries
  have same : (o.assignAll more.entries).Holds (front ++ list) := by
    constructor
    · rw [entered.keys, List.map_append, List.map_append, ← eraseDups_append_eraseDups _
        (list.map Prod.fst), ← others.keys]
      rfl
    · intro key
      rw [entered.values, List.reverse_append, List.lookup_append, List.reverse_append,
        List.lookup_append, ← others.entries.values, others.values]
  exact same.unique (holds.assignAll list)

end FirmwareMeta.Config.Options
