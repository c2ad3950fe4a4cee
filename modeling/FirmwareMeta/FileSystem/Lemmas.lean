import FirmwareMeta.Association
import FirmwareMeta.FileSystem.Basic

/-!
What `put` and `erase` do to the entries of a file system, as `get?` shows them.
-/
namespace FirmwareMeta.FileSystem

theorem get?_put (fs : FileSystem) {place : Location} (h : place ≠ []) (e : Entry)
    (q : Location) : (fs.put place e).get? q = if q = place then some e else fs.get? q := by
  unfold put get?
  by_cases root : q = []
  · simp [root, h.symm]
  · rw [if_neg root, if_neg root]
    by_cases there : (fs.entries.lookup place).isSome
    · obtain ⟨old, found⟩ := Option.isSome_iff_exists.1 there
      rw [if_pos there, Association.lookup_replace]
      by_cases same : q = place
      · rw [if_pos same, if_pos same, same, found, Option.map_some]
      · rw [if_neg same, if_neg same]
    · have absent := Option.not_isSome_iff_eq_none.1 there
      rw [if_neg there, Association.lookup_concat]
      by_cases same : q = place
      · rw [if_pos same, if_pos same, same, absent, Option.none_or]
      · rw [if_neg same, if_neg same, Option.or_none]

theorem get?_erase (fs : FileSystem) {place : Location} (h : place ≠ []) (q : Location) :
    (fs.erase place).get? q = if q = place then none else fs.get? q := by
  unfold erase get?
  by_cases root : q = []
  · simp [root, h.symm]
  · rw [if_neg root, if_neg root, Association.lookup_remove]

end FirmwareMeta.FileSystem
