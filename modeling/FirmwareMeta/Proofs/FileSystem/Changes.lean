import FirmwareMeta.Proofs.FileSystem.Joining
import FirmwareMeta.Proofs.Text.Line
import Mathlib.Data.List.Nodup
import Mathlib.Data.List.Perm.Subperm

/-! What is there after a file is staged, moved or removed. -/
namespace FirmwareMeta

theorem Path.byteSize_join_eq {p q r : Path} (relative : q.isAbsolute = r.isAbsolute)
    (same : q.text.utf8ByteSize = r.text.utf8ByteSize) :
    (p.join q).text.utf8ByteSize = (p.join r).text.utf8ByteSize := by
  unfold join
  rw [relative]
  split
  · exact same
  · split <;> simp [same]

theorem Path.byteSize_le_join (p q : Path) :
    q.text.utf8ByteSize ≤ (p.join q).text.utf8ByteSize := by
  unfold join
  split
  · exact Nat.le_refl _
  · split <;> simp

namespace FileSystem

variable {fs fs' : FileSystem} {naming : Naming} {p directory source target temporary : Path}
  {place old q : Location} {places others : List Location} {name : String} {content : ByteArray}

/-! Places without a file -/

theorem inner_of_free (free : fs.get? place = none) : place ≠ [] := by
  rintro rfl
  exact Option.some_ne_none _ free

theorem forall_entries_of_free (free : fs.get? place = none) :
    ∀ entry ∈ fs.entries, entry.1 ≠ place := by
  have absent : fs.entries.lookup place = none := by
    simpa [get?, inner_of_free free] using free
  intro entry listed same
  have other := List.lookup_eq_none_iff.mp absent entry listed
  simp [same] at other

theorem erase_of_free (free : fs.get? place = none) : fs.erase place = fs := by
  have kept : fs.entries.filter (·.1 ≠ place) = fs.entries :=
    List.filter_eq_self.mpr fun entry listed => by
      simpa using forall_entries_of_free free entry listed
  rw [erase, kept]

theorem erase_put (free : fs.get? place = none) (e : Entry) :
    (fs.put place e).erase place = fs := by
  have absent : fs.entries.lookup place = none := by
    simpa [get?, inner_of_free free] using free
  have kept : (fs.entries ++ [(place, e)]).filter (·.1 ≠ place) = fs.entries := by
    rw [List.filter_append, List.filter_eq_self.mpr]
    · simp
    · exact fun entry listed => by simpa using forall_entries_of_free free entry listed
  simp only [erase, put, absent, Option.isSome_none, Bool.false_eq_true, ↓reduceIte, kept]

theorem length_put (free : fs.get? place = none) (e : Entry) :
    (fs.put place e).entries.length = fs.entries.length + 1 := by
  have absent : fs.entries.lookup place = none := by
    simpa [get?, inner_of_free free] using free
  simp [put, absent]

/-- What is left without the files in some places. -/
def without (fs : FileSystem) (places : List Location) : FileSystem :=
  { fs with entries := fs.entries.filter (·.1 ∉ places) }

theorem without_nil : fs.without [] = fs := by
  have kept : fs.entries.filter (·.1 ∉ ([] : List Location)) = fs.entries :=
    List.filter_eq_self.mpr fun entry _ => by simp
  rw [without, kept]

theorem without_append : fs.without (places ++ others) = (fs.without places).without others := by
  simp only [without, List.filter_filter, List.mem_append, not_or, Bool.decide_and, Bool.and_comm]

theorem without_single : fs.without [place] = fs.erase place := by
  simp [without, erase]

theorem without_cons : fs.without (place :: places) = (fs.erase place).without places := by
  rw [← without_single, ← without_append, List.singleton_append]

theorem without_concat : fs.without (places ++ [place]) = (fs.erase place).without places := by
  simp only [without, erase, List.filter_filter, List.mem_append, List.mem_singleton, not_or,
    Bool.decide_and, ne_eq]

theorem get?_without (inner : [] ∉ places) :
    (fs.without places).get? q = if q ∈ places then none else fs.get? q := by
  induction places generalizing fs with
  | nil => simp [without_nil]
  | cons place rest ih =>
    rw [List.mem_cons, not_or] at inner
    rw [without_cons, ih inner.2, get?_erase fs (Ne.symm inner.1)]
    by_cases first : q = place
    · simp [first]
    · simp [first]

theorem sameTree_without (filed : ∀ place ∈ places, fs.get? place ≠ some .directory) :
    SameTree fs (fs.without places) := by
  induction places generalizing fs with
  | nil => exact without_nil ▸ .refl fs
  | cons place rest ih =>
    rw [List.forall_mem_cons] at filed
    have erased := sameTree_erase filed.1
    rw [without_cons]
    exact erased.trans (ih fun q listed =>
      (not_congr (erased.directories q)).mpr (filed.2 q listed))

/-! Names of temporary files -/

theorem utf8Size_of_isAlphanum {c : Char} (plain : c.isAlphanum = true) : c.utf8Size = 1 := by
  have ranges : (decide (65 ≤ c.val ∧ c.val ≤ 90) || decide (97 ≤ c.val) && decide (c.val ≤ 122) ||
      decide (48 ≤ c.val) && decide (c.val ≤ 57)) = true := plain
  have small : c.val ≤ 0x7f := by
    simp only [Bool.or_eq_true, Bool.and_eq_true, decide_eq_true_eq,
      UInt32.le_iff_toNat_le] at ranges ⊢
    simp at ranges ⊢
    omega
  simp [Char.utf8Size, small]

theorem isTemporary_spec (marked : isTemporary name = true) :
    ∃ rest, name.toList = temporaryMark ++ rest ∧ rest.length = 6 ∧
      ∀ c ∈ rest, c.isAlphanum = true := by
  simp only [isTemporary, Bool.and_eq_true, decide_eq_true_eq, List.all_eq_true] at marked
  obtain ⟨⟨front, length⟩, plain⟩ := marked
  obtain ⟨rest, text⟩ := List.isPrefixOf_iff_prefix.mp front
  rw [← text] at length plain
  refine ⟨rest, text.symm, ?_, plain⟩
  simpa [temporaryMark] using length

theorem utf8ByteSize_of_isTemporary (marked : isTemporary name = true) :
    name.utf8ByteSize = 10 := by
  have mark : ∀ c ∈ temporaryMark, c.utf8Size = 1 := by
    simp [temporaryMark, Char.utf8Size]
  obtain ⟨rest, text, length, plain⟩ := isTemporary_spec marked
  rw [← String.ofList_toList (s := name), text, Text.utf8ByteSize_ofList,
    Text.utf8Length_eq_length]
  · simp [length, temporaryMark]
  · intro c listed
    rcases List.mem_append.mp listed with front | back
    · exact mark c front
    · exact utf8Size_of_isAlphanum (plain c back)

theorem isName_of_isTemporary (marked : isTemporary name = true) : isName name = true := by
  have size := utf8ByteSize_of_isTemporary marked
  obtain ⟨rest, text, length, plain⟩ := isTemporary_spec marked
  have differs (other : String) (short : other.toList.length < 10) : name ≠ other := by
    rintro rfl
    simp [text, temporaryMark, length] at short
  have absent (c : Char) (odd : c ∉ temporaryMark) (no : c.isAlphanum = false) :
      c ∉ name.toList := by
    rw [text, List.mem_append, not_or]
    exact ⟨odd, fun back => by simp [plain c back] at no⟩
  have slashless := absent '/' (by decide) (by decide)
  have nulless := absent '\x00' (by decide) (by decide)
  simp [isName, differs "" (by decide), differs "." (by decide), differs ".." (by decide),
    slashless, nulless, size, maxName]

/-- Names are found as long as there are less than a number of entries. -/
def Naming.Supplies (naming : Naming) (count : Nat) : Prop :=
  ∀ (fs : FileSystem) (place : Location), fs.entries.length < count →
    ∃ name, naming.pick fs place = some name

theorem eq_of_temporaryName_eq {n m : Nat} (small : n < maxAttempts) (small' : m < maxAttempts)
    (same : temporaryName n = temporaryName m) : n = m := by
  have letters : ∀ i < 62, ∀ j < 62, nameLetters.getD i 'X' = nameLetters.getD j 'X' → i = j := by
    decide +kernel
  have digit (k : Nat) (inside : k < 6) : n / 62 ^ (5 - k) % 62 = m / 62 ^ (5 - k) % 62 := by
    have texts := List.append_cancel_left (String.ofList_injective same)
    have letter := List.map_inj_left.mp texts k (List.mem_range.mpr inside)
    exact letters _ (Nat.mod_lt _ (by decide)) _ (Nat.mod_lt _ (by decide)) letter
  have high := digit 3 (by decide)
  have middle := digit 4 (by decide)
  have low := digit 5 (by decide)
  simp only [maxAttempts] at small small'
  omega

/-- There are more names to try than entries. -/
theorem Naming.first_supplies : Naming.first.Supplies maxAttempts := by
  intro fs place few
  refine Option.isSome_iff_exists.mp (List.find?_isSome.mpr ?_)
  rw [Nat.min_eq_left few]
  by_contra all_there
  -- Else each name that is tried has an entry, and so there are as many entries as names.
  have there : ∀ q ∈ (List.range (fs.entries.length + 1)).map (temporaryName · :: place),
      q ∈ fs.entries.map (·.1) := by
    refine List.forall_mem_map.mpr fun n listed => ?_
    by_contra absent
    have free : fs.get? (temporaryName n :: place) = none := by
      rw [get?, if_neg (List.cons_ne_nil _ _), List.lookup_eq_none_iff]
      intro entry inside
      have other : entry.1 ≠ temporaryName n :: place :=
        fun same => absent (same ▸ List.mem_map_of_mem inside)
      simpa using other.symm
    exact all_there ⟨temporaryName n, List.mem_map_of_mem listed, by rw [free]; rfl⟩
  have distinct : ((List.range (fs.entries.length + 1)).map (temporaryName · :: place)).Nodup := by
    refine List.Nodup.map_on (fun n first m second same => ?_) List.nodup_range
    rw [List.mem_range] at first second
    exact eq_of_temporaryName_eq (by omega) (by omega) (List.cons.inj same).1
  have count := (List.subperm_of_subset distinct there).length_le
  simp only [List.length_map, List.length_range] at count
  omega

/-! Operations -/

/-- A staged file is a new one with the name of a temporary file. -/
theorem stage_ok (rooted : fs.Rooted)
    (staged : fs.stage naming directory content = .ok (temporary, fs')) :
    ∃ name place, isTemporary name = true ∧ fs.get? (name :: place) = none ∧
      fs.Names temporary (name :: place) ∧ fs' = fs.put (name :: place) (.file content) := by
  simp only [stage] at staged
  split at staged
  · contradiction
  · split at staged
    · contradiction
    · rename_i short _ place led
      split at staged
      · rename_i name picked
        simp only [Except.ok.injEq, Prod.mk.injEq] at staged
        obtain ⟨rfl, rfl⟩ := staged
        have marked := naming.temporary picked
        have proper := isName_of_isTemporary marked
        refine ⟨name, place, marked, naming.free picked, ?_, rfl⟩
        have filled : directory.text ≠ "" := by
          intro empty
          rw [Path.join_eq_right (Or.inr empty)] at led
          exact (locate_ok_iff.mp led).1 rfl
        have size : (Path.mk name).text.utf8ByteSize = (Path.mk ".tmpXXXXXX").text.utf8ByteSize :=
          utf8ByteSize_of_isTemporary marked
        have relative := isAbsolute_name proper
        rw [← Path.byteSize_join_eq (relative.trans rfl) size, Nat.not_le,
          Path.join_assoc filled relative] at short
        rw [Path.join_assoc filled relative]
        have inner := names_join_name led proper
          (Nat.lt_of_le_of_lt (Path.byteSize_le_join _ _) short)
        exact inner.from_root rooted short
      · contradiction

theorem kindOf?_directory : fs.kindOf? place = some .directory ↔
    fs.get? place = some .directory := by
  unfold kindOf?
  cases fs.get? place with
  | none => simp
  | some e => cases e <;> simp [Entry.kind]

theorem wellFormed_iff : fs.WellFormed ↔
    (fs.entries.map (·.1)).Nodup ∧
      (∀ entry ∈ fs.entries, entry.1 ≠ [] ∧ isName (entry.1.headD "") = true ∧
        fs.kindOf? entry.1.tail = some .directory) ∧
      fs.kindOf? fs.here = some .directory := by
  simp only [kindOf?_directory]
  constructor
  · rintro ⟨once, inside, started⟩
    refine ⟨once, fun entry listed => ?_, started⟩
    obtain ⟨name, parent, place, proper, around⟩ := inside entry listed
    rw [place]
    exact ⟨List.cons_ne_nil _ _, proper, around⟩
  · rintro ⟨once, inside, started⟩
    refine ⟨once, fun entry listed => ?_, started⟩
    obtain ⟨filled, proper, around⟩ := inside entry listed
    obtain ⟨name, parent, place⟩ := List.exists_cons_of_ne_nil filled
    rw [place] at proper around
    exact ⟨name, parent, place, proper, around⟩

instance (fs : FileSystem) : Decidable fs.WellFormed :=
  decidable_of_iff _ wellFormed_iff.symm

theorem rename_ok_iff (named : fs.Names source old) : fs.rename source target = .ok fs' ↔
    ∃ moved place, fs.get? old = some moved ∧ fs.Names target place ∧
      fs.get? place ≠ some .directory ∧ fs' = (fs.erase old).put place moved := by
  have slot (q : Location) : fs.Names target q ↔ fs.slot target .busy = .ok (q, false) :=
    names_iff_slot
  simp only [slot, rename, named.locate_eq]
  cases fs.slot target .busy with
  | error e => simp
  | ok found =>
    obtain ⟨place, closed⟩ := found
    cases fs.get? old with
    | none => simp
    | some moved =>
      cases closed with
      | true => simp
      | false =>
        by_cases inside : fs.get? place = some .directory
        · simp [kindOf?_directory, inside]
        · simpa [kindOf?_directory, inside] using eq_comm

theorem remove_eq (named : fs.Names p place) (filed : fs.get? place ≠ some .directory) :
    fs.remove p = if fs.get? place = none then .error .notFound else .ok (fs.erase place) := by
  rw [remove, names_iff_slot.mp named]
  cases found : fs.get? place with
  | none => simp [found]
  | some e =>
    cases e with
    | directory => exact absurd found filed
    | file content => simp [found]

/-- Nothing is left of a staged file that is removed again. -/
theorem discard_stage (rooted : fs.Rooted)
    (staged : fs.stage naming directory content = .ok (temporary, fs')) :
    fs'.discard temporary = fs := by
  obtain ⟨name, place, _, free, named, rfl⟩ := stage_ok rooted staged
  have tree : SameTree fs (fs.put (name :: place) (.file content)) := sameTree_put (by simp [free])
  have there : (fs.put (name :: place) (.file content)).get? (name :: place) =
      some (.file content) := by
    rw [get?_put _ (List.cons_ne_nil _ _), if_pos rfl]
  rw [discard, remove_eq (tree.names_iff.mpr named) (by simp [there])]
  simp [there, erase_put free]

end FileSystem
end FirmwareMeta
