import FirmwareMeta.Hardware.Partition
import FirmwareMeta.Proofs.Devicetree.Openings

/-! Which partitions are found, and where. Of the nodes with one label the last of each name says
where its partition is, and the first one that has no proper `reg` is reported. -/
namespace FirmwareMeta.Hardware

open Devicetree (DefinesReg openingsAt pathAt)

namespace NodeInfo

variable {n : NodeInfo} {start size : UInt32} {fault : DescriptionFault}

/-- The node is that of one of some names. -/
def Marks (n : NodeInfo) (names : List String) : Prop :=
  ∃ name ∈ names, n.labels = [name]

/-- The first two cells of a node. -/
def Spans (n : NodeInfo) (start size : UInt32) : Prop :=
  ∃ first second more, n.reg = some (first :: second :: more) ∧
    first.toNat = start.toNat ∧ second.toNat = size.toNat

/-- What keeps a node from having an address and a size. -/
inductive Faulty (n : NodeInfo) : DescriptionFault → Prop
  | noReg : n.reg = none → Faulty n (.noReg n.path)
  | short {cells : List UInt64} : n.reg = some cells → cells.length < 2 →
      Faulty n (.shortReg n.path cells.length)
  | address {first second : UInt64} {more : List UInt64} :
      n.reg = some (first :: second :: more) → Word.limit ≤ first.toNat →
      Faulty n (.wideCell n.path first)
  | size {first second : UInt64} {more : List UInt64} :
      n.reg = some (first :: second :: more) → first.toNat < Word.limit →
      Word.limit ≤ second.toNat → Faulty n (.wideCell n.path second)

/-- What is reported starts with the path of the node. -/
theorem Faulty.message (faulty : n.Faulty fault) :
    ∃ what, fault.message = n.path ++ ": " ++ what := by
  have named {text : String} (what rest : String) (opens : text = ": " ++ what) :
      n.path ++ text ++ rest = n.path ++ ": " ++ (what ++ rest) := by
    simp only [opens, String.append_assoc]
  cases faulty with
  | noReg _ =>
    refine ⟨"partition has no numeric reg" ++ "", ?_⟩
    rw [← named "partition has no numeric reg" "" rfl, String.append_empty]
    rfl
  | short _ _ => exact ⟨_, (String.append_assoc ..).trans (named "reg has " _ rfl)⟩
  | address _ _ => exact ⟨_, (String.append_assoc ..).trans (named "reg cell " _ rfl)⟩
  | size _ _ _ => exact ⟨_, (String.append_assoc ..).trans (named "reg cell " _ rfl)⟩

theorem toNat_toUInt32 {cell : UInt64} (narrow : cell.toNat < Word.limit) :
    cell.toUInt32.toNat = cell.toNat :=
  (UInt64.toNat_toUInt32 cell).trans (Nat.mod_eq_of_lt narrow)

theorem word_ok_iff {cell : UInt64} {w : UInt32} :
    n.word cell = .ok w ↔ cell.toNat = w.toNat := by
  unfold word
  split
  · rename_i narrow
    rw [Except.ok.injEq, ← UInt32.toNat_inj, toNat_toUInt32 narrow]
  · rename_i wide
    refine iff_of_false (by simp) fun same => wide ?_
    rw [same]
    exact w.toNat_lt

theorem word_error_iff {cell : UInt64} :
    n.word cell = .error fault ↔ Word.limit ≤ cell.toNat ∧ fault = .wideCell n.path cell := by
  unfold word
  split
  · rename_i narrow
    simp [Nat.not_le.mpr narrow]
  · rename_i wide
    simp [Nat.not_lt.mp wide, eq_comm]

theorem addressAndSize_ok_iff : n.addressAndSize = .ok (start, size) ↔ n.Spans start size := by
  unfold addressAndSize Spans
  split
  · rename_i none
    simp [none]
  · rename_i first second more found
    simp [found, bind_ok_iff, word_ok_iff, pure, Except.pure]
  · rename_i cells short found
    refine iff_of_false (by simp) ?_
    rintro ⟨first, second, more, also, _⟩
    exact short first second more (Option.some.inj (found.symm.trans also))

theorem Faulty.addressAndSize_eq (faulty : n.Faulty fault) : n.addressAndSize = .error fault := by
  unfold addressAndSize
  cases faulty with
  | noReg none => rw [none]
  | @short cells found few =>
    match cells with
    | [] => rw [found]
    | [_] => rw [found]
    | _ :: _ :: more => exact absurd few (by simp)
  | address found wide =>
    rw [found]
    exact bind_error_iff.mpr (Or.inl (word_error_iff.mpr ⟨wide, rfl⟩))
  | size found narrow wide =>
    rw [found]
    refine bind_error_iff.mpr (Or.inr ⟨_, word_ok_iff.mpr (toNat_toUInt32 narrow).symm, ?_⟩)
    exact bind_error_iff.mpr (Or.inl (word_error_iff.mpr ⟨wide, rfl⟩))

theorem addressAndSize_error_iff : n.addressAndSize = .error fault ↔ n.Faulty fault := by
  refine ⟨fun failed => ?_, Faulty.addressAndSize_eq⟩
  unfold addressAndSize at failed
  split at failed
  · rename_i none
    obtain rfl := Except.error.inj failed
    exact .noReg none
  · rename_i first second more found
    simp only [bind_error_iff, word_error_iff, word_ok_iff] at failed
    rcases failed with ⟨wide, rfl⟩ | ⟨start, narrow, ⟨wide, rfl⟩ | ⟨_, _, made⟩⟩
    · exact .address found wide
    · exact .size found (narrow ▸ start.toNat_lt) wide
    · contradiction
  · rename_i cells short found
    obtain rfl := Except.error.inj failed
    refine .short found ?_
    match cells with
    | [] => simp
    | [_] => simp
    | first :: second :: more => exact absurd rfl (short first second more)

theorem Spans.not_faulty (spans : n.Spans start size) : ¬n.Faulty fault := by
  intro faulty
  have failed := faulty.addressAndSize_eq
  rw [addressAndSize_ok_iff.mpr spans] at failed
  contradiction

end NodeInfo

/-- What a partition says about some nodes: none has its name for its only label, or the last one
that has starts with its address and its size. -/
inductive Partition.Sums (nodes : List NodeInfo) : Partition → Prop
  | absent {name : String} : (∀ n ∈ nodes, n.labels ≠ [name]) → Sums nodes ⟨name, 0, 0, false⟩
  | last {name : String} {start size : UInt32} {before behind : List NodeInfo} {n : NodeInfo} :
      nodes = before ++ n :: behind → n.labels = [name] → (∀ m ∈ behind, m.labels ≠ [name]) →
      n.Spans start size → Sums nodes ⟨name, start, size, true⟩

namespace Partition

variable {nodes : List NodeInfo} {n : NodeInfo} {p : Partition}

theorem Sums.found_iff (sums : p.Sums nodes) :
    p.found = true ↔ ∃ n ∈ nodes, n.labels = [p.name] := by
  cases sums with
  | absent none => simpa using none
  | last split label _ _ =>
    exact iff_of_true rfl ⟨_, split ▸ List.mem_append_right _ List.mem_cons_self, label⟩

/-- A node of another label changes nothing. -/
theorem Sums.concat (sums : p.Sums nodes) (other : n.labels ≠ [p.name]) :
    p.Sums (nodes ++ [n]) := by
  cases sums with
  | absent none =>
    exact .absent (List.forall_mem_append.mpr ⟨none, List.forall_mem_singleton.mpr other⟩)
  | @last name start size before behind m split label others spans =>
    have longer : nodes ++ [n] = before ++ m :: (behind ++ [n]) := by
      rw [split, List.append_assoc, List.cons_append]
    exact .last longer label
      (List.forall_mem_append.mpr ⟨others, List.forall_mem_singleton.mpr other⟩) spans

end Partition

namespace PartitionTable

variable {t t' : PartitionTable} {names : List String} {nodes done : List NodeInfo} {n : NodeInfo}
  {fault : DescriptionFault}

/-- A table of some names after some nodes: one partition for each name, in the order in which they
come first. -/
structure Resolved (names : List String) (nodes : List NodeInfo) (t : PartitionTable) : Prop where
  names : t.partitions.map (·.name) = names.eraseDups
  sums : ∀ p ∈ t.partitions, p.Sums nodes

theorem resolved_requested (names : List String) : Resolved names [] (requested names) := by
  refine ⟨?_, List.forall_mem_map.mpr fun name _ => .absent (by simp)⟩
  simp only [requested, List.map_map]
  exact (List.map_id _).trans (Devicetree.Node.addLabels_nil names)

theorem Resolved.requests_iff (resolved : Resolved names done t) {name : String} :
    t.requests name = true ↔ name ∈ names := by
  rw [← List.mem_eraseDups, ← resolved.names, requests, List.any_eq_true, List.mem_map]
  simp only [decide_eq_true_eq]

/-- What a node does to a table: nothing, unless it counts. -/
theorem Resolved.addNode_cases (resolved : Resolved names done t) (n : NodeInfo) :
    (¬n.Marks names ∧ t.addNode n = .ok t) ∨
      ∃ name ∈ names, n.labels = [name] ∧
        ((∃ fault, n.Faulty fault ∧ t.addNode n = .error fault) ∨
          ∃ start size, n.Spans start size ∧ t.addNode n = .ok (t.place name start size)) := by
  unfold addNode
  split
  · rename_i name label
    by_cases requested : t.requests name = true
    · refine Or.inr ⟨name, resolved.requests_iff.mp requested, label, ?_⟩
      rw [if_pos requested]
      cases found : n.addressAndSize with
      | error fault => exact Or.inl ⟨fault, NodeInfo.addressAndSize_error_iff.mp found, rfl⟩
      | ok spans => exact Or.inr ⟨_, _, NodeInfo.addressAndSize_ok_iff.mp found, rfl⟩
    · refine Or.inl ⟨?_, if_neg requested⟩
      rintro ⟨other, listed, also⟩
      obtain rfl := List.singleton_inj.mp (label.symm.trans also)
      exact requested (resolved.requests_iff.mpr listed)
  · rename_i several
    exact Or.inl ⟨fun ⟨name, _, label⟩ => several name label, rfl⟩

theorem Resolved.addNode_error_iff (resolved : Resolved names done t) :
    t.addNode n = .error fault ↔ n.Marks names ∧ n.Faulty fault := by
  rcases resolved.addNode_cases n with ⟨unmarked, same⟩ | ⟨name, listed, label,
    ⟨cause, faulty, failed⟩ | ⟨start, size, spans, placed⟩⟩
  · simp [same, unmarked]
  · rw [failed]
    constructor
    · rintro ⟨⟩
      exact ⟨⟨name, listed, label⟩, faulty⟩
    · rintro ⟨_, also⟩
      rw [Except.error.inj (faulty.addressAndSize_eq.symm.trans also.addressAndSize_eq)]
  · rw [placed]
    exact iff_of_false (by simp) fun ⟨_, faulty⟩ => NodeInfo.Spans.not_faulty spans faulty

/-- One more node. -/
theorem Resolved.addNode (resolved : Resolved names done t) (added : t.addNode n = .ok t') :
    Resolved names (done ++ [n]) t' := by
  rcases resolved.addNode_cases n with ⟨unmarked, same⟩ | ⟨name, listed, label,
    ⟨cause, faulty, failed⟩ | ⟨start, size, spans, placed⟩⟩
  · obtain rfl := Except.ok.inj (same.symm.trans added)
    refine ⟨resolved.names, fun p mem => (resolved.sums p mem).concat fun label => unmarked ?_⟩
    have listed : p.name ∈ t.partitions.map (·.name) := List.mem_map_of_mem mem
    rw [resolved.names, List.mem_eraseDups] at listed
    exact ⟨p.name, listed, label⟩
  · rw [failed] at added
    contradiction
  · obtain rfl := Except.ok.inj (placed.symm.trans added)
    constructor
    · rw [← resolved.names, place, List.map_map]
      apply List.map_congr_left
      intro p _
      by_cases same : p.name = name <;> simp [same]
    · refine List.forall_mem_map.mpr fun p mem => ?_
      by_cases same : p.name = name
      · rw [if_pos same]
        exact .last rfl label (by simp) spans
      · rw [if_neg same]
        refine (resolved.sums p mem).concat fun also => same ?_
        exact List.singleton_inj.mp (also.symm.trans label)

/-- What is wrong with the first of some nodes that counts and has no address and size. -/
def FirstFault (names : List String) (nodes : List NodeInfo) (fault : DescriptionFault) : Prop :=
  ∃ before n behind, nodes = before ++ n :: behind ∧ n.Marks names ∧ n.Faulty fault ∧
    ∀ m ∈ before, m.Marks names → ∀ f, ¬m.Faulty f

theorem firstFault_cons {rest : List NodeInfo} : FirstFault names (n :: rest) fault ↔
    (n.Marks names ∧ n.Faulty fault) ∨
      (n.Marks names → ∀ f, ¬n.Faulty f) ∧ FirstFault names rest fault := by
  constructor
  · rintro ⟨before, m, behind, split, marks, faulty, sound⟩
    cases before with
    | nil =>
      obtain ⟨rfl, rfl⟩ := List.cons.inj split
      exact Or.inl ⟨marks, faulty⟩
    | cons first before =>
      obtain ⟨rfl, rfl⟩ := List.cons.inj split
      rw [List.forall_mem_cons] at sound
      exact Or.inr ⟨sound.1, before, m, behind, rfl, marks, faulty, sound.2⟩
  · rintro (⟨marks, faulty⟩ | ⟨sound, before, m, behind, rfl, marks, faulty, others⟩)
    · exact ⟨[], n, rest, rfl, marks, faulty, by simp⟩
    · exact ⟨n :: before, m, behind, rfl, marks, faulty, List.forall_mem_cons.mpr ⟨sound, others⟩⟩

theorem exists_firstFault_iff : (∃ fault, FirstFault names nodes fault) ↔
    ∃ n ∈ nodes, n.Marks names ∧ ∃ fault, n.Faulty fault := by
  induction nodes with
  | nil => simp [FirstFault]
  | cons n rest ih =>
    simp only [firstFault_cons, exists_or, exists_and_left, ih, List.exists_mem_cons_iff]
    by_cases bad : n.Marks names ∧ ∃ f, n.Faulty f
    · exact iff_of_true (Or.inl bad) (Or.inl bad)
    · exact or_congr_right (and_iff_right fun marks f faulty => bad ⟨marks, f, faulty⟩)

/-- The rest of the nodes. The induction is on them, with the table of those in front. -/
theorem Resolved.foldlM_error_iff (resolved : Resolved names done t) :
    nodes.foldlM PartitionTable.addNode t = .error fault ↔ FirstFault names nodes fault := by
  induction nodes generalizing t done with
  | nil => simp [FirstFault, pure, Except.pure]
  | cons n rest ih =>
    rw [List.foldlM_cons, bind_error_iff, firstFault_cons, resolved.addNode_error_iff]
    refine or_congr_right ⟨?_, ?_⟩
    · rintro ⟨next, added, failed⟩
      refine ⟨fun marks f faulty => ?_, (ih (resolved.addNode added)).mp failed⟩
      rw [resolved.addNode_error_iff.mpr ⟨marks, faulty⟩] at added
      contradiction
    · rintro ⟨sound, first⟩
      cases added : t.addNode n with
      | error f =>
        obtain ⟨marks, faulty⟩ := resolved.addNode_error_iff.mp added
        exact absurd faulty (sound marks f)
      | ok next => exact ⟨next, rfl, (ih (resolved.addNode added)).mpr first⟩

theorem Resolved.foldlM (resolved : Resolved names done t)
    (made : nodes.foldlM PartitionTable.addNode t = .ok t') :
    Resolved names (done ++ nodes) t' := by
  induction nodes generalizing t done with
  | nil =>
    obtain rfl := Except.ok.inj made
    rwa [List.append_nil]
  | cons n rest ih =>
    rw [List.foldlM_cons, bind_ok_iff] at made
    obtain ⟨next, added, made⟩ := made
    rw [List.append_cons]
    exact ih (resolved.addNode added) made

theorem require_ok_iff {name : String} {p : Partition} :
    t.require name = .ok p ↔ t.lookup? name = some p := by
  unfold require
  cases t.lookup? name <;> simp

theorem require_error_iff {name : String} {cause : Failure} :
    t.require name = .error cause ↔
      t.lookup? name = none ∧ cause = .partitionMissing name := by
  unfold require
  cases t.lookup? name <;> simp [eq_comm]

theorem Resolved.lookup?_eq_some_iff (resolved : Resolved names nodes t) {name : String}
    {p : Partition} : t.lookup? name = some p ↔
      p ∈ t.partitions ∧ p.name = name ∧ p.found = true := by
  have distinct : (t.partitions.map (·.name)).Nodup :=
    resolved.names ▸ nodup_eraseDups names
  rw [lookup?, Option.filter_eq_some_iff]
  constructor
  · rintro ⟨first, found⟩
    exact ⟨List.mem_of_find?_eq_some first, by simpa using List.find?_some first, found⟩
  · rintro ⟨mem, rfl, found⟩
    obtain ⟨before, behind, split⟩ := List.append_of_mem mem
    rw [split, List.map_append, List.map_cons, List.nodup_middle, List.nodup_cons] at distinct
    refine ⟨List.find?_eq_some_iff_append.mpr ⟨by simp, before, behind, split, ?_⟩, found⟩
    intro q ahead
    have other : q.name ≠ p.name := fun same =>
      distinct.1 (List.mem_append_left _ (same ▸ List.mem_map_of_mem ahead))
    simpa using other

/-- A later node does not make up for one without a size. -/
example : resolve [⟨"/one", ["a"], some [1]⟩, ⟨"/two", ["a"], some [1, 2]⟩] ["a"] =
    .error (.shortReg "/one" 1) := by decide

/-- A board where two nodes have one label, one of them opened twice, and one node has two. -/
def sampleBoard : String :=
  "/ \x7b a: one \x7b reg = <1 2>; \x7d; a: two \x7b reg = <3>, <4 5>; \x7d; " ++
    "b: c: three \x7b reg = <6>; \x7d; \x7d; / \x7b two \x7b reg = <7>, <8>; \x7d; \x7d;"

end PartitionTable
end FirmwareMeta.Hardware
