import FirmwareMeta.Proofs.Hardware.Resolving

/-! The labels of a tree that is read. What a later opening of a node repeats is passed over, and
what the first one repeats is kept: so a node with one distinct label is that of a partition, unless
its first opening has the label twice. -/
namespace FirmwareMeta

namespace Devicetree

variable {n : Node} {first : Occurrence} {later os : List Occurrence}

namespace Node.MadeOf

theorem labels_eq (made : n.MadeOf (first :: later)) :
    n.labels = Node.addLabels first.labels (later.flatMap (·.labels)) := by
  cases made with
  | intro _ labels _ _ _ _ => rw [labels, Node.addLabels_eq]

theorem exists_first (made : n.MadeOf os) : ∃ first later, os = first :: later := by
  cases made with
  | intro => exact ⟨_, _, rfl⟩

theorem mem_labels_iff (made : n.MadeOf (first :: later)) (label : String) :
    label ∈ n.labels ↔ ∃ o ∈ first :: later, label ∈ o.labels := by
  rw [made.labels_eq, Node.mem_addLabels, List.mem_flatMap, List.exists_mem_cons_iff]

/-- Only the first opening can have a label twice. -/
theorem nodup_labels_iff (made : n.MadeOf (first :: later)) :
    n.labels.Nodup ↔ first.labels.Nodup := by
  rw [made.labels_eq]
  constructor
  · intro distinct
    rw [Node.addLabels_eq] at distinct
    exact distinct.sublist (List.sublist_append_left _ _)
  · exact Node.nodup_addLabels _

end Node.MadeOf

end Devicetree

namespace Hardware

open Devicetree (openingsAt pathAt)

variable {nodes : List NodeInfo} {label : String} {names : List String} {n : NodeInfo}
  {t : PartitionTable}

theorem eq_singleton_of_nodup {labels : List String} (distinct : labels.Nodup)
    (only : ∀ l, l ∈ labels ↔ l = label) : labels = [label] := by
  cases labels with
  | nil => exact absurd ((only label).mpr rfl) List.not_mem_nil
  | cons l rest =>
    obtain rfl := (only l).mp List.mem_cons_self
    cases rest with
    | nil => rfl
    | cons m more =>
      obtain rfl := (only m).mp (List.mem_cons_of_mem _ List.mem_cons_self)
      exact absurd List.mem_cons_self (List.nodup_cons.mp distinct).1

/-- A partition that is asked for is found where a node has its name for the only label. -/
theorem PartitionTable.exists_lookup? (made : resolve nodes names = .ok t) (asked : label ∈ names)
    (mem : n ∈ nodes) (marked : n.labels = [label]) : ∃ p, t.lookup? label = some p := by
  have resolved : Resolved names nodes t := (resolved_requested names).foldlM made
  have listed : label ∈ t.partitions.map (·.name) := by
    rwa [resolved.names, List.mem_eraseDups]
  obtain ⟨p, inside, rfl⟩ := List.mem_map.mp listed
  refine ⟨p, resolved.lookup?_eq_some_iff.mpr ⟨inside, rfl, ?_⟩⟩
  exact (resolved.sums p inside).found_iff.mpr ⟨n, mem, marked⟩

/-- The labels of a node are those of its openings. They are all different exactly if the first
opening has none twice, whatever the later ones repeat; at the root that is always so. A node that
has one label then, however often its openings say it, is the node of that partition. -/
theorem labels_of_parse {source : String} {tree : Devicetree}
    (parsed : Devicetree.parse source = .ok tree) :
    ∃ tokens parts, Devicetree.Token.read source = .ok tokens ∧
      Devicetree.Grammar.Document parts (tokens.map (·.token)) ∧
      tree.root.labels.Nodup ∧
      ∀ n ∈ tree.nodes, ∃ way first later, n.path = pathAt way ∧
        openingsAt (⟨[], []⟩ :: parts.filterMap Devicetree.Part.opening?) way = first :: later ∧
        (∀ l, l ∈ n.labels ↔ ∃ o ∈ first :: later, l ∈ o.labels) ∧
        (n.labels.Nodup ↔ first.labels.Nodup) ∧
        (first.labels.Nodup → ∀ label, (∀ l, l ∈ n.labels ↔ l = label) →
          (NodeInfo.ofNode n).labels = [label] ∧
          ∀ names t, label ∈ names →
            PartitionTable.resolve (Description.ofDevicetree tree).nodes names = .ok t →
              ∃ p, t.lookup? label = some p) := by
  obtain ⟨tokens, parts, read, derived, made⟩ := Devicetree.exists_document_of_parse parsed
  refine ⟨tokens, parts, read, derived, made.root.nodup_labels_iff.mpr List.nodup_nil, ?_⟩
  intro n mem
  obtain ⟨way, path, own⟩ := made.openedAt n mem
  obtain ⟨first, later, same⟩ := own.exists_first
  rw [same] at own
  refine ⟨way, first, later, path, same, own.mem_labels_iff, own.nodup_labels_iff, ?_⟩
  intro distinct label only
  have single : n.labels = [label] :=
    eq_singleton_of_nodup (own.nodup_labels_iff.mpr distinct) only
  refine ⟨single, fun names t asked resolved => ?_⟩
  exact PartitionTable.exists_lookup? resolved asked (List.mem_map_of_mem mem) single

/-- A label on three openings of one node, and twice on the second of them. -/
def relabelledSource : String :=
  "/ \x7b a: p \x7b reg = <1 2>; \x7d; a: a: p \x7b \x7d; \x7d; / \x7b a: p \x7b \x7d; \x7d;"

theorem labels_of_parse_relabelled : ∃ tree t, Devicetree.parse relabelledSource = .ok tree ∧
    tree.nodes.map (·.labels) = [[], ["a"]] ∧ tree.root.labels.Nodup ∧
    PartitionTable.resolve (Description.ofDevicetree tree).nodes ["a"] = .ok t ∧
    t.partitions = [⟨"a", 1, 2, true⟩] ∧ ∃ p, t.lookup? "a" = some p := by
  have found : (Devicetree.parse relabelledSource).toOption.bind (fun tree =>
      (PartitionTable.resolve (Description.ofDevicetree tree).nodes ["a"]).toOption.map
        fun t => (tree.nodes.map (·.labels), t.partitions)) =
      some ([[], ["a"]], [⟨"a", 1, 2, true⟩]) := by decide +kernel
  simp only [Option.bind_eq_some_iff, Option.map_eq_some_iff, toOption_eq_some_iff,
    Prod.mk.injEq] at found
  obtain ⟨tree, parsed, t, resolved, labels, partitions⟩ := found
  obtain ⟨_, _, -, -, distinct, each⟩ := labels_of_parse parsed
  have marked : ["a"] ∈ tree.nodes.map (·.labels) := by simp [labels]
  obtain ⟨n, mem, own⟩ := List.mem_map.mp marked
  obtain ⟨_, first, _, -, -, -, once, single⟩ := each n mem
  have unrepeated : first.labels.Nodup := once.mp (by simp [own])
  have lookup := (single unrepeated "a" (by simp [own])).2 ["a"] t List.mem_cons_self resolved
  exact ⟨tree, t, parsed, labels, distinct, resolved, partitions, lookup⟩

/-- The first opening of a node has its only label twice. -/
def doublyLabelledSource : String :=
  "/ \x7b softdevice_partition: softdevice_partition: p \x7b reg = <1 2>; \x7d; \x7d;"

/-- The partition of a label that is repeated in the first opening is not found. -/
theorem doubled_label_hides_partition :
    ∃ tree t, Devicetree.parse doublyLabelledSource = .ok tree ∧
      tree.nodes.map (·.labels) = [[], [softDevice, softDevice]] ∧
      (∃ n ∈ tree.nodes, (∀ l, l ∈ n.labels ↔ l = softDevice) ∧ ¬n.labels.Nodup) ∧
      PartitionTable.resolve (Description.ofDevicetree tree).nodes [softDevice] = .ok t ∧
      t.lookup? softDevice = none := by
  have found : (Devicetree.parse doublyLabelledSource).toOption.bind (fun tree =>
      (PartitionTable.resolve (Description.ofDevicetree tree).nodes [softDevice]).toOption.map
        fun t => (tree.nodes.map (·.labels), t.lookup? softDevice)) =
      some ([[], [softDevice, softDevice]], none) := by decide +kernel
  simp only [Option.bind_eq_some_iff, Option.map_eq_some_iff, toOption_eq_some_iff,
    Prod.mk.injEq] at found
  obtain ⟨tree, parsed, t, resolved, labels, missing⟩ := found
  have doubled : [softDevice, softDevice] ∈ tree.nodes.map (·.labels) := by simp [labels]
  obtain ⟨n, mem, own⟩ := List.mem_map.mp doubled
  exact ⟨tree, t, parsed, labels, ⟨n, mem, by simp [own]⟩, resolved, missing⟩

end Hardware
end FirmwareMeta
