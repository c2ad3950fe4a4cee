import FirmwareMeta.Proofs.Devicetree.Preorder
import FirmwareMeta.Proofs.Hardware.Labels

/-! Which of several nodes of one label says where a partition is. Nodes are taken into account in
the order in which the tree is listed, so it is the one whose place comes last. -/
namespace FirmwareMeta.Hardware

open Devicetree (Node Walk)
open StateTransition (eval)

variable {root n m : Node} {name : String} {names : List String} {t : PartitionTable}
  {p : Partition}

/-- A node with a name for its only label, with no such node behind it in the order of the
places. -/
def LastMarked (root : Node) (name : String) (n : Node) : Prop :=
  ∃ way, root.at? way = some n ∧ n.labels = [name] ∧
    ∀ other m, root.at? other = some m → m.labels = [name] → other = way ∨ other < way

theorem LastMarked.unique (last : LastMarked root name n) (also : LastMarked root name m) :
    n = m := by
  obtain ⟨way, found, label, behind⟩ := last
  obtain ⟨other, found', label', behind'⟩ := also
  rcases behind other m found' label' with rfl | less
  · exact Option.some.inj (found.symm.trans found')
  · rcases behind' way n found label with rfl | greater
    · exact Option.some.inj (found.symm.trans found')
    · exact absurd less (lt_asymm greater)

/-- The last node of a listing has the last place. -/
theorem lastMarked_of_split {before behind : List Node}
    (split : root.preorder = before ++ n :: behind) (label : n.labels = [name])
    (last : ∀ m ∈ behind, m.labels ≠ [name]) : LastMarked root name n := by
  have listed := root.map_at?_places
  rw [split, List.map_append, List.map_cons] at listed
  obtain ⟨front, back, places, -, rest⟩ := List.map_eq_append_iff.mp listed
  obtain ⟨way, others, rfl, found, rest⟩ := List.map_eq_cons_iff.mp rest
  have order := root.pairwise_places
  rw [places, List.pairwise_append] at order
  refine ⟨way, found, label, fun other m inside also => ?_⟩
  have place := Node.mem_places_iff.mpr ⟨m, inside⟩
  rw [places, List.mem_append, List.mem_cons] at place
  rcases place with ahead | rfl | later
  · exact .inr (order.2.2 other ahead way List.mem_cons_self)
  · exact .inl rfl
  · have mem : some m ∈ behind.map some := rest ▸ inside ▸ List.mem_map_of_mem later
    obtain ⟨d, held, same⟩ := List.mem_map.mp mem
    exact absurd also (last m (Option.some.inj same ▸ held))

theorem Partition.Sums.lastMarked (sums : p.Sums (root.preorder.map NodeInfo.ofNode))
    (found : p.found = true) :
    ∃ n, LastMarked root p.name n ∧ (NodeInfo.ofNode n).Spans p.start p.size := by
  cases sums with
  | absent _ => contradiction
  | last split label others spans =>
    obtain ⟨before, rest, parts, -, tail⟩ := List.map_eq_append_iff.mp split
    obtain ⟨n, behind, rfl, rfl, rfl⟩ := List.map_eq_cons_iff.mp tail
    have last : ∀ m ∈ behind, m.labels ≠ [_] := fun m mem => others _ (List.mem_map_of_mem mem)
    exact ⟨n, lastMarked_of_split parts label last, spans⟩

theorem NodeInfo.Spans.unique {n : NodeInfo} {start size start' size' : UInt32}
    (spans : n.Spans start size) (also : n.Spans start' size') : start = start' ∧ size = size' := by
  have same := Except.ok.inj
    ((addressAndSize_ok_iff.mpr spans).symm.trans (addressAndSize_ok_iff.mpr also))
  exact Prod.mk.inj same

/-- A partition is where the last node of its label says. -/
theorem PartitionTable.lookup?_ofDevicetree_iff {tree : Devicetree}
    (made : resolve (Description.ofDevicetree tree).nodes names = .ok t) :
    t.lookup? name = some p ↔ name ∈ names ∧ p.name = name ∧ p.found = true ∧
      ∃ n, LastMarked tree.root name n ∧ (NodeInfo.ofNode n).Spans p.start p.size := by
  have resolved : Resolved names _ t := (resolved_requested names).foldlM made
  rw [List.nil_append, Description.ofDevicetree, Devicetree.nodes_eq_preorder] at resolved
  constructor
  · intro found
    obtain ⟨mem, rfl, real⟩ := resolved.lookup?_eq_some_iff.mp found
    have listed : p.name ∈ t.partitions.map (·.name) := List.mem_map_of_mem mem
    rw [resolved.names, List.mem_eraseDups] at listed
    exact ⟨listed, rfl, real, (resolved.sums p mem).lastMarked real⟩
  · rintro ⟨asked, rfl, real, n, last, spans⟩
    obtain ⟨way, inside, label, -⟩ := id last
    have held : n ∈ tree.nodes := by
      have mem : some n ∈ tree.root.places.map tree.root.at? :=
        inside ▸ List.mem_map_of_mem (Node.mem_places_iff.mpr ⟨n, inside⟩)
      rw [Node.map_at?_places, ← Devicetree.nodes_eq_preorder] at mem
      obtain ⟨d, held, same⟩ := List.mem_map.mp mem
      exact Option.some.inj same ▸ held
    obtain ⟨q, found⟩ := exists_lookup? made asked (List.mem_map_of_mem held) label
    obtain ⟨mem, named, exact⟩ := resolved.lookup?_eq_some_iff.mp found
    obtain ⟨d, lastly, extent⟩ := (resolved.sums q mem).lastMarked exact
    obtain rfl := last.unique (named ▸ lastly)
    obtain ⟨start, size⟩ := spans.unique extent
    rw [found, Option.some.injEq]
    cases p
    cases q
    simp_all

/-- The nodes of a tree in preorder. The loop over a stack of trees ends and has listed what the
recursion lists: a node, and then the listings of its children. Each place of the tree is listed
once, a node before all that is below it and the whole of that in one block. Nodes count for
partitions in this order: of those with a name for their only label the last one says where the
partition is. -/
theorem nodes_in_preorder (tree : Devicetree) :
    (⟨tree.nodes, []⟩ : Walk) ∈ eval Walk.step ⟨[], [tree.root]⟩ ∧
    (tree.nodes = tree.root.preorder ∧
      ∀ n : Node, n.preorder = n :: n.children.flatMap Node.preorder) ∧
    (tree.root.places.map tree.root.at? = tree.nodes.map some ∧ tree.root.places.Nodup ∧
      ∀ way, way ∈ tree.root.places ↔ ∃ n, tree.root.at? way = some n) ∧
    ((∀ (i j : Nat) (v w : List Nat), tree.root.places[i]? = some v →
        tree.root.places[j]? = some w → (i < j ↔ v < w)) ∧
      ∀ (i j : Nat) (way more : List Nat), more ≠ [] → tree.root.places[i]? = some way →
        tree.root.places[j]? = some (way ++ more) → i < j) ∧
    (∀ way n, tree.root.at? way = some n → ∃ before behind front back,
      tree.root.places = before ++ n.places.map (way ++ ·) ++ behind ∧
      (∀ other ∈ before ++ behind, ¬way <+: other) ∧
      tree.nodes = front ++ n.preorder ++ back ∧ front.length = before.length) ∧
    ∀ names t, PartitionTable.resolve (Description.ofDevicetree tree).nodes names = .ok t →
      ∀ name p, t.lookup? name = some p ↔ name ∈ names ∧ p.name = name ∧ p.found = true ∧
        ∃ n, LastMarked tree.root name n ∧ (NodeInfo.ofNode n).Spans p.start p.size := by
  have listed := Devicetree.nodes_eq_preorder tree
  refine ⟨?_, ⟨listed, fun n => ?_⟩, ⟨?_, Node.nodup_places _, fun way => Node.mem_places_iff⟩,
    ⟨fun i j v w => Node.lt_iff_of_places, fun i j way more => Node.lt_of_places_below⟩,
    fun way n found => ?_,
    fun names t made name p => PartitionTable.lookup?_ofDevicetree_iff made⟩
  · have ended := Walk.ends ⟨[], [tree.root]⟩
    rwa [List.reverse_singleton, List.nil_append, Node.preorderAll, Node.preorderAll,
      List.append_nil, ← listed] at ended
  · rw [Node.preorder_eq, Node.preorderAll_eq_flatMap]
  · rw [Node.map_at?_places, listed]
  · rw [listed]
    exact Node.exists_preorder_split found

/-- Two nodes of one label, the second of them further up. -/
def twinTree : Devicetree :=
  let reg (start size : UInt64) : Devicetree.Property :=
    ⟨"reg", [.cells [.number start, .number size]]⟩
  ⟨⟨"/", "/", [], [],
    [⟨"b", "/b", [], [], [⟨"p", "/b/p", ["a"], [reg 1 2], []⟩, ⟨"q", "/b/q", [], [], []⟩]⟩,
      ⟨"p", "/p", ["a"], [reg 3 4], []⟩]⟩⟩

theorem nodes_in_preorder_twins :
    twinTree.root.places = [[], [0], [0, 0], [0, 1], [1]] ∧
    (∃ b front back, twinTree.root.at? [0] = some b ∧
      twinTree.nodes = front ++ b.preorder ++ back ∧ b.preorder.length = 3) ∧
    ∃ t n, PartitionTable.resolve (Description.ofDevicetree twinTree).nodes ["a"] = .ok t ∧
      t.lookup? "a" = some ⟨"a", 3, 4, true⟩ ∧ LastMarked twinTree.root "a" n ∧
      (NodeInfo.ofNode n).Spans 3 4 := by
  obtain ⟨-, -, -, -, blocks, resolves⟩ := nodes_in_preorder twinTree
  obtain ⟨-, -, front, back, -, -, listed, -⟩ := blocks [0] _ rfl
  have found : (PartitionTable.resolve (Description.ofDevicetree twinTree).nodes ["a"]).toOption.map
      (fun t => (t, t.lookup? "a")) =
      some (⟨[⟨"a", 3, 4, true⟩]⟩, some ⟨"a", 3, 4, true⟩) := by decide +kernel
  simp only [Option.map_eq_some_iff, toOption_eq_some_iff, Prod.mk.injEq] at found
  obtain ⟨t, resolved, rfl, lookup⟩ := found
  obtain ⟨-, -, -, n, last, spans⟩ := (resolves ["a"] _ resolved "a" _).mp lookup
  exact ⟨rfl, ⟨_, front, back, rfl, listed, rfl⟩, _, n, resolved, lookup, last, spans⟩

end FirmwareMeta.Hardware
