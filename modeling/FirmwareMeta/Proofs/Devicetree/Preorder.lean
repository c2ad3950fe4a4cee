import FirmwareMeta.Devicetree.Tree
import Mathlib.Computability.StateTransition
import Mathlib.Data.List.Basic

/-! The order of the nodes of a tree. A node is told from the others by its place, which says which
child to go to at each node on the way; the listing goes through the places in lexicographic order,
and so does a loop that keeps the trees to come on a stack. -/
namespace FirmwareMeta.Devicetree

open StateTransition (eval mem_eval reaches_eval)

variable {n m : Node} {cs : List Node} {way : List Nat}

namespace Node

/-! Listings -/

theorem preorderAll_append (a b : List Node) :
    preorderAll (a ++ b) = preorderAll a ++ preorderAll b := by
  induction a with
  | nil => simp [preorderAll]
  | cons n rest ih => simp [preorderAll, ih]

theorem preorder_eq (n : Node) : n.preorder = n :: preorderAll n.children := by
  cases n
  rw [preorder]

theorem preorderAll_eq_flatMap (trees : List Node) :
    preorderAll trees = trees.flatMap preorder := by
  induction trees with
  | nil => rw [preorderAll, List.flatMap_nil]
  | cons n rest ih => rw [preorderAll, List.flatMap_cons, ih]

theorem listing_eq_preorderAll (trees : List Node) : listing trees = preorderAll trees := by
  fun_induction listing trees with
  | case1 => rw [preorderAll]
  | case2 n rest ih =>
    rw [ih, preorderAll_append, preorderAll, preorder_eq, List.cons_append]

theorem mem_preorderAll_of_mem (mem : n ∈ cs) : n ∈ preorderAll cs := by
  induction cs with
  | nil => contradiction
  | cons c rest ih =>
    rw [preorderAll, List.mem_append, preorder_eq]
    rcases List.mem_cons.mp mem with rfl | behind
    · exact Or.inl List.mem_cons_self
    · exact Or.inr (ih behind)

/-- With a node its children are listed. -/
theorem forall_children_mem_listing (trees : List Node) :
    ∀ n ∈ listing trees, ∀ c ∈ n.children, c ∈ listing trees := by
  fun_induction listing trees with
  | case1 => simp
  | case2 n rest ih =>
    rw [List.forall_mem_cons]
    refine ⟨fun c mem => List.mem_cons_of_mem _ ?_,
      fun m inside c mem => List.mem_cons_of_mem _ (ih m inside c mem)⟩
    rw [listing_eq_preorderAll, preorderAll_append]
    exact List.mem_append_left _ (mem_preorderAll_of_mem mem)

theorem countAll_reverse (trees : List Node) : countAll trees.reverse = countAll trees := by
  induction trees with
  | nil => rfl
  | cons n rest ih =>
    rw [List.reverse_cons, countAll_append, ih, countAll, countAll, countAll, Nat.add_zero,
      Nat.add_comm]

end Node

theorem nodes_eq_preorder (tree : Devicetree) : tree.nodes = tree.root.preorder := by
  rw [nodes, Node.listing_eq_preorderAll, Node.preorderAll, Node.preorderAll, List.append_nil]

/-! The loop -/

/-- A walk: the nodes that were passed, and a stack of the trees to come, the next one last. -/
structure Walk where
  passed : List Node
  stack : List Node

namespace Walk

/-- One turn of the loop. The next node is passed, and its children take its place on the stack with
the first one on top. -/
def step (w : Walk) : Option Walk :=
  match w.stack.getLast? with
  | none => none
  | some n => some ⟨w.passed ++ [n], w.stack.dropLast ++ n.children.reverse⟩

variable {w w' : Walk}

theorem step_eq_none_iff : w.step = none ↔ w.stack = [] := by
  unfold step
  split
  · rename_i last
    exact iff_of_true rfl (List.getLast?_eq_none_iff.mp last)
  · rename_i last
    exact iff_of_false (by simp) fun empty => by simp [empty] at last

/-- What is to be listed are the trees on the stack, the top one first. A turn keeps that, and there
is one node less to come. -/
theorem step_eq_some (turn : w.step = some w') :
    w'.passed ++ Node.preorderAll w'.stack.reverse =
        w.passed ++ Node.preorderAll w.stack.reverse ∧
      Node.countAll w'.stack + 1 = Node.countAll w.stack := by
  unfold step at turn
  split at turn
  · contradiction
  · rename_i n last
    obtain rfl := Option.some.inj turn
    obtain ⟨below, split⟩ := List.getLast?_eq_some_iff.mp last
    rw [split, List.dropLast_concat]
    constructor
    · simp only [List.reverse_append, List.reverse_reverse, List.reverse_singleton,
        Node.preorderAll_append, Node.preorderAll, Node.preorder_eq, List.append_assoc,
        List.cons_append, List.nil_append]
    · simp only [Node.countAll_append, Node.countAll_reverse, Node.countAll, Node.count_eq]
      omega

/-- The loop ends, and then all trees of the stack are listed. -/
theorem ends (w : Walk) : ⟨w.passed ++ Node.preorderAll w.stack.reverse, []⟩ ∈ eval step w := by
  generalize left : Node.countAll w.stack = count
  induction count generalizing w with
  | zero =>
    obtain ⟨passed, stack⟩ := w
    cases stack with
    | nil =>
      rw [List.reverse_nil, Node.preorderAll, List.append_nil]
      exact mem_eval.mpr ⟨.refl, rfl⟩
    | cons n rest =>
      rw [Node.countAll, Node.count_eq] at left
      omega
  | succ count ih =>
    cases turn : w.step with
    | none =>
      rw [step_eq_none_iff.mp turn, Node.countAll] at left
      omega
    | some w' =>
      obtain ⟨same, fewer⟩ := step_eq_some turn
      rw [reaches_eval (.single turn), ← same]
      exact ih w' (by omega)

end Walk

/-! Places -/

namespace Node

/-- The node at a place of a tree. -/
def at? (n : Node) : List Nat → Option Node
  | [] => some n
  | i :: way =>
    match n.children[i]? with
    | some c => c.at? way
    | none => none

mutual

/-- The places of a tree: its root, and those of each child behind the number of the child. -/
def places : Node → List (List Nat)
  | ⟨_, _, _, _, children⟩ => [] :: placesFrom 0 children

/-- The places of children that are numbered from a number on. -/
def placesFrom (i : Nat) : List Node → List (List Nat)
  | [] => []
  | n :: rest => n.places.map (i :: ·) ++ placesFrom (i + 1) rest

end

theorem places_eq (n : Node) : n.places = [] :: placesFrom 0 n.children := by
  cases n
  rw [places]

theorem at?_cons {i : Nat} (child : n.children[i]? = some m) (way : List Nat) :
    n.at? (i :: way) = m.at? way := by
  simp only [at?, child]

theorem at?_cons_eq_some_iff {i : Nat} : n.at? (i :: way) = some m ↔
    ∃ c, n.children[i]? = some c ∧ c.at? way = some m := by
  rw [at?]
  cases n.children[i]? <;> simp

theorem at?_append (n : Node) (way more : List Nat) :
    n.at? (way ++ more) = (n.at? way).bind (·.at? more) := by
  induction way generalizing n with
  | nil => rfl
  | cons i way ih =>
    rw [List.cons_append, at?, at?]
    cases n.children[i]? with
    | none => rfl
    | some c => exact ih c

theorem mem_placesFrom_iff {i : Nat} : way ∈ placesFrom i cs ↔
    ∃ k c below, cs[k]? = some c ∧ way = (i + k) :: below ∧ below ∈ c.places := by
  induction cs generalizing i with
  | nil => simp [placesFrom]
  | cons c rest ih =>
    rw [placesFrom, List.mem_append, List.mem_map, ih]
    constructor
    · rintro (⟨below, mem, rfl⟩ | ⟨k, d, below, child, rfl, mem⟩)
      · exact ⟨0, c, below, rfl, rfl, mem⟩
      · exact ⟨k + 1, d, below, child, by rw [Nat.add_assoc, Nat.add_comm 1], mem⟩
    · rintro ⟨k, d, below, child, rfl, mem⟩
      cases k with
      | zero => exact .inl ⟨below, Option.some.inj child ▸ mem, rfl⟩
      | succ k => exact .inr ⟨k, d, below, child, by rw [Nat.add_assoc, Nat.add_comm 1], mem⟩

/-- Each node has its place. -/
theorem mem_places_iff : way ∈ n.places ↔ ∃ m, n.at? way = some m := by
  induction way generalizing n with
  | nil => simp [places_eq, at?]
  | cons i way ih =>
    rw [places_eq, List.mem_cons, or_iff_right (List.cons_ne_nil i way), mem_placesFrom_iff]
    simp only [at?_cons_eq_some_iff]
    constructor
    · rintro ⟨k, c, below, child, same, mem⟩
      obtain ⟨rfl, rfl⟩ := List.cons.inj same
      obtain ⟨m, found⟩ := ih.mp mem
      exact ⟨m, c, k.zero_add.symm ▸ child, found⟩
    · rintro ⟨m, c, child, found⟩
      exact ⟨i, c, way, child, by rw [Nat.zero_add], ih.mpr ⟨m, found⟩⟩

mutual

/-- The nodes are listed by their places. -/
theorem map_at?_places (n : Node) : n.places.map n.at? = n.preorder.map some := by
  match n with
  | ⟨name, path, labels, properties, children⟩ =>
    rw [places, preorder, List.map_cons, List.map_cons]
    exact congrArg _ (map_at?_placesFrom children [] rfl)

theorem map_at?_placesFrom (cs front : List Node) {n : Node} (children : n.children = front ++ cs) :
    (placesFrom front.length cs).map n.at? = (preorderAll cs).map some := by
  match cs with
  | [] => rw [placesFrom, preorderAll, List.map_nil, List.map_nil]
  | c :: rest =>
    have child : n.children[front.length]? = some c := by simp [children]
    have below : (n.at? ∘ (front.length :: ·)) = c.at? := funext fun way => at?_cons child way
    have behind : n.children = (front ++ [c]) ++ rest := by simp [children]
    have others := map_at?_placesFrom rest (front ++ [c]) behind
    rw [List.length_append, List.length_singleton] at others
    rw [placesFrom, preorderAll, List.map_append, List.map_append, List.map_map, below,
      map_at?_places c, others]

end

mutual

/-- The places are in lexicographic order. -/
theorem pairwise_places (n : Node) : n.places.Pairwise (· < ·) := by
  match n with
  | ⟨name, path, labels, properties, children⟩ =>
    rw [places, List.pairwise_cons]
    refine ⟨fun way mem => ?_, pairwise_placesFrom 0 children⟩
    obtain ⟨k, c, below, -, rfl, -⟩ := mem_placesFrom_iff.mp mem
    exact List.nil_lt_cons ..

theorem pairwise_placesFrom (i : Nat) (cs : List Node) : (placesFrom i cs).Pairwise (· < ·) := by
  match cs with
  | [] =>
    rw [placesFrom]
    exact .nil
  | c :: rest =>
    rw [placesFrom, List.pairwise_append, List.pairwise_map]
    refine ⟨(pairwise_places c).imp ?_, pairwise_placesFrom (i + 1) rest, ?_⟩
    · exact fun less => List.cons_lt_cons_iff.mpr (.inr ⟨rfl, less⟩)
    · intro first mem second behind
      obtain ⟨below, -, rfl⟩ := List.mem_map.mp mem
      obtain ⟨k, d, other, -, rfl, -⟩ := mem_placesFrom_iff.mp behind
      exact List.cons_lt_cons_iff.mpr (.inl (by omega))

end

theorem nodup_places (n : Node) : n.places.Nodup :=
  (pairwise_places n).imp fun less => ne_of_lt less

theorem placesFrom_append (i : Nat) (a b : List Node) :
    placesFrom i (a ++ b) = placesFrom i a ++ placesFrom (i + a.length) b := by
  induction a generalizing i with
  | nil => simp [placesFrom]
  | cons n rest ih =>
    rw [List.cons_append, placesFrom, placesFrom, ih, List.append_assoc, List.length_cons,
      Nat.add_assoc, Nat.add_comm 1]

/-- The places below a node stand together. -/
theorem exists_places_split (found : n.at? way = some m) :
    ∃ before behind, n.places = before ++ m.places.map (way ++ ·) ++ behind := by
  induction way generalizing n with
  | nil =>
    obtain rfl := Option.some.inj found
    exact ⟨[], [], by simp⟩
  | cons i way ih =>
    obtain ⟨c, child, inside⟩ := at?_cons_eq_some_iff.mp found
    obtain ⟨before, behind, split⟩ := ih inside
    obtain ⟨low, rfl⟩ := List.getElem?_eq_some_iff.mp child
    have around : n.children = n.children.take i ++ n.children[i] :: n.children.drop (i + 1) := by
      simp
    rw [places_eq, around, placesFrom_append, placesFrom, split, List.length_take_of_le low.le]
    refine ⟨[] :: placesFrom 0 (n.children.take i) ++ before.map (i :: ·),
      behind.map (i :: ·) ++ placesFrom (i + 1) (n.children.drop (i + 1)), ?_⟩
    simp [Function.comp_def]

/-- What is below the node has its place in the block, and there is no place twice. -/
theorem not_below_of_split {before behind : List (List Nat)} (found : n.at? way = some m)
    (split : n.places = before ++ m.places.map (way ++ ·) ++ behind) :
    ∀ other ∈ before ++ behind, ¬way <+: other := by
  rintro other outside ⟨more, rfl⟩
  have distinct := split ▸ nodup_places n
  rw [List.append_assoc, List.nodup_append] at distinct
  obtain ⟨-, others, apart⟩ := distinct
  have place : way ++ more ∈ n.places := by
    rw [split]
    rcases List.mem_append.mp outside with mem | mem
    · exact List.mem_append_left _ (List.mem_append_left _ mem)
    · exact List.mem_append_right _ mem
  obtain ⟨d, inside⟩ := mem_places_iff.mp place
  rw [at?_append, found, Option.bind_some] at inside
  have held : way ++ more ∈ m.places.map (way ++ ·) :=
    List.mem_map_of_mem (mem_places_iff.mpr ⟨d, inside⟩)
  rcases List.mem_append.mp outside with mem | mem
  · exact apart _ mem _ (List.mem_append_left _ held) rfl
  · exact (List.nodup_append.mp others).2.2 _ held _ mem rfl

/-- A node and what is below it are listed in one block, at its place. -/
theorem exists_preorder_split (found : n.at? way = some m) :
    ∃ before behind front back, n.places = before ++ m.places.map (way ++ ·) ++ behind ∧
      (∀ other ∈ before ++ behind, ¬way <+: other) ∧
      n.preorder = front ++ m.preorder ++ back ∧ front.length = before.length := by
  obtain ⟨before, behind, split⟩ := exists_places_split found
  have listed := map_at?_places n
  have below : (n.at? ∘ (way ++ ·)) = m.at? := funext fun more => by
    rw [Function.comp_apply, at?_append, found, Option.bind_some]
  rw [split, List.map_append, List.map_append, List.map_map, below, map_at?_places] at listed
  obtain ⟨front, back, parts, first, -⟩ := List.map_eq_append_iff.mp listed.symm
  obtain ⟨head, block, rfl, ahead, same⟩ := List.map_eq_append_iff.mp first
  obtain rfl := List.map_injective_iff.mpr (Option.some_injective _) same
  exact ⟨before, behind, head, back, split, not_below_of_split found split, parts,
    by simpa using congrArg List.length ahead⟩

/-- Of two nodes that one comes first whose place is less. -/
theorem lt_iff_of_places {i j : Nat} {v w : List Nat} (first : n.places[i]? = some v)
    (second : n.places[j]? = some w) : i < j ↔ v < w := by
  obtain ⟨low, rfl⟩ := List.getElem?_eq_some_iff.mp first
  obtain ⟨high, rfl⟩ := List.getElem?_eq_some_iff.mp second
  have order := List.pairwise_iff_getElem.mp (pairwise_places n)
  refine ⟨order i j low high, fun less => ?_⟩
  by_contra behind
  rcases Nat.lt_or_eq_of_le (Nat.le_of_not_lt behind) with greater | rfl
  · exact lt_asymm less (order j i high low greater)
  · exact lt_irrefl _ less

theorem lt_append {more : List Nat} (below : more ≠ []) : way < way ++ more := by
  induction way with
  | nil =>
    obtain ⟨i, rest, rfl⟩ := List.exists_cons_of_ne_nil below
    exact List.nil_lt_cons ..
  | cons i way ih => exact List.cons_lt_cons_iff.mpr (.inr ⟨rfl, ih⟩)

/-- A node comes before all that is below it. -/
theorem lt_of_places_below {i j : Nat} {more : List Nat} (below : more ≠ [])
    (first : n.places[i]? = some way) (second : n.places[j]? = some (way ++ more)) : i < j :=
  (lt_iff_of_places first second).mpr (lt_append below)

end Node
end FirmwareMeta.Devicetree
