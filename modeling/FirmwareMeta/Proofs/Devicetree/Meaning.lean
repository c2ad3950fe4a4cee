import FirmwareMeta.Devicetree.Grammar
import Mathlib.Data.List.Nodup

/-! What a document means, said by the openings of each node and not by the order in which nodes are
merged: a node has the labels of its first opening and the new ones of the later, the properties of
all of them, and one child for each name in them. The tree of a document is the only one that fits.
-/
namespace FirmwareMeta.Devicetree

/-- An opening of a node: the labels in front of its name, and what stands between its braces. -/
structure Occurrence where
  labels : List String
  items : List Item

namespace Item

def property? : Item → Option Property
  | .property name values => some ⟨name, values⟩
  | _ => none

def childName? : Item → Option String
  | .node _ name _ => some name
  | _ => none

/-- The item as an opening of the child of a name. -/
def opening? (name : String) : Item → Option Occurrence
  | .node labels own items => if own = name then some ⟨labels, items⟩ else none
  | _ => none

end Item

def Part.opening? : Part → Option Occurrence
  | .directive => none
  | .root labels items => some ⟨labels, items⟩

/-- A node is what its openings say, the first one in the source in front. -/
inductive Node.MadeOf : List Occurrence → Node → Prop where
  | intro {first : Occurrence} {rest : List Occurrence} {items : List Item} {n : Node}
      (inside : items = (first :: rest).flatMap (·.items))
      (labels : n.labels = first.labels ++
        ((rest.flatMap (·.labels)).filter (· ∉ first.labels)).eraseDups)
      (properties : n.properties = items.filterMap Item.property?)
      (names : n.children.map (·.name) = (items.filterMap Item.childName?).eraseDups)
      (paths : ∀ c ∈ n.children, c.path = Node.childPath n.path c.name)
      (children : ∀ c ∈ n.children, MadeOf (items.filterMap (Item.opening? c.name)) c) :
      MadeOf (first :: rest) n

/-- A tree is what a document says. The root is there before any opening of it. -/
structure MadeOf (parts : List Part) (tree : Devicetree) : Prop where
  name : tree.root.name = "/"
  path : tree.root.path = "/"
  root : tree.root.MadeOf (⟨[], []⟩ :: parts.filterMap Part.opening?)

namespace Node

/-! Labels and names once each -/

theorem addLabels_append (ls a b : List String) :
    addLabels ls (a ++ b) = addLabels (addLabels ls a) b :=
  List.foldl_append

theorem addLabels_cons (ls more : List String) (l : String) :
    addLabels ls (l :: more) = addLabels (if l ∈ ls then ls else ls ++ [l]) more := rfl

theorem mem_addLabels {ls more : List String} {l : String} :
    l ∈ addLabels ls more ↔ l ∈ ls ∨ l ∈ more := by
  induction more generalizing ls with
  | nil => simp [addLabels]
  | cons x more ih =>
    rw [addLabels_cons, ih]
    split <;> grind

theorem addLabels_eq (ls more : List String) :
    addLabels ls more = ls ++ (more.filter (· ∉ ls)).eraseDups := by
  induction more generalizing ls with
  | nil => simp [addLabels]
  | cons l more ih =>
    rw [addLabels_cons, ih]
    by_cases known : l ∈ ls
    · simp [known]
    · have twice : (more.filter (· ∉ ls)).filter (fun x => !x == l) =
          more.filter (· ∉ ls ++ [l]) := by
        rw [List.filter_filter]
        apply List.filter_congr
        intro x _
        grind
      rw [if_neg known, List.filter_cons_of_pos (by simpa using known), List.eraseDups_cons, twice,
        List.append_assoc, List.singleton_append]

theorem addLabels_nil (more : List String) : addLabels [] more = more.eraseDups := by
  simp [addLabels_eq]

theorem addLabels_addLabels (ls a b : List String) :
    addLabels ls (addLabels a b) = addLabels (addLabels ls a) b := by
  induction b generalizing a with
  | nil => rfl
  | cons l b ih =>
    rw [addLabels_cons, addLabels_cons, ih]
    by_cases known : l ∈ a
    · rw [if_pos known, if_pos (mem_addLabels.mpr (Or.inr known))]
    · rw [if_neg known, addLabels_append]
      rfl

theorem nodup_addLabels {ls : List String} (more : List String) (distinct : ls.Nodup) :
    (addLabels ls more).Nodup := by
  induction more generalizing ls with
  | nil => exact distinct
  | cons l more ih =>
    rw [addLabels_cons]
    apply ih
    split
    · exact distinct
    · rename_i fresh
      simpa using distinct.concat fresh

/-! Only one node is made of some openings -/

theorem MadeOf.unique {occurrences : List Occurrence} {n m : Node} (left : n.MadeOf occurrences)
    (right : m.MadeOf occurrences) (name : n.name = m.name) (path : n.path = m.path) : n = m := by
  induction left generalizing m with
  | @intro first rest items n inside labels properties names paths children ih =>
    cases right with
    | @intro _ _ others m also_inside also_labels also_properties also_names also_paths also =>
      obtain rfl : items = others := inside.trans also_inside.symm
      have same : n.children = m.children := by
        have both := names.trans also_names.symm
        apply List.ext_getElem (by simpa using congrArg List.length both)
        intro i low high
        have child := List.getElem_mem low
        have other := List.getElem_mem high
        have child_name : n.children[i].name = m.children[i].name := by
          have := List.getElem_of_eq both (i := i) (by simpa using low)
          simpa using this
        apply ih _ child _ child_name
        · rw [paths _ child, also_paths _ other, path, child_name]
        · rw [child_name]
          exact also _ other
      obtain ⟨_, _, _, _, _⟩ := n
      obtain ⟨_, _, _, _, _⟩ := m
      simp_all

end Node

theorem MadeOf.unique {parts : List Part} {tree other : Devicetree} (left : tree.MadeOf parts)
    (right : other.MadeOf parts) : tree = other := by
  have same := left.root.unique right.root (left.name.trans right.name.symm)
    (left.path.trans right.path.symm)
  obtain ⟨root⟩ := tree
  obtain ⟨_⟩ := other
  exact congrArg _ same

end FirmwareMeta.Devicetree
