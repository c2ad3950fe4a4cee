/-!
Devicetrees: nodes with labels, properties and children. A node may be opened several times;
`Node.merge` adds what a later opening says. `Node.listing` goes through a tree with a list of
the nodes still to come, parents before their children.
-/
namespace FirmwareMeta.Devicetree

inductive Cell where
  | number (value : UInt64)
  | reference (target : String)
  deriving DecidableEq, Repr

inductive Value where
  | text (value : String)
  | cells (list : List Cell)
  | bytes (list : List UInt8)
  | reference (target : String)
  deriving DecidableEq, Repr

structure Property where
  name : String
  values : List Value
  deriving DecidableEq, Repr

structure Node where
  name : String
  path : String
  labels : List String
  properties : List Property
  children : List Node
  deriving Repr

namespace Node

/-- A node of which only the name, the path and labels are known. -/
def bare (name path : String) (labels : List String) : Node :=
  ⟨name, path, labels, [], []⟩

def root : Node := bare "/" "/" []

/-- The path of a child. -/
def childPath (parent : String) (name : String) : String :=
  if parent = "/" then "/" ++ name else parent ++ "/" ++ name

/-- Labels with those of a later opening that are new. -/
def addLabels (labels more : List String) : List String :=
  more.foldl (fun ls l => if l ∈ ls then ls else ls ++ [l]) labels

/-- Puts a node among its siblings: `combine` changes the one of its name, or it comes last. -/
def settle (combine : Node → Node) (new : Node) : List Node → List Node
  | [] => [new]
  | n :: rest => if n.name = new.name then combine n :: rest else n :: settle combine new rest

mutual

/-- A node with what a later opening of it adds. Properties are all kept. -/
def merge (n : Node) : Node → Node
  | ⟨_, _, labels, properties, children⟩ =>
    { n with
      labels := addLabels n.labels labels
      properties := n.properties ++ properties
      children := mergeAll n.children children }

/-- Siblings with nodes that are opened later. -/
def mergeAll (siblings : List Node) : List Node → List Node
  | [] => siblings
  | child :: rest => mergeAll (settle (fun n => merge n child) child siblings) rest

end

/-- Siblings with a node that is opened later. -/
def insert (siblings : List Node) (child : Node) : List Node :=
  settle (fun n => n.merge child) child siblings

/-- The last definition of a property. -/
def property? (n : Node) (name : String) : Option Property :=
  n.properties.reverse.find? (·.name = name)

end Node

def Cell.number? : Cell → Option UInt64
  | .number value => some value
  | .reference _ => none

/-- The numbers of a value that is cells and holds nothing else. -/
def Value.numbers? : Value → Option (List UInt64)
  | .cells list => list.mapM Cell.number?
  | _ => none

/-- The cells of the property `reg`, if they are all numbers. -/
def Node.reg? (n : Node) : Option (List UInt64) := do
  let reg ← n.property? "reg"
  let groups ← reg.values.mapM Value.numbers?
  pure groups.flatten

mutual

/-- The number of nodes of a tree. -/
def Node.count : Node → Nat
  | ⟨_, _, _, _, children⟩ => Node.countAll children + 1

def Node.countAll : List Node → Nat
  | [] => 0
  | n :: rest => n.count + Node.countAll rest

end

@[simp] theorem Node.countAll_append (a b : List Node) :
    Node.countAll (a ++ b) = Node.countAll a + Node.countAll b := by
  induction a with
  | nil => simp [countAll]
  | cons n rest ih => simp [countAll, ih, Nat.add_assoc]

theorem Node.count_eq (n : Node) : n.count = Node.countAll n.children + 1 := by
  cases n
  rw [count]

/-- The nodes of some trees, each before its children and these before the next tree. -/
def Node.listing : List Node → List Node
  | [] => []
  | n :: rest => n :: Node.listing (n.children ++ rest)
termination_by trees => Node.countAll trees
decreasing_by
  simp only [Node.countAll_append, Node.countAll, Node.count_eq]
  omega

mutual

/-- A node, and what is below it, child by child. -/
def Node.preorder : Node → List Node
  | ⟨name, path, labels, properties, children⟩ =>
    ⟨name, path, labels, properties, children⟩ :: Node.preorderAll children

def Node.preorderAll : List Node → List Node
  | [] => []
  | n :: rest => n.preorder ++ Node.preorderAll rest

end

end FirmwareMeta.Devicetree

namespace FirmwareMeta

/-- A devicetree, from its root on. -/
structure Devicetree where
  root : Devicetree.Node
  deriving Repr

/-- All nodes, parents before their children. -/
def Devicetree.nodes (tree : Devicetree) : List Devicetree.Node :=
  Devicetree.Node.listing [tree.root]

end FirmwareMeta
