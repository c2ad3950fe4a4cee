import FirmwareMeta.Devicetree.Parser
import FirmwareMeta.Json.Printer
import FirmwareMeta.Json.Skip

/-!
Hardware descriptions: the nodes of a board, reduced to what partitions are found by. They come
from devicetree source or from JSON, and are written as JSON.
-/
namespace FirmwareMeta.Hardware

structure NodeInfo where
  path : String
  labels : List String
  /-- The cells of `reg`, if the node has one that is numeric. -/
  reg : Option (List UInt64)
  deriving DecidableEq, Repr

structure Description where
  nodes : List NodeInfo
  deriving DecidableEq, Repr

def NodeInfo.ofNode (n : Devicetree.Node) : NodeInfo := ⟨n.path, n.labels, n.reg?⟩

def Description.ofDevicetree (tree : Devicetree) : Description :=
  ⟨tree.nodes.map NodeInfo.ofNode⟩

/-! Writing -/

def NodeInfo.json (n : NodeInfo) : List Char :=
  let reg := match n.reg with
    | none => "null".toList
    | some cells => Json.printList (cells.map fun c => (toString c.toNat).toList)
  Json.printObject
    [("path", Json.printString n.path),
     ("labels", Json.printList (n.labels.map Json.printString)),
     ("reg", reg)]

def Description.json (d : Description) : String :=
  String.ofList (Json.printObject [("nodes", Json.printList (d.nodes.map NodeInfo.json))])

/-! Reading -/

open Json (Reader)
open Json.Reader

/-- The fields of a node that have been read. -/
structure NodeInfo.Fields where
  path : Option String
  labels : Option (List String)
  reg : Option (Option (List UInt64))

/-- The node of some fields. Fields that are missing are empty. -/
def NodeInfo.Fields.node (f : Fields) : NodeInfo :=
  ⟨f.path.getD "", f.labels.getD [], f.reg.getD none⟩

def NodeInfo.Fields.read (f : Fields) (name : String) : Reader Fields :=
  match name with
  | "path" => do pure { f with path := some (← once name f.path string) }
  | "labels" => do pure { f with labels := some (← once name f.labels (list string)) }
  | "reg" => do pure { f with reg := some (← once name f.reg (optional (list word))) }
  | _ => do colon; skipValue; pure f

/-- A node is an object, or a list of its fields in order. -/
def NodeInfo.read : Reader NodeInfo := do
  match ← next? with
  | none => failAhead .valueEnds
  | some '[' =>
    skip 1
    let path ← item? true string
    let labels ← item? path.isNone (list string)
    let reg ← item? labels.isNone (optional (list word))
    listEnd
    pure (Fields.node ⟨path, labels, reg⟩)
  | some '\x7b' =>
    skip 1
    let rest ← get
    let f ← fields Fields.read ⟨none, none, none⟩ true rest.length
    skip 1
    pure f.node
  | some _ => mismatch "struct NodeInfo"

def Description.readField (nodes : Option (List NodeInfo)) (name : String) :
    Reader (Option (List NodeInfo)) :=
  match name with
  | "nodes" => do pure (some (← once name nodes (list NodeInfo.read)))
  | _ => do colon; skipValue; pure nodes

/-- A description is an object with the field `nodes`, or a list of that alone. -/
def Description.read : Reader Description := do
  match ← next? with
  | none => failAhead .valueEnds
  | some '[' =>
    skip 1
    match ← item? true (list NodeInfo.read) with
    | none => failBehind ']' (.tooShort 0 "struct HardwareDescription with 1 element")
    | some nodes => listEnd; pure ⟨nodes⟩
  | some '\x7b' =>
    skip 1
    let rest ← get
    match ← fields readField none true rest.length with
    | none => failBehind '\x7d' (.missingField "nodes")
    | some nodes => skip 1; pure ⟨nodes⟩
  | some _ => mismatch "struct HardwareDescription"

def Description.ofJson (text : String) : Except Json.Fault Description :=
  Json.Reader.parse read text

end FirmwareMeta.Hardware
