import FirmwareMeta.Failure
import FirmwareMeta.Hardware.Description

/-!
Flash partitions, found by the labels of nodes. Only a node with exactly one label counts, and
of several nodes with the same label the last one does.
-/
namespace FirmwareMeta.Hardware

structure Partition where
  name : String
  start : UInt32
  size : UInt32
  found : Bool
  deriving DecidableEq, Repr

/-- The partitions that were asked for, found or not, in the order of the request. -/
structure PartitionTable where
  partitions : List Partition
  deriving DecidableEq, Repr

def boot : String := "boot_partition"
def slot0 : String := "slot0_partition"

/-- The firmware loader is in the second slot. -/
def slot1 : String := "slot1_partition"
def softDevice : String := "softdevice_partition"
def metadata : String := "metadata_partition"

/-- The partitions of every build. -/
def standardPartitions : List String := [boot, slot0, slot1, softDevice, metadata]

def Partition.absent (name : String) : Partition := ⟨name, 0, 0, false⟩

/-- A cell as a word. -/
def NodeInfo.word (n : NodeInfo) (cell : UInt64) : Except DescriptionFault UInt32 :=
  if cell.toNat < Word.limit then .ok cell.toUInt32 else .error (.wideCell n.path cell)

/-- The first two cells of `reg`. More cells do not matter. -/
def NodeInfo.addressAndSize (n : NodeInfo) : Except DescriptionFault (UInt32 × UInt32) :=
  match n.reg with
  | none => .error (.noReg n.path)
  | some (address :: size :: _) => do
    let address ← n.word address
    let size ← n.word size
    pure (address, size)
  | some cells => .error (.shortReg n.path cells.length)

namespace PartitionTable

/-- One partition for each name, in the order of the first requests. -/
def requested (names : List String) : PartitionTable :=
  ⟨(names.foldl (fun seen name => if name ∈ seen then seen else seen ++ [name]) []).map
    Partition.absent⟩

def requests (t : PartitionTable) (name : String) : Bool :=
  t.partitions.any (·.name = name)

/-- Places the partition of a name. -/
def place (t : PartitionTable) (name : String) (address size : UInt32) : PartitionTable :=
  ⟨t.partitions.map fun p => if p.name = name then ⟨name, address, size, true⟩ else p⟩

/-- Takes a node into account. A node that counts has to have an address and a size. -/
def addNode (t : PartitionTable) (n : NodeInfo) : Except DescriptionFault PartitionTable :=
  match n.labels with
  | [label] =>
    if t.requests label then
      match n.addressAndSize with
      | .ok (address, size) => .ok (t.place label address size)
      | .error e => .error e
    else .ok t
  | _ => .ok t

def resolve (nodes : List NodeInfo) (names : List String) :
    Except DescriptionFault PartitionTable :=
  nodes.foldlM addNode (requested names)

/-- A partition that was asked for and found. -/
def lookup? (t : PartitionTable) (name : String) : Option Partition :=
  (t.partitions.find? (·.name = name)).filter (·.found)

def require (t : PartitionTable) (name : String) : Except Failure Partition :=
  match t.lookup? name with
  | some p => .ok p
  | none => .error (.partitionMissing name)

end PartitionTable

/-- What the log says about a partition. -/
def Partition.summary (p : Partition) : String :=
  if p.found then
    p.name ++ ": " ++ Numeral.hexWord p.start.toNat ++ " (" ++ Numeral.hex 1 p.size.toNat ++
      " bytes)"
  else p.name ++ ": not present"

end FirmwareMeta.Hardware
