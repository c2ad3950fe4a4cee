import FirmwareMeta.Word

/-!
Sparse byte images of a 32-bit address space. Runs of written bytes are kept in ascending
order and joined where they touch, so that each contiguous range is one segment; bytes are
written once.
-/
namespace FirmwareMeta

/-- A run of written bytes. -/
structure Segment where
  start : Nat
  bytes : Array UInt8
  deriving DecidableEq, Repr

namespace Segment

/-- The first address behind the segment. -/
def stop (s : Segment) : Nat := s.start + s.bytes.size

/-- The byte that the segment holds at an address. -/
def byte? (s : Segment) (address : Nat) : Option UInt8 :=
  if s.start ≤ address then s.bytes[address - s.start]? else none

def append (s : Segment) (bytes : Array UInt8) : Segment :=
  { s with bytes := s.bytes ++ bytes }

end Segment

structure Image where
  segments : List Segment
  deriving DecidableEq, Repr

namespace Image

inductive WriteError where
  /-- The lowest address of the write that holds a byte already. -/
  | overlap (address : Nat)
  | overflow (address length : Nat)
  deriving DecidableEq, Repr

def empty : Image := ⟨[]⟩

/-- Value of unprogrammed flash. -/
def erased : UInt8 := 0xFF

/-- Segments have bytes, lie in the address space, and ascend with gaps between them. -/
structure Normal (image : Image) : Prop where
  filled : ∀ s ∈ image.segments, s.bytes ≠ #[]
  bounded : ∀ s ∈ image.segments, s.stop ≤ Word.limit
  apart : image.segments.Pairwise fun s t => s.stop < t.start

theorem normal_empty : empty.Normal where
  filled := by simp [empty]
  bounded := by simp [empty]
  apart := .nil

/-- The last segment that starts at or below an address. -/
def segmentFrom? (image : Image) (address : Nat) : Option Segment :=
  (image.segments.filter (·.start ≤ address)).getLast?

/-- The first segment that starts at or above an address. -/
def segmentBehind? (image : Image) (address : Nat) : Option Segment :=
  image.segments.find? (address ≤ ·.start)

/-- The image without the segment that starts at an address. -/
def erase (image : Image) (start : Nat) : Image :=
  ⟨image.segments.filter (·.start ≠ start)⟩

def insertInto (run : Segment) : List Segment → List Segment
  | [] => [run]
  | s :: rest =>
    if s.start < run.start then s :: insertInto run rest
    else if s.start = run.start then run :: rest
    else run :: s :: rest

/-- The image with one more segment, instead of one that starts at the same address. -/
def insert (image : Image) (run : Segment) : Image :=
  ⟨insertInto run image.segments⟩

/-- Changes to an image in place. One that fails leaves what was changed before it. -/
abbrev Edit := EStateM WriteError Image

namespace Edit

/-- The segments next to a run, none of which is in its way. -/
def neighbours (run : Segment) : Edit (Option Segment × Option Segment) := do
  let image ← get
  let before := image.segmentFrom? run.start
  if before.any (run.start < ·.stop) then throw (.overlap run.start)
  let behind := image.segmentBehind? run.start
  if let some s := behind.filter (·.start < run.stop) then throw (.overlap s.start)
  return (before, behind)

/-- Moves a segment that ends where a run starts into the run. -/
def joinBefore (run : Segment) (before : Option Segment) : Edit Segment :=
  match before.filter (·.stop = run.start) with
  | some s => do
    modify (·.erase s.start)
    return s.append run.bytes
  | none => return run

/-- Moves a segment that starts where a run ends into the run. -/
def joinBehind (run : Segment) (behind : Option Segment) : Edit Segment :=
  match behind.filter (·.start = run.stop) with
  | some s => do
    modify (·.erase s.start)
    return run.append s.bytes
  | none => return run

/-- Adds a run, joining it with the segments that it touches. -/
def add (run : Segment) : Edit Unit := do
  let (before, behind) ← neighbours run
  let run ← joinBefore run before
  let run ← joinBehind run behind
  modify (·.insert run)

/-- Writes bytes from an address on. Nothing is written to an address twice or behind the
last one; writing no bytes is possible anywhere. -/
def write (address : Nat) (data : List UInt8) : Edit Unit := do
  if data.isEmpty then return
  if Word.limit < address + data.length then throw (.overflow address data.length)
  add ⟨address, data.toArray⟩

end Edit

/-- The image that a write makes of an image. -/
def write (image : Image) (address : Nat) (data : List UInt8) : Except WriteError Image :=
  match (Edit.write address data).run image with
  | .ok _ written => .ok written
  | .error e _ => .error e

def ofBytes (address : Nat) (data : List UInt8) : Except WriteError Image :=
  empty.write address data

def isEmpty (image : Image) : Bool := image.segments.isEmpty

/-- The byte written at an address. -/
def byte? (image : Image) (address : Nat) : Option UInt8 :=
  image.segments.findSome? (·.byte? address)

def minAddress? (image : Image) : Option Nat :=
  image.segments.head?.map (·.start)

/-- Address of the last written byte. -/
def maxAddress? (image : Image) : Option Nat :=
  image.segments.getLast?.map (·.stop - 1)

/-- Number of addresses from the lowest to the highest written one, both included. -/
def span (image : Image) : Nat :=
  match image.minAddress?, image.maxAddress? with
  | some min, some max => max - min + 1
  | _, _ => 0

/-- Number of written bytes. -/
def written (image : Image) : Nat :=
  image.segments.foldr (fun s n => s.bytes.size + n) 0

/-- `length` bytes from an address on, if all of them are written. -/
def read? (image : Image) (address length : Nat) : Option (List UInt8) :=
  match image.segmentFrom? address with
  | none => none
  | some s =>
    let offset := address - s.start
    if offset + length ≤ s.bytes.size then
      some (s.bytes.extract offset (offset + length)).toList
    else none

/-- The written bytes from an address up to the next gap. -/
def run? (image : Image) (address : Nat) : Option (List UInt8) :=
  match image.segmentFrom? address with
  | none => none
  | some s =>
    let offset := address - s.start
    if offset < s.bytes.size then some (s.bytes.extract offset s.bytes.size).toList else none

/-- Segments flattened from an address on, the gaps between them filled with erased bytes. -/
def flatten (start : Nat) : List Segment → List UInt8
  | [] => []
  | s :: rest =>
    List.replicate (s.start - start) erased ++ (s.bytes.toList ++ flatten s.stop rest)

/-- The image from its lowest to its highest address. -/
def contiguous (image : Image) : List UInt8 :=
  match image.minAddress? with
  | none => []
  | some start => flatten start image.segments

end Image
end FirmwareMeta
