import FirmwareMeta.Toml.Parser

/-!
Tables as keys and headers build them. A table is defined once: its header stands once, and
dotted keys only go through tables that dotted keys have made.
-/
namespace FirmwareMeta.Toml

/-- A value. Nothing needs to know what lists, tables and times in values hold. -/
inductive Value where
  | text (value : String)
  | integer (value : Int)
  /-- A binary64 number, as its bits. -/
  | float (bits : UInt64)
  | boolean (value : Bool)
  | datetime
  | array
  | inlineTable
  deriving DecidableEq, Repr

def Value.typeName : Value → String
  | text _ => "string"
  | integer _ => "integer"
  | float _ => "float"
  | boolean _ => "boolean"
  | datetime => "datetime"
  | array => "array"
  | inlineTable => "inline table"

structure Key where
  name : String
  span : Span
  deriving DecidableEq, Repr

/-- A table with items of some type, in the order of their first mention. -/
structure TableOf (ι : Type) where
  /-- Whether only a path has led to the table. -/
  implicit : Bool
  /-- Whether that was the path of a dotted key. -/
  dotted : Bool
  /-- From the header to the last value behind it. -/
  span : Option Span
  entries : List (Key × ι)

inductive Item where
  | value (value : Value) (span : Span)
  | table (table : TableOf Item)
  /-- The tables of headers in double brackets; the latest first. -/
  | tables (list : List (TableOf Item))

abbrev Table := TableOf Item

namespace Table

def empty : Table := ⟨false, false, none, []⟩

/-- A table that a path leads to. -/
def passed (dotted : Bool) : Table := ⟨true, dotted, none, []⟩

def find? (t : Table) (name : String) : Option Item :=
  (t.entries.find? (·.1.name = name)).map (·.2)

/-- Puts an item under a key that keeps its place if it is there. -/
def put (t : Table) (key : Key) (item : Item) : Table :=
  { t with entries := if (t.find? key.name).isSome
      then t.entries.map fun (k, old) => if k.name = key.name then (k, item) else (k, old)
      else t.entries ++ [(key, item)] }

def remove (t : Table) (name : String) : Table :=
  { t with entries := t.entries.filter (·.1.name ≠ name) }

/-- Changes the table at the end of a path, `behind` being the part of the path that led here,
and gives what the change gives. Tables that are not there are made. -/
def change {α : Type} (dotted : Bool) (f : Table → Except Cause (α × Table)) (behind : List Key)
    (t : Table) : List Key → Except Cause (α × Table)
  | [] => f t
  | key :: rest => do
    let behind := behind ++ [key]
    match t.find? key.name with
    | none =>
      let (x, child) ← change dotted f behind (passed dotted) rest
      pure (x, t.put key (.table child))
    | some (.value v _) => throw (.notTable (behind.map (·.name)) v.typeName)
    | some (.tables list) =>
      let (x, child) ← change dotted f behind (list.headD (passed dotted)) rest
      pure (x, t.put key (.tables (child :: list.tail)))
    | some (.table child) =>
      if dotted && !child.implicit then throw (.duplicateKey key.name none)
      let (x, child) ← change dotted f behind child rest
      pure (x, t.put key (.table child))

/-- Adds an item behind a path of a dotted key. `table` is what to call the table of a key that
is there already. -/
def define (t : Table) (path : List Key) (key : Key) (item : Item)
    (table : Option (List String)) : Except Cause Table := do
  let ((), t) ← t.change true (fun t =>
    -- The end of a path is a table that dotted keys have made, and only that.
    if t.dotted = path.isEmpty then throw (.duplicateKey key.name none)
    else if (t.find? key.name).isSome then throw (.duplicateKey key.name table)
    else pure ((), t.put key item)) [] path
  pure t

/-- Adds values behind their paths. A table that is a value is not added to. -/
def ofPairs (pairs : List (List Key × Value × Span)) : Except Cause Table :=
  pairs.foldlM (fun t (path, v, span) =>
    match path.getLast? with
    | none => .ok t
    | some key =>
      let item : Item := match v with
        | .inlineTable => .table { empty with span := some span }
        | v => .value v span
      t.define path.dropLast key item none) empty

end Table

/-- The tables of a document up to some line: all that are closed, and the open one with the
path of its header. -/
structure Assembly where
  root : Table
  current : Table
  path : List Key
  /-- Whether the header of the open table has double brackets. -/
  repeated : Bool

namespace Assembly

def start : Assembly := ⟨Table.empty, Table.empty, [], false⟩

/-- Adds a value to the open table. -/
def define (a : Assembly) (path : List Key) (v : Value) (span : Span) :
    Except Cause Assembly := do
  match path.getLast? with
  | none => pure a
  | some key =>
    let widened : Table :=
      { a.current with span := a.current.span.map fun s => ⟨s.start, span.stop⟩ }
    let current ← widened.define path.dropLast key (.value v span)
      (some (a.path.map (·.name)))
    pure { a with current }

/-- The cause if the last key of a header's path is taken. -/
def taken (before : List Key) (key : Key) : Cause :=
  .duplicateKey key.name (some (before.map (·.name)))

/-- Puts the open table in its place. -/
def close (a : Assembly) : Except Cause Table :=
  match a.path.getLast? with
  | none => .ok a.current
  | some key => do
    let ((), root) ← a.root.change false (fun parent =>
      match a.repeated, parent.find? key.name with
      | false, none => pure ((), parent.put key (.table a.current))
      | true, none => pure ((), parent.put key (.tables [a.current]))
      | true, some (.tables list) => pure ((), parent.put key (.tables (a.current :: list)))
      | _, some _ => throw (taken a.path.dropLast key)) [] a.path.dropLast
    pure root

/-- Goes on behind a header in single brackets. No header may have made its table before, but
paths may have led through it. -/
def openTable (a : Assembly) (path : List Key) (span : Span) : Except Cause Assembly := do
  let root ← a.close
  match path.getLast? with
  | none => pure a
  | some key =>
    let before := path.dropLast
    let (table, root) ← root.change false (fun parent =>
      match parent.find? key.name with
      | none => pure (Table.empty, parent)
      | some (.table t) =>
        if t.implicit && !t.dotted then pure (t, parent.remove key.name)
        else throw (taken before key)
      | some _ => throw (taken before key)) [] before
    pure ⟨root, ⟨false, false, some span, table.entries⟩, path, false⟩

/-- Goes on behind a header in double brackets, which adds a table to those of its path. -/
def openRepeated (a : Assembly) (path : List Key) (span : Span) : Except Cause Assembly := do
  let root ← a.close
  match path.getLast? with
  | none => pure a
  | some key =>
    let before := path.dropLast
    let ((), root) ← root.change false (fun parent =>
      match parent.find? key.name with
      | none => pure ((), parent.put key (.tables []))
      | some (.tables _) => pure ((), parent)
      | some _ => throw (taken before key)) [] before
    pure ⟨root, ⟨false, false, some span, []⟩, path, true⟩

end Assembly
end FirmwareMeta.Toml
