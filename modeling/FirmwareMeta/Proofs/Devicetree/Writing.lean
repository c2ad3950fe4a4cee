import FirmwareMeta.Proofs.Devicetree.Literal
import FirmwareMeta.Proofs.Devicetree.Merging

/-! The tokens that a tree is written as derive from the grammar, and what is derived there means
the tree. -/
namespace FirmwareMeta.Devicetree

open Grammar

/-! Symbols in any style -/

namespace Symbol

variable {style : Nat → Style} {symbols more : List Symbol} {ls : List String}

@[simp] theorem writeAll_nil : writeAll style [] = [] := rfl

@[simp] theorem writeAll_cons (s : Symbol) : writeAll style (s :: symbols) =
    s.write (style 0) :: writeAll (fun i => style (i + 1)) symbols :=
  List.mapIdx_cons

@[simp] theorem writeAll_append : writeAll style (symbols ++ more) =
    writeAll style symbols ++ writeAll (fun i => style (i + symbols.length)) more :=
  List.mapIdx_append

@[simp] theorem writeAll_labels :
    writeAll style (ls.map (.token <| .label ·)) = Grammar.labels ls := by
  induction ls generalizing style with
  | nil => rfl
  | cons l ls ih =>
    rw [List.map_cons, writeAll_cons, ih]
    rfl

end Symbol

/-! Values and properties -/

theorem cells_symbols (list : List Cell) (style : Nat → Style) :
    Cells list (Symbol.writeAll style (list.map Cell.symbol)) := by
  induction list generalizing style with
  | nil => exact .nil
  | cons cell rest ih =>
    rw [List.map_cons, Symbol.writeAll_cons]
    cases cell with
    | number value => exact .word (Cell.ofWord?_number _ value) (ih _)
    | reference target => exact .reference target (ih _)

theorem bytes_symbols (list : List UInt8) (style : Nat → Style) :
    Bytes list (Symbol.writeAll style (list.map Symbol.byte)) := by
  induction list generalizing style with
  | nil => exact .nil
  | cons value rest ih =>
    have pairs : Pairs [value] (String.ofList ((style 0).byte value)).toList := by
      rw [String.toList_ofList]
      exact pairs_byte _ value
    rw [List.map_cons, Symbol.writeAll_cons]
    exact .word pairs (ih _)

theorem Value.single_symbols (v : Value) (style : Nat → Style) :
    Single v (Symbol.writeAll style v.symbols) := by
  cases v with
  | text value => exact .text value
  | reference target => exact .reference target
  | cells list =>
    rw [symbols, Symbol.writeAll_append, Symbol.writeAll_cons]
    exact .cells (cells_symbols list _)
  | bytes list =>
    rw [symbols, Symbol.writeAll_append, Symbol.writeAll_cons]
    exact .bytes (bytes_symbols list _)

theorem Value.labelled_symbols (v : Value) (style : Nat → Style) :
    Labelled v (Symbol.writeAll style v.symbols) := by
  have bare := Labelled.intro [] [] (v.single_symbols style)
  simpa [labels] using bare

theorem Value.values_allSymbols (v : Value) (rest : List Value) (style : Nat → Style) :
    Values (v :: rest) (Symbol.writeAll style (allSymbols (v :: rest))) := by
  induction rest generalizing v style with
  | nil => exact .one (v.labelled_symbols style)
  | cons next rest ih =>
    rw [allSymbols, Symbol.writeAll_append, Symbol.writeAll_cons]
    · exact .more (v.labelled_symbols style) (ih next _)
    · simp

def Property.item (p : Property) : Item := .property p.name p.values

theorem Property.statement_symbols (p : Property) (style : Nat → Style) :
    Statement p.item (Symbol.writeAll style p.symbols) := by
  obtain ⟨name, values⟩ := p
  cases values with
  | nil => exact .flag [] name
  | cons v rest =>
    have values := Value.values_allSymbols v rest fun i => style (i + 1 + 1)
    simpa [labels, item, symbols, Symbol.write] using Statement.property [] name values

/-! Nodes -/

mutual

/-- What stands between the braces of a node. -/
def Node.items : Node → List Item
  | ⟨_, _, _, properties, children⟩ => properties.map Property.item ++ Node.childItems children

def Node.childItems : List Node → List Item
  | [] => []
  | n :: rest => .node n.labels n.name n.items :: Node.childItems rest

end

/-- A node as the opening of a child. -/
def Node.item (n : Node) : Item := .node n.labels n.name n.items

theorem Node.childItems_eq_map (cs : List Node) : childItems cs = cs.map item := by
  induction cs with
  | nil => rw [childItems, List.map_nil]
  | cons c rest ih => rw [childItems, ih, List.map_cons, item]

theorem Node.items_eq (n : Node) :
    n.items = n.properties.map Property.item ++ n.children.map item := by
  cases n
  rw [items, childItems_eq_map]

theorem Grammar.Body.properties {items : List Item} {ts : List Token} (ps : List Property)
    (style : Nat → Style) (rest : Body items ts) :
    Body (ps.map Property.item ++ items)
      (Symbol.writeAll style (ps.flatMap Property.symbols) ++ ts) := by
  induction ps generalizing style with
  | nil => exact rest
  | cons p ps ih =>
    rw [List.flatMap_cons, Symbol.writeAll_append, List.append_assoc]
    exact .cons (p.statement_symbols style) (ih _)

mutual

/-- The tokens of a node are its items in braces. -/
theorem Node.body_symbols (n : Node) : ∀ style, ∃ ts, Body n.items ts ∧
    Symbol.writeAll style n.symbols = .openBrace :: ts ++ [.closeBrace, .semicolon] := by
  intro style
  obtain ⟨name, path, labels, properties, children⟩ := n
  have inside := Node.body_childSymbols children
    fun i => style (i + (properties.flatMap Property.symbols).length + 1)
  rw [Node.symbols, Node.items]
  refine ⟨_, inside.properties properties fun i => style (i + 1), ?_⟩
  simp [Symbol.write, Nat.add_assoc]

theorem Node.body_childSymbols (cs : List Node) : ∀ style,
    Body (childItems cs) (Symbol.writeAll style (childSymbols cs)) := by
  intro style
  match cs with
  | [] =>
    rw [childItems, childSymbols]
    exact .nil
  | n :: rest =>
    rw [childItems, childSymbols]
    obtain ⟨ts, body, tokens⟩ := Node.body_symbols n fun i => style (i + 1 + n.labels.length)
    have first := Statement.node n.labels n.name body
    have more := Node.body_childSymbols rest
    simpa [tokens, Symbol.write] using Body.cons first (more _)

end

/-- The part of a document that a tree is written as. -/
def part (tree : Devicetree) : Part := .root tree.root.labels tree.root.items

theorem document_symbols (tree : Devicetree) (style : Nat → Style) :
    Document [part tree] (Symbol.writeAll style (symbols tree)) := by
  obtain ⟨ts, body, tokens⟩ :=
    tree.root.body_symbols fun i => style (i + 1 + tree.root.labels.length)
  have whole := Document.root tree.root.labels body .nil
  simpa [part, symbols, tokens, Symbol.write] using whole

/-! The tree is what its source means -/

namespace Node

variable {n c : Node} {cs : List Node}

theorem items_properties (n : Node) : n.items.filterMap Item.property? = n.properties := by
  have own : Item.property? ∘ Property.item = some := rfl
  have none_there : Item.property? ∘ item = fun _ => none := rfl
  rw [items_eq, List.filterMap_append, List.filterMap_map, List.filterMap_map, own, none_there,
    List.filterMap_some, List.filterMap_none, List.append_nil]

theorem items_childNames (n : Node) :
    n.items.filterMap Item.childName? = n.children.map (·.name) := by
  have none_there : Item.childName? ∘ Property.item = fun _ => none := rfl
  have own : Item.childName? ∘ item = some ∘ fun c => c.name := rfl
  rw [items_eq, List.filterMap_append, List.filterMap_map, List.filterMap_map, own, none_there,
    List.filterMap_none, List.nil_append, List.filterMap_eq_map]

theorem openings_of_nodup (distinct : (cs.map (·.name)).Nodup) (mem : c ∈ cs) :
    (cs.map item).filterMap (Item.opening? c.name) = [⟨c.labels, c.items⟩] := by
  induction cs with
  | nil => contradiction
  | cons d rest ih =>
    rw [List.map_cons, List.nodup_cons] at distinct
    rw [List.map_cons]
    rcases List.mem_cons.mp mem with rfl | behind
    · have opened : c.item.opening? c.name = some ⟨c.labels, c.items⟩ := if_pos rfl
      have others : c.name ∉ (rest.map item).filterMap Item.childName? := by
        rw [List.filterMap_map]
        exact List.filterMap_eq_map (f := fun d : Node => d.name) ▸ distinct.1
      rw [List.filterMap_cons_some opened, Item.openings_of_not_mem others]
    · have differs : d.name ≠ c.name := by
        intro same
        exact distinct.1 (same ▸ List.mem_map_of_mem behind)
      have closed : d.item.opening? c.name = none := if_neg differs
      rw [List.filterMap_cons_none closed, ih distinct.2 behind]

/-- Siblings of different names are opened once each. -/
theorem items_opening (distinct : (n.children.map (·.name)).Nodup) (mem : c ∈ n.children) :
    n.items.filterMap (Item.opening? c.name) = [⟨c.labels, c.items⟩] := by
  have none_there : Item.opening? c.name ∘ Property.item = fun _ => none := rfl
  rw [items_eq, List.filterMap_append, List.filterMap_map, none_there, List.filterMap_none,
    List.nil_append, openings_of_nodup distinct mem]

theorem WellFormed.madeOf (formed : n.WellFormed) : n.MadeOf [⟨n.labels, n.items⟩] := by
  induction formed with
  | @intro n _ _ distinct _ paths _ ih =>
    refine madeOf_single_iff.mpr ⟨rfl, n.items_properties.symm, ?_, paths, ?_⟩
    · rw [items_childNames, eraseDups_of_nodup distinct]
    · intro c mem
      rw [items_opening distinct mem]
      exact ih c mem

end Node

theorem WellFormed.madeOf {tree : Devicetree} (formed : tree.WellFormed) :
    tree.MadeOf [part tree] := by
  refine ⟨formed.name, formed.path, ?_⟩
  obtain ⟨-, properties, names, paths, made⟩ := Node.madeOf_single_iff.mp formed.root.madeOf
  -- The root is there before it is opened, without labels or items.
  refine .intro ?_ ?_ properties names paths made
  · simp [part, Part.opening?]
  · simp [part, Part.opening?, eraseDups_of_nodup formed.labels]

end FirmwareMeta.Devicetree
