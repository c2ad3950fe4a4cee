import FirmwareMeta.Proofs.Devicetree.Acceptance

/-! The nodes of a tree and their openings. Names lead from the root to a node, and from the
openings of the root to those of the node, which say what its `reg` is. -/
namespace FirmwareMeta.Devicetree

variable {items : List Item} {n : Node} {os : List Occurrence} {cells : List UInt64}

/-! Listings -/

/-- What goes from nodes to their children holds of all that are listed. -/
theorem Node.forall_listing {P : Node → Prop} (passes : ∀ n, P n → ∀ c ∈ n.children, P c)
    {trees : List Node} (all : ∀ n ∈ trees, P n) : ∀ n ∈ Node.listing trees, P n := by
  fun_induction Node.listing trees with
  | case1 => simp
  | case2 n rest ih =>
    rw [List.forall_mem_cons] at all ⊢
    exact ⟨all.1, ih (List.forall_mem_append.mpr ⟨passes n all.1, all.2⟩)⟩

/-! Openings -/

/-- The openings of a child, from those of its parent. -/
def openingsOf (os : List Occurrence) (name : String) : List Occurrence :=
  (os.flatMap (·.items)).filterMap (Item.opening? name)

/-- The openings of the node that some names lead to. -/
def openingsAt (os : List Occurrence) (names : List String) : List Occurrence :=
  names.foldl openingsOf os

/-- The path of the node that some names lead to. -/
def pathAt (names : List String) : String := names.foldl Node.childPath "/"

theorem openingsOf_congr {others : List Occurrence} {name : String}
    (same : os.flatMap (·.items) = others.flatMap (·.items)) :
    openingsOf os name = openingsOf others name :=
  congrArg (List.filterMap (Item.opening? name)) same

/-- A node is where some names lead, and what it holds is what stands in its openings. -/
def LedTo (os : List Occurrence) (n : Node) : Prop :=
  ∃ names own, n.path = pathAt names ∧ n.MadeOf own ∧
    own.flatMap (·.items) = (openingsAt os names).flatMap (·.items)

theorem pathAt_concat (names : List String) (name : String) :
    pathAt (names ++ [name]) = Node.childPath (pathAt names) name := by
  rw [pathAt, List.foldl_append]
  rfl

theorem openingsAt_concat (os : List Occurrence) (names : List String) (name : String) :
    openingsAt os (names ++ [name]) = openingsOf (openingsAt os names) name := by
  rw [openingsAt, List.foldl_append]
  rfl

theorem Node.MadeOf.child {c : Node} (made : n.MadeOf os) (mem : c ∈ n.children) :
    c.path = Node.childPath n.path c.name ∧ c.MadeOf (openingsOf os c.name) := by
  cases made with
  | intro inside _ _ _ paths children =>
    subst inside
    exact ⟨paths c mem, children c mem⟩

/-- In front of others an opening with nothing inside changes none of what is led to. -/
theorem flatMap_openingsAt_empty (labels : List String) (os : List Occurrence)
    (names : List String) : (openingsAt (⟨labels, []⟩ :: os) names).flatMap (·.items) =
      (openingsAt os names).flatMap (·.items) := by
  cases names with
  | nil => rfl
  | cons name rest =>
    have same : openingsOf (⟨labels, []⟩ :: os) name = openingsOf os name := openingsOf_congr rfl
    rw [openingsAt, List.foldl_cons, same]
    rfl

/-- What names lead to in the tree is made of what they lead to in the document. -/
theorem MadeOf.openedAt {parts : List Part} {tree : Devicetree} (made : tree.MadeOf parts) :
    ∀ n ∈ tree.nodes, ∃ names, n.path = pathAt names ∧
      n.MadeOf (openingsAt (⟨[], []⟩ :: parts.filterMap Part.opening?) names) := by
  refine Node.forall_listing ?_ (List.forall_mem_singleton.mpr ⟨[], made.path, made.root⟩)
  rintro n ⟨names, path, own⟩ c mem
  have child := own.child mem
  refine ⟨names ++ [c.name], ?_, ?_⟩
  · rw [child.1, path, pathAt_concat]
  · rw [openingsAt_concat]
    exact child.2

theorem MadeOf.ledTo {parts : List Part} {tree : Devicetree} (made : tree.MadeOf parts) :
    ∀ n ∈ tree.nodes, LedTo (parts.filterMap Part.opening?) n := by
  intro n mem
  obtain ⟨names, path, own⟩ := made.openedAt n mem
  exact ⟨names, _, path, own, flatMap_openingsAt_empty _ _ _⟩

/-- A source that is read is a document, and its tree is what the document says. -/
theorem exists_document_of_parse {source : String} {tree : Devicetree}
    (parsed : parse source = .ok tree) :
    ∃ tokens parts, Token.read source = .ok tokens ∧
      Grammar.Document parts (tokens.map (·.token)) ∧ tree.MadeOf parts := by
  unfold parse at parsed
  split at parsed
  · contradiction
  · rename_i tokens read
    obtain ⟨parts, derived⟩ := document_of_ofTokens parsed
    obtain rfl := Except.ok.inj ((ofTokens_of_document derived).symm.trans parsed)
    exact ⟨tokens, parts, read, derived, madeOf_treeOf parts⟩

/-! Numeric cells -/

/-- Reading back what was mapped, when no other items are read. -/
theorem mapM_eq_some_iff_map {α β : Type} {read : α → Option β} {write : β → α}
    (reads : ∀ a b, read a = some b ↔ a = write b) {l : List α} {m : List β} :
    l.mapM read = some m ↔ l = m.map write := by
  induction l generalizing m with
  | nil => simp [eq_comm]
  | cons a rest ih =>
    simp only [List.mapM_cons, Option.bind_eq_bind, Option.bind_eq_some_iff, Option.pure_def, reads,
      ih, Option.some.injEq]
    constructor
    · rintro ⟨b, rfl, bs, rfl, rfl⟩
      rfl
    · intro same
      cases m with
      | nil => contradiction
      | cons b bs =>
        obtain ⟨first, others⟩ := List.cons.inj same
        exact ⟨b, first, bs, others, rfl⟩

theorem Cell.number?_eq_some_iff (c : Cell) (number : UInt64) :
    c.number? = some number ↔ c = .number number := by
  cases c <;> simp [Cell.number?]

theorem Value.numbers?_eq_some_iff (v : Value) (numbers : List UInt64) :
    v.numbers? = some numbers ↔ v = .cells (numbers.map .number) := by
  cases v with
  | cells list => simp [Value.numbers?, mapM_eq_some_iff_map Cell.number?_eq_some_iff]
  | _ => simp [Value.numbers?]

theorem Item.any_property?_iff {name : String} {item : Item} :
    item.property?.any (·.name = name) = true ↔ ∃ values, item = .property name values := by
  cases item <;> simp [Item.property?]

/-- The last of some items that defines a property. -/
theorem find?_properties_eq_some_iff {name : String} {p : Property} :
    (items.filterMap Item.property?).reverse.find? (·.name = name) = some p ↔
      p.name = name ∧ ∃ before behind, items = before ++ .property name p.values :: behind ∧
        ∀ values, .property name values ∉ behind := by
  rw [← List.filterMap_reverse, List.find?_filterMap, Option.bind_eq_some_iff]
  simp only [List.find?_eq_some_iff_append, List.reverse_eq_append_iff, List.reverse_cons,
    List.append_assoc, List.singleton_append, Item.any_property?_iff, Bool.not_eq_true',
    ← Bool.not_eq_true, not_exists]
  constructor
  · rintro ⟨_, ⟨⟨values, rfl⟩, after, front, split, others⟩, defined⟩
    obtain rfl := Option.some.inj defined
    refine ⟨rfl, front.reverse, after.reverse, split, fun values mem => ?_⟩
    exact others _ (List.mem_reverse.mp mem) values rfl
  · rintro ⟨rfl, before, behind, rfl, last⟩
    refine ⟨.property p.name p.values, ⟨⟨_, rfl⟩, behind.reverse, before.reverse, ?_, ?_⟩, rfl⟩
    · simp
    · rintro _ mem values rfl
      exact last values (List.mem_reverse.mp mem)

/-- The last of some items that defines `reg` gives it these cells, in groups. -/
def DefinesReg (items : List Item) (cells : List UInt64) : Prop :=
  ∃ (groups : List (List UInt64)) (before behind : List Item),
    items = before ++ .property "reg" (groups.map fun g => .cells (g.map .number)) :: behind ∧
      (∀ values, .property "reg" values ∉ behind) ∧ cells = groups.flatten

theorem Node.reg?_eq_some_iff (properties : n.properties = items.filterMap Item.property?) :
    n.reg? = some cells ↔ DefinesReg items cells := by
  simp only [Node.reg?, Node.property?, properties, Option.bind_eq_bind, Option.bind_eq_some_iff,
    find?_properties_eq_some_iff, mapM_eq_some_iff_map Value.numbers?_eq_some_iff, Option.pure_def,
    Option.some.injEq]
  constructor
  · rintro ⟨p, ⟨-, before, behind, split, last⟩, groups, values, rfl⟩
    exact ⟨groups, before, behind, values ▸ split, last, rfl⟩
  · rintro ⟨groups, before, behind, split, last, rfl⟩
    exact ⟨⟨"reg", _⟩, ⟨rfl, before, behind, split, last⟩, groups, rfl, rfl⟩

/-- The `reg` of each node of a tree that is read is the last one in all of its openings. -/
theorem reg?_of_parse {source : String} {tree : Devicetree} (parsed : parse source = .ok tree) :
    ∃ tokens parts, Token.read source = .ok tokens ∧
      Grammar.Document parts (tokens.map (·.token)) ∧
      ∀ n ∈ tree.nodes, ∃ names, n.path = pathAt names ∧ ∀ cells, n.reg? = some cells ↔
        DefinesReg ((openingsAt (parts.filterMap Part.opening?) names).flatMap (·.items))
          cells := by
  obtain ⟨tokens, parts, read, derived, tree_made⟩ := exists_document_of_parse parsed
  refine ⟨tokens, parts, read, derived, fun n mem => ?_⟩
  obtain ⟨names, own, path, made, same⟩ := tree_made.ledTo n mem
  refine ⟨names, path, fun cells => ?_⟩
  cases made with
  | intro inside _ properties _ _ _ =>
    rw [← same, ← inside]
    exact Node.reg?_eq_some_iff properties

end FirmwareMeta.Devicetree
