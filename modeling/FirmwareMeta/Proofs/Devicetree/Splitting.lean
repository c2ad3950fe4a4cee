import FirmwareMeta.Proofs.Devicetree.Acceptance
import FirmwareMeta.Proofs.Devicetree.Borders

/-! A node that is opened twice is the node with both bodies in one opening. Merging is associative,
so this holds behind other openings of the node as well, and at every depth. -/
namespace FirmwareMeta.Devicetree

namespace Grammar

/-- The tokens in front of a place where an item of an open node may stand: closed parts of the
document, and openings with closed items in them. -/
inductive Within : List Token → Prop where
  | root (front : Document parts ts) (names : List String) (body : Body items us) :
      Within (ts ++ (labels names ++ .slash :: .openBrace :: us))
  | child (outside : Within ts) (names : List String) (name : String) (body : Body items us) :
      Within (ts ++ (labels names ++ .word name :: .openBrace :: us))

/-- A node with some tokens between its braces. -/
def nodeTokens (names : List String) (name : String) (inside : List Token) : List Token :=
  labels names ++ .word name :: .openBrace :: inside ++ [.closeBrace, .semicolon]

/-- The root with some tokens between its braces. -/
def rootTokens (names : List String) (inside : List Token) : List Token :=
  labels names ++ .slash :: .openBrace :: inside ++ [.closeBrace, .semicolon]

/-- A node or the root is opened at once in the one source and in two parts in the other. -/
inductive Split : List Token → List Token → Prop where
  | node (place : Within before) (names : List String) (name : String) (first : Body items us)
      (second : Body others vs) (behind : List Token) :
      Split (before ++ (nodeTokens names name (us ++ vs) ++ behind))
        (before ++ (nodeTokens names name us ++ nodeTokens [] name vs ++ behind))
  | root (place : Document parts before) (names : List String) (first : Body items us)
      (second : Body others vs) (behind : List Token) :
      Split (before ++ (rootTokens names (us ++ vs) ++ behind))
        (before ++ (rootTokens names us ++ rootTokens [] vs ++ behind))

end Grammar

open Grammar

variable {n a b : Node} {os more last : List Occurrence} {name path : String}
  {own : List String} {front back items : List Item} {r : Node} {o : Opening} {st : List Opening}
  {ts us vs : List Token} {s s' : State}

/-! Merging -/

namespace Node

/-- An opening without labels adds to what the one in front of it says inside. -/
theorem MadeOf.join (made : n.MadeOf [⟨own, front⟩, ⟨[], back⟩]) :
    n.MadeOf [⟨own, front ++ back⟩] := by
  cases made with
  | intro inside labels properties names paths children =>
    have all : [⟨own, front⟩, ⟨[], back⟩].flatMap Occurrence.items = front ++ back := by simp
    obtain rfl := inside.trans all
    exact madeOf_single_iff.mpr ⟨by simpa using labels, properties, names, paths, children⟩

theorem merge_assoc (left : n.MadeOf os) (middle : a.MadeOf more) (right : b.MadeOf last)
    (path : n.path = a.path) (also : a.path = b.path) :
    (n.merge a).merge b = n.merge (a.merge b) := by
  have one := middle.adds n os left path
  have other := right.adds a more middle also
  have front := right.adds (n.merge a) _ one (by rw [merge_eq]; exact path.trans also)
  have back := other.adds n os left (by rw [merge_eq]; exact path)
  rw [List.append_assoc] at front
  apply front.unique back <;> simp only [merge_eq]

/-- Siblings that are opened twice in a row. -/
theorem insert_insert (cs : List Node) (same : b.name = a.name)
    (assoc : ∀ c ∈ cs, c.name = a.name → (c.merge a).merge b = c.merge (a.merge b)) :
    insert (insert cs a) b = insert cs (a.merge b) := by
  have kept : ∀ c d : Node, (c.merge d).name = c.name := fun c d => by rw [merge_eq]
  simp only [insert] at *
  induction cs with
  | nil => rw [settle, settle, settle, if_pos same.symm]
  | cons c rest ih =>
    rw [List.forall_mem_cons] at assoc
    rw [settle, settle, kept a b]
    by_cases first : c.name = a.name
    · rw [if_pos first, if_pos first, settle, if_pos (by rw [kept, same]; exact first),
        assoc.1 first]
    · rw [if_neg first, if_neg first, settle, if_neg (by rw [same]; exact first), ih assoc.2]

end Node

/-- What is opened in two parts and merged is what is opened at once. -/
theorem Item.addAll_append (name path : String) (own : List String) (front back : List Item) :
    Item.addAll (.bare name path own) (front ++ back) =
      (Item.addAll (.bare name path own) front).merge (Item.addAll (.bare name path []) back) := by
  have whole := Item.madeOf_addAll (front ++ back) _ _ _ (Node.madeOf_bare name path own)
  have first := Item.madeOf_addAll front _ _ _ (Node.madeOf_bare name path own)
  have second := Item.madeOf_addAll back _ _ _ (Node.madeOf_bare name path [])
  have both := second.adds _ _ first (by rw [path_addAll, path_addAll]; rfl)
  refine whole.unique both.join ?_ ?_ <;>
    simp only [Node.merge_eq, name_addAll, path_addAll]

/-- The root may be opened in two parts. -/
theorem Part.addTo_root_append (made : r.MadeOf os) (path : r.path = "/") (own : List String)
    (front back : List Item) :
    (Part.root own (front ++ back)).addTo r =
      (Part.root [] back).addTo ((Part.root own front).addTo r) := by
  have first := Item.madeOf_addAll front _ _ _ (Node.madeOf_bare "/" "/" own)
  have second := Item.madeOf_addAll back _ _ _ (Node.madeOf_bare "/" "/" [])
  simp only [Part.addTo]
  rw [Item.addAll_append, Node.merge_assoc made first second]
  · rw [path, Item.path_addAll]
    rfl
  · rw [Item.path_addAll, Item.path_addAll]
    rfl

/-! Open nodes -/

/-- A child of an open node may be opened in two parts, whatever the node has for children. -/
theorem Opening.add_node_append (made : o.close.MadeOf os) (own : List String) (name : String)
    (front back : List Item) :
    o.add (.node own name (front ++ back)) =
      (o.add (.node own name front)).add (.node [] name back) := by
  have opened : ∀ labels items,
      (Item.addAll (.bare name (Node.childPath o.path name) labels) items).MadeOf
        [⟨labels, [] ++ items⟩] := fun labels items =>
    Item.madeOf_addAll items _ _ _ (Node.madeOf_bare name (Node.childPath o.path name) labels)
  have named : ∀ labels items,
      (Item.addAll (.bare name (Node.childPath o.path name) labels) items).name = name := by
    intro labels items
    rw [Item.name_addAll]
    rfl
  have placed : ∀ labels items,
      (Item.addAll (.bare name (Node.childPath o.path name) labels) items).path =
        Node.childPath o.path name := by
    intro labels items
    rw [Item.path_addAll]
    rfl
  have path : (o.add (.node own name front)).path = o.path := o.path_add _
  simp only [Opening.add] at path ⊢
  rw [Item.addAll_append, path]
  simp only [Opening.addChild]
  rw [Node.insert_insert _ ((named [] back).trans (named own front).symm)]
  intro c mem same
  cases made with
  | intro inside labels properties names paths children =>
    refine Node.merge_assoc (children c mem) (opened own front) (opened [] back) ?_
      ((placed own front).trans (placed [] back).symm)
    rw [placed, paths c mem, same, named]
    rfl

theorem Inside.madeOf (inside : Inside r (o :: st) ts) : ∃ os, o.close.MadeOf os := by
  have started : ∀ (name path : String) (names : List String) (items : List Item),
      ∃ os, ((Opening.start name path names).addAll items).close.MadeOf os := by
    intro name path names items
    rw [Opening.close_addAll]
    exact ⟨_, Item.madeOf_addAll items _ _ _ (Node.madeOf_bare name path names)⟩
  cases inside with
  | root => exact started _ _ _ _
  | child => exact started _ _ _ _

/-- Behind the tokens in front of an item the parser is between items, and the other way round. -/
theorem Inside.goes (inside : Inside r st ts) : State.start.Goes ts ⟨r, st, .items⟩ := by
  induction inside with
  | document derived => exact derived.goes Node.root
  | @root r ts items us outside names body ih =>
    have opened := (goes_slash r names).snoc (x := .openBrace) rfl
    have filled := opened.trans (body.goes r _ [])
    simpa using ih.trans filled
  | @child r o st ts items us outside names name body ih =>
    have opened := (goes_name r o st names name).snoc (x := .openBrace) rfl
    have filled := opened.trans (body.goes r _ (o :: st))
    simpa [State.openChild] using ih.trans filled

namespace Grammar

theorem Within.inside (within : Within ts) : ∃ r o st, Inside r (o :: st) ts := by
  induction within with
  | root front names body => exact ⟨_, _, _, .root (.document front) names body⟩
  | child outside names name body ih =>
    obtain ⟨r, o, st, inside⟩ := ih
    exact ⟨_, _, _, .child inside names name body⟩

end Grammar

/-! Documents -/

theorem Grammar.Body.append {others : List Item} (first : Body items us)
    (second : Body others vs) : Body (items ++ others) (us ++ vs) := by
  induction items generalizing us with
  | nil =>
    cases first with
    | nil => exact second
  | cons item rest ih =>
    cases first with
    | cons statement body =>
      rw [List.append_assoc]
      exact .cons statement (ih body)

/-- Both ways to write a node lead to the same state. -/
theorem Inside.goes_node {others : List Item} (inside : Inside r (o :: st) ts)
    (names : List String) (name : String) (first : Body items us) (second : Body others vs) :
    ∃ s, State.Goes ⟨r, o :: st, .items⟩ (nodeTokens names name (us ++ vs)) s ∧
      State.Goes ⟨r, o :: st, .items⟩ (nodeTokens names name us ++ nodeTokens [] name vs) s := by
  obtain ⟨os, made⟩ := inside.madeOf
  have whole := (Body.cons (.node names name (first.append second)) .nil).goes r o st
  have parts := (Body.cons (.node names name first) (.cons (.node [] name second) .nil)).goes r o st
  rw [List.append_nil] at whole parts
  have same : o.addAll [.node names name (items ++ others)] =
      o.addAll [.node names name items, .node [] name others] :=
    Opening.add_node_append made names name items others
  rw [← same] at parts
  exact ⟨_, whole, parts⟩

/-- Both ways to write the root lead to the same state. -/
theorem Grammar.goes_root (parts : List Part) {others : List Item} (names : List String)
    (first : Body items us) (second : Body others vs) :
    ∃ s, State.Goes ⟨parts.foldl Part.addTo Node.root, [], .items⟩
        (rootTokens names (us ++ vs)) s ∧
      State.Goes ⟨parts.foldl Part.addTo Node.root, [], .items⟩
        (rootTokens names us ++ rootTokens [] vs) s := by
  have root : ∀ {items : List Item} {ts : List Token} (names : List String), Body items ts →
      Document [.root names items] (rootTokens names ts) := by
    intro items ts names body
    simpa [rootTokens] using Document.root names body .nil
  have whole := (root names (first.append second)).goes (parts.foldl Part.addTo Node.root)
  have halves := ((root names first).concat (root [] second)).goes
    (parts.foldl Part.addTo Node.root)
  have made := madeOf_treeOf parts
  have same : [Part.root names (items ++ others)].foldl Part.addTo
        (parts.foldl Part.addTo Node.root) =
      ([Part.root names items] ++ [Part.root [] others]).foldl Part.addTo
        (parts.foldl Part.addTo Node.root) :=
    Part.addTo_root_append made.root made.path names items others
  rw [← same] at halves
  exact ⟨_, whole, halves⟩

/-- Both sources lead to the same states, whatever follows the node. -/
theorem Grammar.Split.goes_iff (split : Split ts us) :
    State.start.Goes ts s ↔ State.start.Goes us s := by
  cases split with
  | node place names name first second behind =>
    obtain ⟨r, o, st, inside⟩ := place.inside
    obtain ⟨middle, whole, halves⟩ := inside.goes_node names name first second
    rw [inside.goes.append_iff, inside.goes.append_iff, whole.append_iff, halves.append_iff]
  | root place names first second behind =>
    obtain ⟨middle, whole, halves⟩ := goes_root _ names first second
    have front := place.goes Node.root
    rw [State.start, front.append_iff, front.append_iff, whole.append_iff, halves.append_iff]

theorem parse_ok_iff_of_read {source other : String} {tokens others : List Placed}
    (read : Token.read source = .ok tokens) (also : Token.read other = .ok others)
    (split : Split (tokens.map (·.token)) (others.map (·.token))) (tree : Devicetree) :
    parse source = .ok tree ↔ parse other = .ok tree := by
  simp only [parse, read, also, ofTokens_ok_iff_goes, split.goes_iff]

/-- Text that closes a node and opens it again does not change the tree. -/
theorem Cut.parse_ok_iff {source : String} {t : Token} {head tail target : List Char}
    (cut : Cut source ts us head tail) (reads : t.Reads target)
    (split : Split (ts ++ us) (ts ++ [.closeBrace, .semicolon, t, .openBrace] ++ us))
    (tree : Devicetree) :
    parse source = .ok tree ↔
      parse (String.ofList (head ++ reopening target ++ tail)) = .ok tree := by
  obtain ⟨tokens, read, whole⟩ := lexed_iff_read.mp cut.lexed
  have opened := cut.reopen reads
  rw [← String.toList_ofList (l := head ++ reopening target ++ tail)] at opened
  obtain ⟨others, also, parts⟩ := lexed_iff_read.mp opened
  exact parse_ok_iff_of_read read also (by rwa [whole, parts]) tree

/-- A node may be opened in two parts wherever it may be opened at once, and the tree is the same.
Neither the places of the tokens matter nor what follows the node. -/
theorem parse_ok_iff_of_split :
    (∀ (source other : String) (tokens others : List Placed),
      Token.read source = .ok tokens → Token.read other = .ok others →
      Split (tokens.map (·.token)) (others.map (·.token)) → ∀ tree,
        parse source = .ok tree ↔ parse other = .ok tree) ∧
    (∀ (source : String) (before us vs behind : List Token) (names : List String) (name : String)
      (items others : List Item) (head tail : List Char),
      Within before → Body items us → Body others vs →
      Cut source (before ++ (labels names ++ .word name :: .openBrace :: us))
        (vs ++ .closeBrace :: .semicolon :: behind) head tail → ∀ tree,
          parse source = .ok tree ↔
            parse (String.ofList (head ++ reopening name.toList ++ tail)) = .ok tree) ∧
    (∀ (source : String) (parts : List Part) (before us vs behind : List Token)
      (names : List String) (items others : List Item) (head tail : List Char),
      Document parts before → Body items us → Body others vs →
      Cut source (before ++ (labels names ++ .slash :: .openBrace :: us))
        (vs ++ .closeBrace :: .semicolon :: behind) head tail → ∀ tree,
          parse source = .ok tree ↔
            parse (String.ofList (head ++ reopening ['/'] ++ tail)) = .ok tree) ∧
    (∀ (source : String) (tokens : List Placed) (ts us : List Token),
      Token.read source = .ok tokens → tokens.map (·.token) = ts ++ us →
        ∃ head tail, Cut source ts us head tail) ∧
    (∀ (n a b : Node) (os more last : List Occurrence), n.MadeOf os → a.MadeOf more →
      b.MadeOf last → n.path = a.path → a.path = b.path →
        (n.merge a).merge b = n.merge (a.merge b)) ∧
    ∀ (name path : String) (labels : List String) (front back : List Item),
      Item.addAll (.bare name path labels) (front ++ back) =
        (Item.addAll (.bare name path labels) front).merge
          (Item.addAll (.bare name path []) back) := by
  refine ⟨?_, ?_, ?_, ?_, ?_, Item.addAll_append⟩
  · intro source other tokens others read also split tree
    exact parse_ok_iff_of_read read also split tree
  · intro source before us vs behind names name items others head tail place first second cut
    have word : Token.isWord name := cut.front.isWord_of_mem (by simp)
    refine cut.parse_ok_iff (Token.reads_word word) ?_
    simpa [nodeTokens, labels] using Split.node place names name first second behind
  · intro source parts before us vs behind names items others head tail place first second cut
    refine cut.parse_ok_iff Token.reads_slash ?_
    simpa [rootTokens, labels] using Split.root place names first second behind
  · intro source tokens ts us read same
    exact exists_cut read same
  · intro n a b os more last left middle right path also
    exact Node.merge_assoc left middle right path also

/-- A root with a node that has a label and two flags. -/
def flagTree : Devicetree :=
  ⟨⟨"/", "/", [], [],
    [⟨"n", Node.childPath "/" "n", ["a"], [⟨"p", []⟩, ⟨"q", []⟩], []⟩]⟩⟩

theorem cut_flags :
    Cut "/\x7ba:n\x7bp;q;\x7d;\x7d;"
      ([.slash, .openBrace] ++ (labels ["a"] ++ .word "n" :: .openBrace :: [.word "p", .semicolon]))
      ([.word "q", .semicolon] ++ .closeBrace :: .semicolon :: [.closeBrace, .semicolon])
      "/\x7ba:n\x7bp;".toList "q;\x7d;\x7d;".toList := by
  constructor
  · rfl
  · refine .sign ?_ (.sign ?_ (@Lexed.token 'a' [':'] _ _ _ _ ?_ (.sign ?_ (.sign ?_
      (.sign ?_ (.sign ?_ (.nil _)))))))
    all_goals decide
  · refine .sign ?_ (.sign ?_ (.sign ?_ (.sign ?_ (.sign ?_ (.sign ?_ (.nil _))))))
    all_goals decide

theorem parse_flags : parse "/\x7ba:n\x7bp;q;\x7d;\x7d;" = .ok flagTree := by
  obtain ⟨tokens, read, whole⟩ := lexed_iff_read.mp cut_flags.lexed
  rw [parse, read]
  refine ofTokens_ok_iff_goes.mpr ⟨⟨flagTree.root, [], .items⟩, ?_, rfl⟩
  rw [whole]
  rfl

theorem parse_ok_iff_of_split_flags :
    parse "/\x7ba:n\x7bp;q;\x7d;\x7d;" = .ok flagTree ∧
      parse "/\x7ba:n\x7bp;\n\x7d; n \x7bq;\x7d;\x7d;" = .ok flagTree := by
  have place : Within [.slash, .openBrace] := .root .nil [] .nil
  have flag : ∀ name, Body [.property name []] [.word name, .semicolon] :=
    fun name => .cons (.flag [] name) .nil
  have same := parse_ok_iff_of_split.2.1 _ _ _ _ _ ["a"] "n" _ _ _ _ place (flag "p") (flag "q")
    cut_flags flagTree
  exact ⟨parse_flags, same.mp parse_flags⟩
end FirmwareMeta.Devicetree
