import FirmwareMeta.Proofs.Devicetree.Borders
import FirmwareMeta.Proofs.Devicetree.Openings
import FirmwareMeta.Proofs.Devicetree.Preorder
import Mathlib.Data.List.Induction

/-! The paths of a tree that is read. Names are words of the source, so a path says which names lead
to a node; siblings differ by name, so the same names never lead to two nodes. -/
namespace FirmwareMeta.Devicetree

open Grammar

variable {item : Item} {items : List Item} {parts : List Part} {ts us : List Token}
  {o : Occurrence} {os : List Occurrence} {name : String} {names ws vs : List String} {n : Node}

/-! Names come from the source -/

theorem Grammar.Body.exists_statement (body : Body items ts) (mem : item ∈ items) :
    ∃ us, Statement item us ∧ us ⊆ ts := by
  induction items generalizing ts with
  | nil => contradiction
  | cons first rest ih =>
    cases body with
    | cons statement others =>
      rcases List.mem_cons.mp mem with rfl | behind
      · exact ⟨_, statement, List.subset_append_left _ _⟩
      · obtain ⟨us, found, inside⟩ := ih others behind
        exact ⟨us, found, List.subset_append_of_subset_right _ inside⟩

theorem Grammar.Document.exists_body (document : Document parts ts)
    (mem : .root names items ∈ parts) : ∃ us, Body items us ∧ us ⊆ ts := by
  induction document with
  | nil => contradiction
  | directive _ _ ih =>
    rcases List.mem_cons.mp mem with same | behind
    · contradiction
    · obtain ⟨us, body, inside⟩ := ih behind
      exact ⟨us, body, List.subset_append_of_subset_right _ inside⟩
  | root ls body _ ih =>
    rcases List.mem_cons.mp mem with same | behind
    · cases same
      refine ⟨_, body, fun t inside => ?_⟩
      simp [inside]
    · obtain ⟨us, own, inside⟩ := ih behind
      refine ⟨us, own, fun t mem => ?_⟩
      simp [inside mem]

/-- What stands in an opening is written with some tokens. -/
def Occurrence.WrittenIn (ts : List Token) (o : Occurrence) : Prop :=
  ∃ us, Body o.items us ∧ us ⊆ ts

theorem Occurrence.WrittenIn.node (written : o.WrittenIn ts) (mem : .node names name items ∈ o.items) :
    .word name ∈ ts ∧ WrittenIn ts ⟨names, items⟩ := by
  obtain ⟨us, body, inside⟩ := written
  obtain ⟨vs, statement, within⟩ := body.exists_statement mem
  cases statement with
  | node ls name own =>
    refine ⟨inside (within (by simp)), _, own, fun t mem => inside (within ?_)⟩
    simp [mem]

theorem forall_openingsOf_writtenIn (written : ∀ o ∈ os, o.WrittenIn ts) (name : String) :
    ∀ o ∈ openingsOf os name, o.WrittenIn ts := by
  intro o mem
  obtain ⟨item, inside, opened⟩ := List.mem_filterMap.mp mem
  obtain ⟨outer, listed, own⟩ := List.mem_flatMap.mp inside
  cases item with
  | node labels name items =>
    rw [Item.opening?] at opened
    split at opened
    · cases opened
      exact ((written outer listed).node own).2
    · contradiction
  | _ => contradiction

theorem word_mem_of_childName (written : ∀ o ∈ os, o.WrittenIn ts)
    (mem : name ∈ (os.flatMap (·.items)).filterMap Item.childName?) : .word name ∈ ts := by
  obtain ⟨item, inside, named⟩ := List.mem_filterMap.mp mem
  obtain ⟨o, listed, mem⟩ := List.mem_flatMap.mp inside
  cases item with
  | node labels own items =>
    cases named
    exact ((written o listed).node mem).1
  | _ => contradiction

/-- Children are told apart by their names, which are words, and are found below their parent. -/
structure Node.NamesChildren (n : Node) : Prop where
  distinct : (n.children.map (·.name)).Nodup
  words : ∀ c ∈ n.children, Token.isWord c.name
  paths : ∀ c ∈ n.children, c.path = Node.childPath n.path c.name

theorem Node.MadeOf.namesChildren (made : n.MadeOf os) (written : ∀ o ∈ os, o.WrittenIn ts)
    (words : ∀ name, .word name ∈ ts → Token.isWord name) : n.NamesChildren := by
  cases made with
  | intro inside _ _ names paths _ =>
    subst inside
    refine ⟨names ▸ nodup_eraseDups _, fun c mem => words _ ?_, paths⟩
    have named : c.name ∈ n.children.map (·.name) := List.mem_map_of_mem mem
    rw [names, List.mem_eraseDups] at named
    exact word_mem_of_childName written named

/-- Openings written in the source are passed on to the children. -/
theorem MadeOf.forall_namesChildren {tree : Devicetree} (made : tree.MadeOf parts)
    (document : Document parts ts) (words : ∀ name, .word name ∈ ts → Token.isWord name) :
    ∀ n ∈ tree.nodes, n.NamesChildren := by
  have written : ∀ o ∈ (⟨[], []⟩ :: parts.filterMap Part.opening? : List Occurrence),
      o.WrittenIn ts := by
    rw [List.forall_mem_cons]
    refine ⟨⟨[], .nil, List.nil_subset _⟩, fun o mem => ?_⟩
    obtain ⟨part, listed, opened⟩ := List.mem_filterMap.mp mem
    cases part with
    | directive => contradiction
    | root labels items =>
      cases opened
      exact document.exists_body listed
  have passed : ∀ n ∈ tree.nodes, ∃ os, n.MadeOf os ∧ ∀ o ∈ os, o.WrittenIn ts := by
    refine Node.forall_listing ?_ (List.forall_mem_singleton.mpr ⟨_, made.root, written⟩)
    rintro n ⟨os, own, written⟩ c mem
    exact ⟨_, (own.child mem).2, forall_openingsOf_writtenIn written c.name⟩
  intro n mem
  obtain ⟨os, own, written⟩ := passed n mem
  exact own.namesChildren written words

/-! Paths as ways from the root -/

theorem Token.isWord_spec (word : isWord name) : name.toList ≠ [] ∧ '/' ∉ name.toList := by
  rw [isWord] at word
  split at word
  · rename_i c rest letters
    obtain ⟨start, inside⟩ := Bool.and_eq_true_iff.mp word
    rw [letters]
    refine ⟨List.cons_ne_nil _ _, ?_⟩
    rw [List.mem_cons, not_or]
    constructor
    · rintro rfl
      contradiction
    · intro mem
      have slash := List.all_eq_true.mp inside _ mem
      contradiction
  · contradiction

/-- Names that lead to a node, each behind a slash. -/
def spellWay (ws : List String) : List Char := ws.flatMap fun w => '/' :: w.toList

theorem spellWay_ne_slash (words : ∀ w ∈ ws, Token.isWord w) : spellWay ws ≠ ['/'] := by
  cases ws with
  | nil => simp [spellWay]
  | cons w rest =>
    have filled := (Token.isWord_spec (words w List.mem_cons_self)).1
    simp [spellWay, filled]

/-- The path of a node below the root is its names. -/
theorem toList_pathAt (words : ∀ w ∈ ws, Token.isWord w) (below : ws ≠ []) :
    (pathAt ws).toList = spellWay ws := by
  induction ws using List.reverseRecOn with
  | nil => contradiction
  | append_singleton ws name ih =>
    rw [List.forall_mem_append] at words
    rw [pathAt_concat, Node.childPath, spellWay, List.flatMap_append, List.flatMap_singleton]
    by_cases top : ws = []
    · simp [top, pathAt]
    · have front := ih words.1 top
      have long : pathAt ws ≠ "/" := by
        intro root
        rw [root] at front
        exact spellWay_ne_slash words.1 front.symm
      rw [if_neg long, String.toList_append, String.toList_append, front, spellWay]
      simp

theorem pathAt_eq_root_iff (words : ∀ w ∈ ws, Token.isWord w) : pathAt ws = "/" ↔ ws = [] := by
  constructor
  · intro root
    by_contra below
    have spelled := toList_pathAt words below
    rw [root] at spelled
    exact spellWay_ne_slash words spelled.symm
  · rintro rfl
    rfl

theorem splitOn_spellWay (words : ∀ w ∈ ws, Token.isWord w) :
    (spellWay ws).splitOn '/' = [] :: ws.map String.toList := by
  have joined : ∀ first : List Char,
      ['/'].intercalate (first :: ws.map String.toList) = first ++ spellWay ws := by
    clear words
    induction ws with
    | nil => simp [spellWay]
    | cons w rest ih =>
      intro first
      rw [List.map_cons, List.intercalate_cons_cons, ih]
      simp [spellWay]
  rw [← List.nil_append (spellWay ws), ← joined, List.splitOn_intercalate]
  · refine List.forall_mem_cons.mpr ⟨List.not_mem_nil, ?_⟩
    exact List.forall_mem_map.mpr fun w mem => (Token.isWord_spec (words w mem)).2
  · exact List.cons_ne_nil _ _

/-- A path says which names lead to it. -/
theorem pathAt_injective (words : ∀ w ∈ ws, Token.isWord w) (also : ∀ w ∈ vs, Token.isWord w)
    (same : pathAt ws = pathAt vs) : ws = vs := by
  by_cases top : ws = []
  · subst top
    exact ((pathAt_eq_root_iff also).mp same.symm).symm
  have below : vs ≠ [] := by
    rintro rfl
    exact top ((pathAt_eq_root_iff words).mp same)
  have spelled : spellWay ws = spellWay vs := by
    rw [← toList_pathAt words top, ← toList_pathAt also below, same]
  have pieces := splitOn_spellWay words
  rw [spelled, splitOn_spellWay also] at pieces
  have letters := (List.cons.inj pieces).2
  exact List.map_injective_iff.mpr (fun _ _ => String.toList_injective) letters.symm

/-! Ways through a tree -/

/-- Nodes that are led to by names, in ways of a kind and never twice in the same one. -/
def Led (kind : List String → Prop) (nodes : List Node) : Prop :=
  ∃ ways : List (List String), nodes.map (·.path) = ways.map pathAt ∧ ways.Nodup ∧
    ∀ w ∈ ways, kind w ∧ ∀ name ∈ w, Token.isWord name

theorem Led.nodup {kind : List String → Prop} {nodes : List Node} (led : Led kind nodes) :
    (nodes.map (·.path)).Nodup := by
  obtain ⟨ways, paths, distinct, words⟩ := led
  rw [paths, List.Nodup, List.pairwise_map]
  refine distinct.imp_of_mem fun one other differ same => differ ?_
  exact pathAt_injective (words _ one).2 (words _ other).2 same

theorem Led.append {kind left right : List String → Prop} {a b : List Node} (first : Led left a)
    (second : Led right b) (apart : ∀ w, left w → ¬right w) (all : ∀ w, left w ∨ right w → kind w) :
    Led kind (a ++ b) := by
  obtain ⟨ways, paths, distinct, words⟩ := first
  obtain ⟨others, also, differ, more⟩ := second
  refine ⟨ways ++ others, by rw [List.map_append, List.map_append, paths, also], ?_, ?_⟩
  · refine List.nodup_append.mpr ⟨distinct, differ, fun w mem v inside same => ?_⟩
    exact apart w (words w mem).1 (same ▸ (more v inside).1)
  · intro w mem
    rcases List.mem_append.mp mem with mem | mem
    · exact ⟨all w (Or.inl (words w mem).1), (words w mem).2⟩
    · exact ⟨all w (Or.inr (more w mem).1), (more w mem).2⟩

/-- The way goes on below one of some children. -/
def Through (ws names : List String) (w : List String) : Prop :=
  ∃ name ∈ names, ∃ more, w = ws ++ name :: more

mutual

theorem Node.led_preorder (n : Node) : ∀ ws : List String, n.path = pathAt ws →
    (∀ w ∈ ws, Token.isWord w) → (∀ m ∈ n.preorder, m.NamesChildren) →
      Led (fun w => ∃ more, w = ws ++ more) n.preorder := by
  intro ws path words sound
  match n with
  | ⟨name, own, labels, properties, children⟩ =>
    rw [Node.preorder] at sound ⊢
    rw [List.forall_mem_cons] at sound
    have here : Led (· = ws) [⟨name, own, labels, properties, children⟩] :=
      ⟨[ws], by simp [← path], by simp, by simpa using words⟩
    have below := Node.led_preorderAll children ws (path ▸ sound.1.paths) words sound.1.distinct
      sound.1.words sound.2
    refine here.append below ?_ ?_
    · rintro w rfl ⟨name, -, more, longer⟩
      simp at longer
    · rintro w (rfl | ⟨name, -, more, rfl⟩)
      · exact ⟨[], by simp⟩
      · exact ⟨_, rfl⟩

theorem Node.led_preorderAll (cs : List Node) : ∀ ws : List String,
    (∀ c ∈ cs, c.path = Node.childPath (pathAt ws) c.name) → (∀ w ∈ ws, Token.isWord w) →
    (cs.map (·.name)).Nodup → (∀ c ∈ cs, Token.isWord c.name) →
    (∀ m ∈ Node.preorderAll cs, m.NamesChildren) →
      Led (Through ws (cs.map (·.name))) (Node.preorderAll cs) := by
  intro ws paths words distinct named sound
  match cs with
  | [] =>
    rw [Node.preorderAll]
    exact ⟨[], rfl, List.nodup_nil, by simp⟩
  | c :: rest =>
    rw [Node.preorderAll] at sound ⊢
    rw [List.forall_mem_append] at sound
    rw [List.forall_mem_cons] at paths named
    rw [List.map_cons, List.nodup_cons] at distinct
    have way : ∀ w ∈ ws ++ [c.name], Token.isWord w :=
      List.forall_mem_append.mpr ⟨words, List.forall_mem_singleton.mpr named.1⟩
    have first := Node.led_preorder c (ws ++ [c.name]) (by rw [pathAt_concat, paths.1]) way sound.1
    have others := Node.led_preorderAll rest ws paths.2 words distinct.2 named.2 sound.2
    refine first.append others ?_ ?_
    · -- The names behind those of the parent differ.
      rintro w ⟨more, rfl⟩ ⟨name, mem, behind, same⟩
      rw [List.append_assoc, List.append_cancel_left_eq] at same
      exact distinct.1 ((List.cons.inj same).1 ▸ mem)
    · rintro w (⟨more, rfl⟩ | ⟨name, mem, more, rfl⟩)
      · exact ⟨c.name, List.mem_cons_self, more, by simp⟩
      · exact ⟨name, List.mem_cons_of_mem _ mem, more, rfl⟩

end

/-! Trees that are read -/

theorem words_of_read {source : String} {placed : List Placed}
    (read : Token.read source = .ok placed) (name : String)
    (mem : .word name ∈ placed.map (·.token)) : Token.isWord name :=
  (lexed_iff_read.mpr ⟨placed, read, rfl⟩).isWord_of_mem mem

/-- A tree that is read: the root is called by its path, the path of any other node is that of its
parent and its name, siblings differ by name and all nodes by their paths, however often nodes are
opened again. -/
theorem paths_of_parse {source : String} {tree : Devicetree} (parsed : parse source = .ok tree) :
    tree.root.name = "/" ∧ tree.root.path = "/" ∧
    ∃ below, tree.nodes = tree.root :: below ∧
      (∀ c ∈ tree.root.children, c.path = "/" ++ c.name) ∧
      (∀ n ∈ below, ∀ c ∈ n.children, c.path = n.path ++ "/" ++ c.name) ∧
      (∀ n ∈ tree.nodes, (n.children.map (·.name)).Nodup ∧ ∀ c ∈ n.children, c ∈ tree.nodes) ∧
      (tree.nodes.map (·.path)).Nodup := by
  obtain ⟨tokens, parts, read, document, made⟩ := exists_document_of_parse parsed
  have sound : ∀ n ∈ tree.nodes, n.NamesChildren :=
    made.forall_namesChildren document (words_of_read read)
  have listed := nodes_eq_preorder tree
  have led := Node.led_preorder tree.root [] made.path (by simp) (listed ▸ sound)
  refine ⟨made.name, made.path, Node.preorderAll tree.root.children, ?_, ?_, ?_, ?_, ?_⟩
  · rw [listed, Node.preorder_eq]
  · intro c mem
    rw [listed, Node.preorder_eq, List.forall_mem_cons] at sound
    rw [sound.1.paths c mem, made.path]
    rfl
  · intro n mem c inside
    have distinct := led.nodup
    rw [Node.preorder_eq, List.map_cons, List.nodup_cons, made.path] at distinct
    have below : n.path ≠ "/" := fun root => distinct.1 (root ▸ List.mem_map_of_mem mem)
    rw [listed, Node.preorder_eq, List.forall_mem_cons] at sound
    rw [(sound.2 n mem).paths c inside, Node.childPath, if_neg below]
  · exact fun n mem => ⟨(sound n mem).distinct, Node.forall_children_mem_listing _ n mem⟩
  · exact listed ▸ led.nodup

/-- A source that opens the root and nodes below it again and again. -/
def reopenedSource : String :=
  "/ \x7b a \x7b b \x7b \x7d; \x7d; b \x7b \x7d; \x7d; " ++
    "/ \x7b a \x7b b \x7b a \x7b \x7d; \x7d; b \x7b \x7d; \x7d; \x7d;"

theorem paths_of_parse_reopened : ∃ tree, parse reopenedSource = .ok tree ∧
    tree.nodes.map (·.path) = ["/", "/a", "/a/b", "/a/b/a", "/b"] ∧
    (tree.nodes.map (·.path)).Nodup := by
  have paths : (parse reopenedSource).toOption.map (fun tree => tree.nodes.map (·.path)) =
      some ["/", "/a", "/a/b", "/a/b/a", "/b"] := by decide +kernel
  simp only [Option.map_eq_some_iff, toOption_eq_some_iff] at paths
  obtain ⟨tree, parsed, paths⟩ := paths
  obtain ⟨-, -, below, -, -, -, -, distinct⟩ := paths_of_parse parsed
  exact ⟨tree, parsed, paths, distinct⟩

end FirmwareMeta.Devicetree
