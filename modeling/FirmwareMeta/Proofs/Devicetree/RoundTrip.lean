import FirmwareMeta.Devicetree.Parser
import FirmwareMeta.Proofs.Devicetree.Completeness
import FirmwareMeta.Proofs.Devicetree.Lexing
import FirmwareMeta.Proofs.Devicetree.Writing

/-! A tree that can be written is read back from its source: its tokens can be spelled out, so they
are read again, and they are a document that means the tree. -/
namespace FirmwareMeta.Devicetree

/-! What can be spelled out -/

def Symbol.spellable : Symbol → Bool
  | .token t => t.spellable
  | .number _ | .byte _ => true

theorem Symbol.spellable_write (style : Style) {s : Symbol} (spellable : s.spellable) :
    (s.write style).spellable := by
  cases s with
  | token t => exact spellable
  | number value => exact style.isWord_number value
  | byte value => exact style.isWord_byte value

theorem Symbol.spellable_writeAll {style : Nat → Style} {symbols : List Symbol}
    (spellable : symbols.all Symbol.spellable) : ∀ t ∈ writeAll style symbols, t.spellable := by
  intro t mem
  obtain ⟨i, inside, rfl⟩ := List.mem_mapIdx.mp mem
  exact spellable_write _ (List.all_eq_true.mp spellable _ (List.getElem_mem inside))

theorem Cell.spellable_symbol (c : Cell) : c.symbol.spellable = c.wellFormed := by
  cases c <;> rfl

theorem Value.spellable_symbols (v : Value) :
    v.symbols.all Symbol.spellable = v.wellFormed := by
  cases v with
  | text value => rfl
  | reference target => exact Bool.and_true _
  | cells list =>
    have inside : Symbol.spellable ∘ Cell.symbol = Cell.wellFormed :=
      funext Cell.spellable_symbol
    simp [symbols, wellFormed, Symbol.spellable, Token.spellable, inside]
  | bytes list => simp [symbols, wellFormed, Symbol.spellable, Token.spellable]

theorem Value.spellable_allSymbols (vs : List Value) :
    (allSymbols vs).all Symbol.spellable = vs.all Value.wellFormed := by
  induction vs with
  | nil => rfl
  | cons v rest ih =>
    cases rest with
    | nil => simp [allSymbols, v.spellable_symbols]
    | cons => simp_all [allSymbols, v.spellable_symbols, Symbol.spellable, Token.spellable]

theorem Property.spellable_symbols (p : Property) :
    p.symbols.all Symbol.spellable = p.wellFormed := by
  rw [symbols, wellFormed, ← Value.spellable_allSymbols]
  split
  · rename_i none_there
    simp [List.isEmpty_iff.mp none_there, Value.allSymbols, Symbol.spellable, Token.spellable]
  · simp [Symbol.spellable, Token.spellable]

theorem Node.symbols_eq (n : Node) : n.symbols =
    .token .openBrace :: n.properties.flatMap Property.symbols ++
      childSymbols n.children ++ [.token .closeBrace, .token .semicolon] := by
  cases n
  rw [symbols]

theorem Node.spellable_childSymbols {cs : List Node} (names : ∀ c ∈ cs, Token.isWord c.name)
    (labels : ∀ c ∈ cs, ∀ l ∈ c.labels, Token.isIdentifier l)
    (inside : ∀ c ∈ cs, c.symbols.all Symbol.spellable) :
    (childSymbols cs).all Symbol.spellable := by
  induction cs with
  | nil =>
    rw [childSymbols]
    rfl
  | cons c rest ih =>
    rw [List.forall_mem_cons] at names labels inside
    have more := ih names.2 labels.2 inside.2
    rw [childSymbols]
    simp_all [Symbol.spellable, Token.spellable]

theorem Node.WellFormed.spellable_symbols {n : Node} (formed : n.WellFormed) :
    n.symbols.all Symbol.spellable := by
  induction formed with
  | @intro n _ properties _ names _ children ih =>
    have labels : ∀ c ∈ n.children, ∀ l ∈ c.labels, Token.isIdentifier l := by
      intro c mem
      cases children c mem with
      | intro labels => exact labels
    have below := Node.spellable_childSymbols names labels ih
    have own : (n.properties.flatMap Property.symbols).all Symbol.spellable := by
      rw [List.all_flatMap, List.all_eq_true]
      intro p mem
      rw [p.spellable_symbols]
      exact properties p mem
    rw [Node.symbols_eq]
    simp [Symbol.spellable, Token.spellable, below, own]

theorem WellFormed.spellable_symbols {tree : Devicetree} (formed : tree.WellFormed) :
    (symbols tree).all Symbol.spellable := by
  have labels : ∀ l ∈ tree.root.labels, Token.isIdentifier l := by
    cases formed.root with
    | intro labels => exact labels
  have inside := formed.root.spellable_symbols
  rw [symbols]
  simp_all [Symbol.spellable, Token.spellable]

/-- A well-formed tree is what its source is read as, in whatever styles its numbers are written. -/
theorem parse_print_tree (style : Nat → Style) {tree : Devicetree} (formed : tree.WellFormed) :
    parse (print style tree) = .ok tree := by
  have spellable : ∀ t ∈ Symbol.writeAll style (symbols tree), t.spellable :=
    Symbol.spellable_writeAll formed.spellable_symbols
  obtain ⟨placed, read, tokens⟩ := Token.read_spellAll spellable
  have document : Grammar.Document [part tree] (placed.map Placed.token) := by
    rw [tokens]
    exact document_symbols tree style
  have same : treeOf [part tree] = tree := (madeOf_treeOf _).unique formed.madeOf
  rw [print, parse, read]
  dsimp only
  rw [ofTokens_of_document document, same]

/-- A labelled node below the root, and a value of each kind. -/
def memoryTree : Devicetree where
  root := {
    name := "/", path := "/", labels := ["top"]
    properties := [⟨"model", [.text "a \x22b\x22 \\n", .reference "/soc,0"]⟩, ⟨"read-only", []⟩]
    children := [{
      name := "rram@0", path := "/rram@0", labels := ["a", "a"]
      properties := [
        ⟨"reg", [.cells [.number 10, .number 0xffffffffffffffff, .reference "a"], .cells []]⟩,
        ⟨"mac", [.bytes [0x0a, 0xff]]⟩]
      children := [.bare "0" "/rram@0/0" []] }] }

def memoryStyle (i : Nat) : Style := ⟨i % 2 = 0, i % 4, i % 3 = 0⟩

def memorySource : String :=
  "top: / \x7b model = \x22a \\\x22b\\\x22 \\\\n\x22 , &\x7b/soc,0\x7d ; read-only ; " ++
    "a: a: rram@0 \x7b reg = < 0x0A 18446744073709551615 &\x7ba\x7d > , < > ; " ++
    "mac = [ 0a FF ] ; 0 \x7b \x7d ; \x7d ; \x7d ;"

theorem wellFormed_memoryTree : memoryTree.WellFormed := by
  refine ⟨rfl, rfl, by decide, ?_⟩
  refine .intro (by decide) (by decide) (by decide) (by decide) (by decide) ?_
  intro memory mem
  obtain rfl := List.mem_singleton.mp mem
  refine .intro (by decide) (by decide) (by decide) (by decide) (by decide) ?_
  intro leaf mem
  obtain rfl := List.mem_singleton.mp mem
  constructor <;> simp [Node.bare]

theorem parse_print_tree_memory : memoryTree.WellFormed ∧
    print memoryStyle memoryTree = memorySource ∧ parse memorySource = .ok memoryTree := by
  have printed : print memoryStyle memoryTree = memorySource := by decide +kernel
  refine ⟨wellFormed_memoryTree, printed, ?_⟩
  rw [← printed]
  exact parse_print_tree memoryStyle wellFormed_memoryTree

end FirmwareMeta.Devicetree
