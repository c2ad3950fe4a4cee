import FirmwareMeta.Devicetree.Literal
import FirmwareMeta.Devicetree.Token

/-!
The grammar of devicetree source: what items a document is made of, which tokens an item may be
written with, and the tree that items mean. The parser is not mentioned here.
-/
namespace FirmwareMeta.Devicetree

/-- What may stand between the braces of a node. -/
inductive Item where
  | directive
  /-- A property; one without values is a name alone. -/
  | property (name : String) (values : List Value)
  /-- An opening of a child. -/
  | node (labels : List String) (name : String) (items : List Item)

/-- What a document consists of. -/
inductive Part where
  | directive
  /-- An opening of the root. -/
  | root (labels : List String) (items : List Item)

namespace Grammar

/-- Labels, each with a colon of its own. -/
def labels (names : List String) : List Token := names.map Token.label

/-- A directive goes on to the next semicolon. -/
inductive Directive : List Token → Prop where
  | intro (inside : Token.semicolon ∉ tokens) :
      Directive (.directive :: tokens ++ [.semicolon])

/-- What stands between angle brackets. -/
inductive Cells : List Cell → List Token → Prop where
  | nil : Cells [] []
  | label (name : String) (rest : Cells cells tokens) : Cells cells (.label name :: tokens)
  | reference (target : String) (rest : Cells cells tokens) :
      Cells (.reference target :: cells) (.reference target :: tokens)
  | word (number : Cell.ofWord? word = some cell) (rest : Cells cells tokens) :
      Cells (cell :: cells) (.word word :: tokens)

/-- Pairs of characters, each the numeral of a byte. -/
inductive Pairs : List UInt8 → List Char → Prop where
  | nil : Pairs [] []
  | cons (pair : Numeral.read? 16 256 [high, low] = some byte) (rest : Pairs bytes text) :
      Pairs (.ofNat byte :: bytes) (high :: low :: text)

/-- What stands between square brackets. -/
inductive Bytes : List UInt8 → List Token → Prop where
  | nil : Bytes [] []
  | word (pairs : Pairs first word.toList) (rest : Bytes bytes tokens) :
      Bytes (first ++ bytes) (.word word :: tokens)

inductive Single : Value → List Token → Prop where
  | text (value : String) : Single (.text value) [.text value]
  | reference (target : String) : Single (.reference target) [.reference target]
  | cells (inside : Cells list tokens) :
      Single (.cells list) (.openAngle :: tokens ++ [.closeAngle])
  | bytes (inside : Bytes list tokens) :
      Single (.bytes list) (.openBracket :: tokens ++ [.closeBracket])

/-- A value with labels around it. -/
inductive Labelled : Value → List Token → Prop where
  | intro (before behind : List String) (value : Single v tokens) :
      Labelled v (labels before ++ tokens ++ labels behind)

/-- Values with commas between them, at least one. -/
inductive Values : List Value → List Token → Prop where
  | one (value : Labelled v tokens) : Values [v] tokens
  | more (value : Labelled v tokens) (rest : Values vs following) :
      Values (v :: vs) (tokens ++ .comma :: following)

mutual

inductive Statement : Item → List Token → Prop where
  | directive (tokens : Directive ts) : Statement .directive ts
  | flag (ls : List String) (name : String) :
      Statement (.property name []) (labels ls ++ [.word name, .semicolon])
  | property (ls : List String) (name : String) (values : Values vs ts) :
      Statement (.property name vs)
        (labels ls ++ .word name :: .equals :: ts ++ [.semicolon])
  | node (ls : List String) (name : String) (body : Body items ts) :
      Statement (.node ls name items)
        (labels ls ++ .word name :: .openBrace :: ts ++ [.closeBrace, .semicolon])

inductive Body : List Item → List Token → Prop where
  | nil : Body [] []
  | cons (first : Statement item ts) (rest : Body items following) :
      Body (item :: items) (ts ++ following)

end

/-- A document is a sequence of directives and openings of the root. -/
inductive Document : List Part → List Token → Prop where
  | nil : Document [] []
  | directive (tokens : Directive ts) (rest : Document parts following) :
      Document (.directive :: parts) (ts ++ following)
  | root (ls : List String) (body : Body items ts) (rest : Document parts following) :
      Document (.root ls items :: parts)
        (labels ls ++ .slash :: .openBrace :: ts ++ .closeBrace :: .semicolon :: following)

end Grammar

mutual

/-- A node with what an item adds to it. -/
def Item.addTo (n : Node) : Item → Node
  | .directive => n
  | .property name values => { n with properties := n.properties ++ [⟨name, values⟩] }
  | .node labels name items =>
    let child := Item.addAll (.bare name (Node.childPath n.path name) labels) items
    { n with children := Node.insert n.children child }

def Item.addAll (n : Node) : List Item → Node
  | [] => n
  | item :: rest => Item.addAll (item.addTo n) rest

end

/-- The root with what a part of a document adds to it. -/
def Part.addTo (root : Node) : Part → Node
  | .directive => root
  | .root labels items => root.merge (Item.addAll (.bare "/" "/" labels) items)

/-- The tree that a document means. -/
def treeOf (parts : List Part) : Devicetree :=
  ⟨parts.foldl Part.addTo Node.root⟩

end FirmwareMeta.Devicetree
