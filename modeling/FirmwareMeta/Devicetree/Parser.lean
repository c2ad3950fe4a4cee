import FirmwareMeta.Devicetree.Literal
import FirmwareMeta.Devicetree.Token

/-!
Devicetrees from tokens. The parser is a machine with a stack: it holds what the closed openings
of the root have built, the nodes that are still open, and what it is in the middle of. Every
token either takes it on or is refused, so the first refused token is where a fault lies.
-/
namespace FirmwareMeta.Devicetree

/-- A node whose closing brace is still to come; properties the latest first. -/
structure Opening where
  name : String
  path : String
  labels : List String
  properties : List Property
  children : List Node

namespace Opening

def start (name path : String) (labels : List String) : Opening :=
  ⟨name, path, labels, [], []⟩

def close (o : Opening) : Node :=
  ⟨o.name, o.path, o.labels, o.properties.reverse, o.children⟩

def addProperty (o : Opening) (p : Property) : Opening :=
  { o with properties := p :: o.properties }

def addChild (o : Opening) (child : Node) : Opening :=
  { o with children := Node.insert o.children child }

end Opening

/-- A property whose end is still to come; values the latest first. -/
structure Definition where
  name : String
  values : List Value

namespace Definition

def add (d : Definition) (v : Value) : Definition :=
  { d with values := v :: d.values }

def property (d : Definition) : Property := ⟨d.name, d.values.reverse⟩

end Definition

/-- What a parser is in the middle of. Labels and items of lists are kept the latest first. -/
inductive Mode where
  /-- Between the items of the innermost open node, or of the document. -/
  | items
  | directive
  | rootLabels (labels : List String)
  | rootOpening (labels : List String)
  | itemLabels (labels : List String)
  | named (labels : List String) (name : String)
  | value (definition : Definition)
  | valueEnd (definition : Definition)
  | cells (definition : Definition) (list : List Cell)
  | bytes (definition : Definition) (list : List UInt8)
  /-- Behind the closing brace of the innermost open node. -/
  | closing

structure State where
  root : Node
  /-- Open nodes, the innermost first. -/
  stack : List Opening
  mode : Mode

namespace State

def start : State := ⟨Node.root, [], .items⟩

/-- The cause to give where the parser cannot go on. -/
def refusal (s : State) : Cause :=
  match s.mode with
  | .items => .expected (if s.stack.isEmpty then .directiveOrRoot else .item)
  | .directive => .unterminatedDirective
  | .rootLabels _ => .expected .rootSlash
  | .rootOpening _ => .expected .nodeOpening
  | .itemLabels _ => .expected .itemName
  | .named .. => .expected .definition
  | .value _ => .expected .value
  | .valueEnd _ => .expected .valueEnd
  | .cells .. => .expected .cell
  | .bytes .. => .expected .byte
  | .closing => .expected .statementEnd

/-- Changes the innermost open node. -/
def update (s : State) (f : Opening → Opening) : State :=
  match s.stack with
  | [] => s
  | o :: outer => { s with stack := f o :: outer }

def goTo (s : State) (mode : Mode) : State := { s with mode }

/-- Adds a property to the innermost open node. -/
def define (s : State) (p : Property) : State :=
  (s.update (·.addProperty p)).goTo .items

/-- Opens a child of the innermost open node. -/
def openChild (s : State) (labels : List String) (name : String) : State :=
  let parent := match s.stack with
    | [] => "/"
    | o :: _ => o.path
  { s with
    stack := .start name (Node.childPath parent name) labels.reverse :: s.stack
    mode := .items }

/-- Closes the innermost open node. -/
def close (s : State) : State :=
  match s.stack with
  | [] => s.goTo .items
  | [o] => ⟨s.root.merge o.close, [], .items⟩
  | o :: parent :: outer => ⟨s.root, parent.addChild o.close :: outer, .items⟩

/-- What a token between items does. The document has openings of the root for items. -/
def item (s : State) (t : Token) : Except Cause State :=
  match s.stack, t with
  | _, .directive => .ok (s.goTo .directive)
  | [], .label l => .ok (s.goTo (.rootLabels [l]))
  | [], .slash => .ok (s.goTo (.rootOpening []))
  | _ :: _, .label l => .ok (s.goTo (.itemLabels [l]))
  | _ :: _, .word name => .ok (s.goTo (.named [] name))
  | _ :: _, .closeBrace => .ok (s.goTo .closing)
  | _, _ => .error s.refusal

/-- What one token does. Labels at a value and in cells carry no information. -/
def step (s : State) (t : Token) : Except Cause State :=
  match s.mode, t with
  | .items, t => s.item t
  | .directive, .semicolon => .ok (s.goTo .items)
  | .directive, _ => .ok s
  | .rootLabels ls, .label l => .ok (s.goTo (.rootLabels (l :: ls)))
  | .rootLabels ls, .slash => .ok (s.goTo (.rootOpening ls))
  | .rootOpening ls, .openBrace =>
    .ok { s with stack := [.start "/" "/" ls.reverse], mode := .items }
  | .itemLabels ls, .label l => .ok (s.goTo (.itemLabels (l :: ls)))
  | .itemLabels ls, .word name => .ok (s.goTo (.named ls name))
  | .named ls name, .openBrace => .ok (s.openChild ls name)
  | .named _ name, .semicolon => .ok (s.define ⟨name, []⟩)
  | .named _ name, .equals => .ok (s.goTo (.value ⟨name, []⟩))
  | .value _, .label _ => .ok s
  | .value d, .text value => .ok (s.goTo (.valueEnd (d.add (.text value))))
  | .value d, .reference target => .ok (s.goTo (.valueEnd (d.add (.reference target))))
  | .value d, .openAngle => .ok (s.goTo (.cells d []))
  | .value d, .openBracket => .ok (s.goTo (.bytes d []))
  | .valueEnd _, .label _ => .ok s
  | .valueEnd d, .comma => .ok (s.goTo (.value d))
  | .valueEnd d, .semicolon => .ok (s.define d.property)
  | .cells _ _, .label _ => .ok s
  | .cells d list, .closeAngle => .ok (s.goTo (.valueEnd (d.add (.cells list.reverse))))
  | .cells d list, .reference target => .ok (s.goTo (.cells d (.reference target :: list)))
  | .cells d list, .word word =>
    match Cell.ofWord? word with
    | some cell => .ok (s.goTo (.cells d (cell :: list)))
    | none => .error (.invalidCell word)
  | .bytes d list, .closeBracket => .ok (s.goTo (.valueEnd (d.add (.bytes list.reverse))))
  | .bytes d list, .word word =>
    match Value.bytesOfWord word with
    | .ok bytes => .ok (s.goTo (.bytes d (bytes.reverse ++ list)))
    | .error cause => .error cause
  | .closing, .semicolon => .ok s.close
  | _, _ => .error s.refusal

/-- The tree, where the source may end. -/
def finish (s : State) : Except Cause Devicetree :=
  match s.mode, s.stack with
  | .items, [] => .ok ⟨s.root⟩
  | _, _ => .error s.refusal

/-- What tokens do, one after the other. -/
def run (s : State) : List Placed → Except Fault State
  | [] => .ok s
  | t :: rest =>
    match s.step t.token with
    | .ok s => run s rest
    | .error cause => .error ⟨t.offset, cause⟩

end State

/-- The devicetree of placed tokens in a source of so many bytes. -/
def ofTokens (length : Nat) (tokens : List Placed) : Except Fault Devicetree :=
  match State.start.run tokens with
  | .error fault => .error fault
  | .ok s =>
    match s.finish with
    | .ok tree => .ok tree
    | .error cause => .error ⟨length, cause⟩

def parse (source : String) : Except Fault Devicetree :=
  match Token.read source with
  | .error fault => .error fault
  | .ok tokens => ofTokens source.utf8ByteSize tokens

end FirmwareMeta.Devicetree
