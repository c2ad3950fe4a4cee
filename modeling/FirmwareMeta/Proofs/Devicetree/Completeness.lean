import FirmwareMeta.Devicetree.Grammar
import FirmwareMeta.Devicetree.Parser
import FirmwareMeta.Proofs.Failure

/-! The parser accepts what the grammar derives, and builds the tree of the derivation: what is
derived takes the machine from one state to another, one lemma for each kind of phrase. -/
namespace FirmwareMeta.Devicetree

theorem Grammar.bytesOfPairs?_eq_some_iff {bytes : List UInt8} {text : List Char} :
    Value.bytesOfPairs? text = some bytes ↔ Pairs bytes text := by
  constructor
  · intro read
    fun_induction Value.bytesOfPairs? text generalizing bytes with
    | case1 high low rest ih =>
      simp only [bind, Option.bind_eq_some_iff, pure, Option.some.injEq] at read
      obtain ⟨byte, pair, more, others, rfl⟩ := read
      exact .cons pair (ih others)
    | case2 => contradiction
    | case3 =>
      obtain rfl := Option.some.inj read
      exact .nil
  · intro pairs
    induction pairs with
    | nil => rfl
    | cons pair rest ih => simp [Value.bytesOfPairs?, pair, ih]

theorem Grammar.Pairs.even {bytes : List UInt8} {text : List Char} (pairs : Pairs bytes text) :
    text.length % 2 = 0 := by
  induction pairs with
  | nil => rfl
  | cons _ _ ih => simpa [Nat.add_assoc] using ih

theorem Grammar.bytesOfWord_ok_iff {bytes : List UInt8} {word : String} :
    Value.bytesOfWord word = .ok bytes ↔ Pairs bytes word.toList := by
  rw [← bytesOfPairs?_eq_some_iff, Value.bytesOfWord]
  cases read : Value.bytesOfPairs? word.toList with
  | none => split <;> simp
  | some found =>
    rw [if_neg (by simpa using (bytesOfPairs?_eq_some_iff.mp read).even)]
    simp

/-- The tokens take the parser from one state to another. -/
def State.Goes (s : State) (tokens : List Token) (t : State) : Prop :=
  tokens.foldlM State.step s = .ok t

variable {s t u : State} {a b ts : List Token} {r : Node} {st : List Opening} {o : Opening}
  {d : Definition}

namespace State

theorem goes_nil : s.Goes [] t ↔ s = t := by
  simp [Goes, pure, Except.pure]

theorem goes_cons {x : Token} : s.Goes (x :: a) u ↔ ∃ t, s.step x = .ok t ∧ t.Goes a u := by
  simp only [Goes, List.foldlM_cons, bind_ok_iff]

theorem Goes.refl (s : State) : s.Goes [] s := goes_nil.mpr rfl

theorem Goes.step {x : Token} (first : s.step x = .ok t) (rest : t.Goes a u) : s.Goes (x :: a) u :=
  goes_cons.mpr ⟨t, first, rest⟩

theorem goes_append : s.Goes (a ++ b) u ↔ ∃ t, s.Goes a t ∧ t.Goes b u := by
  simp only [Goes, List.foldlM_append, bind_ok_iff]

theorem Goes.trans (first : s.Goes a t) (rest : t.Goes b u) : s.Goes (a ++ b) u :=
  goes_append.mpr ⟨t, first, rest⟩

theorem goes_single {x : Token} : s.Goes [x] t ↔ s.step x = .ok t := by
  simp [goes_cons, goes_nil]

theorem Goes.snoc (front : s.Goes a t) {x : Token} (last : t.step x = .ok u) :
    s.Goes (a ++ [x]) u :=
  front.trans (goes_single.mpr last)

theorem Goes.unique (one : s.Goes a t) (also : s.Goes a u) : t = u :=
  Except.ok.inj (one.symm.trans also)

theorem Goes.append_iff (first : s.Goes a t) : s.Goes (a ++ b) u ↔ t.Goes b u := by
  rw [goes_append]
  constructor
  · rintro ⟨other, also, rest⟩
    exact first.unique also ▸ rest
  · intro rest
    exact ⟨t, first, rest⟩

/-- With places, the parser goes the same way. -/
theorem run_ok_iff {tokens : List Placed} :
    s.run tokens = .ok t ↔ s.Goes (tokens.map (·.token)) t := by
  induction tokens generalizing s with
  | nil => simp [run, goes_nil]
  | cons x rest ih =>
    rw [run, List.map_cons, goes_cons]
    cases s.step x.token with
    | error => simp
    | ok next => simp [ih]

end State

namespace Grammar

theorem Directive.goes (derived : Directive ts) :
    State.Goes ⟨r, st, .items⟩ ts ⟨r, st, .items⟩ := by
  have skipped : ∀ {tokens : List Token}, Token.semicolon ∉ tokens →
      State.Goes ⟨r, st, .directive⟩ (tokens ++ [.semicolon]) ⟨r, st, .items⟩ := by
    intro tokens inside
    induction tokens with
    | nil => exact State.goes_single.mpr rfl
    | cons x rest ih =>
      rw [List.mem_cons, not_or] at inside
      refine .step ?_ (ih inside.2)
      cases x with
      | semicolon => exact absurd rfl inside.1
      | _ => rfl
  cases derived with
  | intro inside => exact .step (by cases st <;> rfl) (skipped inside)

theorem goes_labels (r : Node) (st : List Opening) {f : List String → Mode} (accepts : ∀ ls l,
      State.step ⟨r, st, f ls⟩ (.label l) = .ok ⟨r, st, f (l :: ls)⟩) (names before : List String) :
    State.Goes ⟨r, st, f before⟩ (labels names) ⟨r, st, f (names.reverse ++ before)⟩ := by
  induction names generalizing before with
  | nil => exact .refl _
  | cons l rest ih =>
    rw [List.reverse_cons, List.append_assoc]
    exact .step (accepts before l) (ih (l :: before))

/-- Labels and the name of an item. -/
theorem goes_name (r : Node) (o : Opening) (st : List Opening) (names : List String)
    (name : String) : State.Goes ⟨r, o :: st, .items⟩ (labels names ++ [.word name])
      ⟨r, o :: st, .named names.reverse name⟩ := by
  cases names with
  | nil => exact State.goes_single.mpr rfl
  | cons l rest =>
    have rest_goes := goes_labels r (o :: st) (f := .itemLabels) (fun _ _ => rfl) rest [l]
    rw [← List.reverse_cons] at rest_goes
    exact .step rfl (rest_goes.snoc rfl)

/-- Labels and the slash of the root. -/
theorem goes_slash (r : Node) (names : List String) :
    State.Goes ⟨r, [], .items⟩ (labels names ++ [.slash]) ⟨r, [], .rootOpening names.reverse⟩ := by
  cases names with
  | nil => exact State.goes_single.mpr rfl
  | cons l rest =>
    have rest_goes := goes_labels r [] (f := .rootLabels) (fun _ _ => rfl) rest [l]
    rw [← List.reverse_cons] at rest_goes
    exact .step rfl (rest_goes.snoc rfl)

/-! Values -/

theorem Cells.goes {list : List Cell} (derived : Cells list ts) (before : List Cell) :
    State.Goes ⟨r, st, .cells d before⟩ ts ⟨r, st, .cells d (list.reverse ++ before)⟩ := by
  induction derived generalizing before with
  | nil => exact .refl _
  | label name rest ih => exact .step rfl (ih before)
  | reference target rest ih =>
    rw [List.reverse_cons, List.append_assoc]
    exact .step rfl (ih _)
  | word number rest ih =>
    rw [List.reverse_cons, List.append_assoc]
    refine .step ?_ (ih _)
    simp [State.step, number, State.goTo]

theorem Bytes.goes {list : List UInt8} (derived : Bytes list ts) (before : List UInt8) :
    State.Goes ⟨r, st, .bytes d before⟩ ts ⟨r, st, .bytes d (list.reverse ++ before)⟩ := by
  induction derived generalizing before with
  | nil => exact .refl _
  | word pairs rest ih =>
    rw [List.reverse_append, List.append_assoc]
    refine .step ?_ (ih _)
    simp [State.step, bytesOfWord_ok_iff.mpr pairs, State.goTo]

theorem Single.goes {v : Value} (derived : Single v ts) :
    State.Goes ⟨r, st, .value d⟩ ts ⟨r, st, .valueEnd (d.add v)⟩ := by
  cases derived with
  | text value => exact State.goes_single.mpr rfl
  | reference target => exact State.goes_single.mpr rfl
  | @cells list tokens inside =>
    have listed : State.Goes ⟨r, st, .cells d []⟩ tokens ⟨r, st, .cells d (list.reverse ++ [])⟩ :=
      inside.goes []
    refine .step rfl (listed.snoc (x := .closeAngle) ?_)
    simp [State.step, State.goTo]
  | @bytes list tokens inside =>
    have listed : State.Goes ⟨r, st, .bytes d []⟩ tokens ⟨r, st, .bytes d (list.reverse ++ [])⟩ :=
      inside.goes []
    refine .step rfl (listed.snoc (x := .closeBracket) ?_)
    simp [State.step, State.goTo]

theorem Labelled.goes {v : Value} (derived : Labelled v ts) :
    State.Goes ⟨r, st, .value d⟩ ts ⟨r, st, .valueEnd (d.add v)⟩ := by
  cases derived with
  | intro before behind value =>
    have front := goes_labels r st (f := fun _ => .value d) (fun _ _ => rfl) before []
    have back := goes_labels r st (f := fun _ => .valueEnd (d.add v)) (fun _ _ => rfl) behind []
    exact (front.trans value.goes).trans back

theorem Values.goes {vs : List Value} (derived : Values vs ts) (d : Definition) :
    State.Goes ⟨r, st, .value d⟩ ts ⟨r, st, .valueEnd ⟨d.name, vs.reverse ++ d.values⟩⟩ := by
  induction derived generalizing d with
  | one value => exact value.goes
  | @more v tokens vs following value rest ih =>
    rw [List.reverse_cons, List.append_assoc]
    exact value.goes.trans (.step rfl (ih (d.add v)))

end Grammar

/-! Items -/

namespace Opening

/-- An open node with what an item adds to it. -/
def add (o : Opening) : Item → Opening
  | .directive => o
  | .property name values => o.addProperty ⟨name, values⟩
  | .node labels name items =>
    o.addChild (Item.addAll (.bare name (Node.childPath o.path name) labels) items)

def addAll (o : Opening) (items : List Item) : Opening := items.foldl add o

theorem path_add (o : Opening) (item : Item) : (o.add item).path = o.path := by
  cases item <;> rfl

theorem path_addAll (o : Opening) (items : List Item) : (o.addAll items).path = o.path := by
  induction items generalizing o with
  | nil => rfl
  | cons item rest ih => exact (ih (o.add item)).trans (o.path_add item)

theorem close_add (o : Opening) (item : Item) : (o.add item).close = item.addTo o.close := by
  cases item with
  | directive => rw [Item.addTo]; rfl
  | property name values => rw [Item.addTo]; simp [add, addProperty, close]
  | node labels name items => rw [Item.addTo]; rfl

theorem close_addAll (o : Opening) (items : List Item) :
    (o.addAll items).close = Item.addAll o.close items := by
  induction items generalizing o with
  | nil => rw [Item.addAll]; rfl
  | cons item rest ih =>
    rw [Item.addAll, ← close_add]
    exact ih (o.add item)

end Opening

namespace Grammar

/-- What an item does to the innermost open node. -/
def Adds (item : Item) (ts : List Token) : Prop :=
  ∀ (r : Node) (o : Opening) (st : List Opening),
    State.Goes ⟨r, o :: st, .items⟩ ts ⟨r, o.add item :: st, .items⟩

def AddsAll (items : List Item) (ts : List Token) : Prop :=
  ∀ (r : Node) (o : Opening) (st : List Opening),
    State.Goes ⟨r, o :: st, .items⟩ ts ⟨r, o.addAll items :: st, .items⟩

theorem Body.goes {items : List Item} (derived : Body items ts) : AddsAll items ts := by
  refine Body.rec (motive_1 := fun item ts _ => Adds item ts)
    (motive_2 := fun items ts _ => AddsAll items ts)
    ?directive ?flag ?property ?node ?nil ?cons derived
  case directive =>
    intro ts tokens r o st
    exact tokens.goes
  case flag =>
    intro names name r o st
    have named := goes_name r o st names name
    have all := named.snoc (x := .semicolon) rfl
    rw [List.append_assoc] at all
    exact all
  case property =>
    intro values ts names name derived r o st
    have named := goes_name r o st names name
    have begun := named.snoc (x := .equals) rfl
    have valued := begun.trans (derived.goes _)
    have all := valued.snoc (x := .semicolon) rfl
    simpa [State.define, State.update, State.goTo, Definition.property, Opening.add] using all
  case node =>
    intro items ts names name body ih r o st
    have named := goes_name r o st names name
    have opened := named.snoc (x := .openBrace) rfl
    have filled := opened.trans (ih r _ (o :: st))
    have closing := filled.snoc (x := .closeBrace) rfl
    have all := closing.snoc (x := .semicolon) rfl
    have made : ((Opening.start name (Node.childPath o.path name) names).addAll items).close =
        Item.addAll (.bare name (Node.childPath o.path name) names) items :=
      Opening.close_addAll _ _
    simp only [List.reverse_reverse, State.goTo, State.close, made] at all
    simpa [Opening.add] using all
  case nil =>
    intro r o st
    exact .refl _
  case cons =>
    intro item ts items following first rest one others r o st
    exact (one r o st).trans (others r (o.add item) st)

theorem Document.goes {parts : List Part} (derived : Document parts ts) (r : Node) :
    State.Goes ⟨r, [], .items⟩ ts ⟨parts.foldl Part.addTo r, [], .items⟩ := by
  induction derived generalizing r with
  | nil => exact .refl _
  | directive tokens rest ih => exact tokens.goes.trans (ih r)
  | @root items ts parts following names body rest ih =>
    have named := goes_slash r names
    have opened := named.snoc (x := .openBrace) rfl
    have filled := opened.trans (body.goes r _ [])
    have closing := filled.snoc (x := .closeBrace) rfl
    have closed := closing.snoc (x := .semicolon) rfl
    have made : ((Opening.start "/" "/" names).addAll items).close =
        Item.addAll (.bare "/" "/" names) items := Opening.close_addAll _ _
    simp only [List.reverse_reverse, State.goTo, State.close, made] at closed
    simpa using closed.trans (ih ((Part.root names items).addTo r))

end Grammar

/-! Documents -/

theorem ofTokens_ok_iff_goes {length : Nat} {tokens : List Placed} {tree : Devicetree} :
    ofTokens length tokens = .ok tree ↔
      ∃ s, State.start.Goes (tokens.map (·.token)) s ∧ s.finish = .ok tree := by
  simp only [← State.run_ok_iff, ofTokens]
  cases State.start.run tokens with
  | error _ => simp
  | ok s => cases finished : s.finish <;> simp [finished]

theorem ofTokens_of_document {length : Nat} {tokens : List Placed} {parts : List Part}
    (derived : Grammar.Document parts (tokens.map (·.token))) :
    ofTokens length tokens = .ok (treeOf parts) :=
  ofTokens_ok_iff_goes.mpr ⟨_, derived.goes Node.root, rfl⟩

end FirmwareMeta.Devicetree
