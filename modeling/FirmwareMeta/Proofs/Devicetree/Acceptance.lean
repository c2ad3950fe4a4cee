import FirmwareMeta.Proofs.Devicetree.Completeness
import FirmwareMeta.Proofs.Devicetree.Merging

/-! The parser accepts nothing but what the grammar derives. The tokens read so far are always the
start of a document: closed parts of it, the openings of nodes that are not closed yet, and a phrase
that is not finished. -/
namespace FirmwareMeta.Devicetree

open Grammar

/-- The tokens behind which the parser is between two items, with some nodes open. -/
inductive Inside : Node → List Opening → List Token → Prop where
  | document (derived : Document parts ts) : Inside (parts.foldl Part.addTo Node.root) [] ts
  | root (outside : Inside r [] ts) (names : List String) (body : Body items us) :
      Inside r [(Opening.start "/" "/" names).addAll items]
        (ts ++ (labels names ++ .slash :: .openBrace :: us))
  | child (outside : Inside r (o :: st) ts) (names : List String) (name : String)
      (body : Body items us) :
      Inside r ((Opening.start name (Node.childPath o.path name) names).addAll items :: o :: st)
        (ts ++ (labels names ++ .word name :: .openBrace :: us))

/-- The tokens of a property as far as a value may begin. -/
inductive Begun : Definition → List Token → Prop where
  | first (names : List String) (name : String) :
      Begun ⟨name, []⟩ (labels names ++ [.word name, .equals])
  | next (names : List String) (name : String) {vs : List Value} (values : Values vs ts) :
      Begun ⟨name, vs.reverse⟩ (labels names ++ .word name :: .equals :: ts ++ [.comma])

/-- The tokens of a property as far as it may end. -/
inductive Valued : Definition → List Token → Prop where
  | intro (names : List String) (name : String) {vs : List Value} (values : Values vs ts) :
      Valued ⟨name, vs.reverse⟩ (labels names ++ .word name :: .equals :: ts)

/-- The tokens of an item or part that is not finished. -/
inductive Started : List Opening → Mode → List Token → Prop where
  | items : Started st .items []
  | directive (inside : Token.semicolon ∉ ts) : Started st .directive (.directive :: ts)
  | rootLabels (names : List String) : Started [] (.rootLabels names.reverse) (labels names)
  | rootOpening (names : List String) :
      Started [] (.rootOpening names.reverse) (labels names ++ [.slash])
  | itemLabels (names : List String) :
      Started (o :: st) (.itemLabels names.reverse) (labels names)
  | named (names : List String) (name : String) :
      Started (o :: st) (.named names.reverse name) (labels names ++ [.word name])
  | value (begun : Begun d ts) (before : List String) :
      Started (o :: st) (.value d) (ts ++ labels before)
  | valueEnd (valued : Valued d ts) : Started (o :: st) (.valueEnd d) ts
  | cells (begun : Begun d ts) (before : List String) {list : List Cell} (inside : Cells list us) :
      Started (o :: st) (.cells d list.reverse) (ts ++ (labels before ++ .openAngle :: us))
  | bytes (begun : Begun d ts) (before : List String) {list : List UInt8}
      (inside : Bytes list us) :
      Started (o :: st) (.bytes d list.reverse) (ts ++ (labels before ++ .openBracket :: us))
  | closing : Started (o :: st) .closing [.closeBrace]

/-- What the tokens read so far have to do with the state. -/
def Reads (s : State) (ts : List Token) : Prop :=
  ∃ front back, Inside s.root s.stack front ∧ Started s.stack s.mode back ∧ ts = front ++ back

variable {r : Node} {st : List Opening} {o : Opening} {d : Definition} {s s' : State} {t : Token}
  {ts us ws : List Token} {parts : List Part} {items : List Item}

namespace Grammar

/-! Phrases that go on -/

theorem labels_concat (names : List String) (name : String) :
    labels names ++ [.label name] = labels (names ++ [name]) := by
  simp [labels]

theorem Cells.concat {list more : List Cell} (front : Cells list ts) (last : Cells more us) :
    Cells (list ++ more) (ts ++ us) := by
  induction front with
  | nil => exact last
  | label name _ ih => exact .label name ih
  | reference target _ ih => exact .reference target ih
  | word number _ ih => exact .word number ih

theorem Bytes.concat {list more : List UInt8} (front : Bytes list ts) (last : Bytes more us) :
    Bytes (list ++ more) (ts ++ us) := by
  induction front with
  | nil => exact last
  | word pairs _ ih =>
    rw [List.append_assoc]
    exact .word pairs ih

theorem Labelled.concat {v : Value} (value : Labelled v ts) (name : String) :
    Labelled v (ts ++ [.label name]) := by
  cases value with
  | intro before behind single =>
    rw [List.append_assoc, labels_concat]
    exact .intro before _ single

theorem Values.label {vs : List Value} (values : Values vs ts) (name : String) :
    Values vs (ts ++ [.label name]) := by
  induction values with
  | one value => exact .one (value.concat name)
  | more value _ ih =>
    rw [List.append_assoc, List.cons_append]
    exact .more value ih

theorem Values.concat {vs : List Value} {v : Value} (values : Values vs ts) (last : Labelled v us) :
    Values (vs ++ [v]) (ts ++ .comma :: us) := by
  induction values with
  | one value => exact .more value (.one last)
  | more value _ ih =>
    rw [List.append_assoc, List.cons_append, List.cons_append]
    exact .more value ih

theorem Body.concat {item : Item} (body : Body items ts) (last : Statement item us) :
    Body (items ++ [item]) (ts ++ us) := by
  induction items generalizing ts with
  | nil =>
    cases body with
    | nil => simpa using Body.cons last .nil
  | cons first rest ih =>
    cases body with
    | cons statement others =>
      rw [List.append_assoc]
      exact .cons statement (ih others)

theorem Document.concat {part : Part} (front : Document parts ts) (last : Document [part] us) :
    Document (parts ++ [part]) (ts ++ us) := by
  induction front with
  | nil => exact last
  | directive tokens _ ih =>
    rw [List.append_assoc]
    exact .directive tokens ih
  | root names body _ ih =>
    have all := Document.root names body ih
    simpa using all

end Grammar

/-! What a token adds -/

theorem Inside.add {item : Item} (inside : Inside r (o :: st) ts) (last : Statement item us) :
    Inside r (o.add item :: st) (ts ++ us) := by
  have more : ∀ (o : Opening) (items : List Item), (o.addAll items).add item =
      o.addAll (items ++ [item]) := by
    intro o items
    simp [Opening.addAll]
  cases inside with
  | root outside names body =>
    rw [more]
    simpa using Inside.root outside names (body.concat last)
  | child outside names name body =>
    rw [more]
    simpa using Inside.child outside names name (body.concat last)

theorem Inside.directive (inside : Inside r st ts) (last : Directive us) :
    Inside r st (ts ++ us) := by
  cases st with
  | nil =>
    cases inside with
    | @document parts _ derived =>
      have all := derived.concat (.directive last .nil)
      have root : (parts ++ [Part.directive]).foldl Part.addTo Node.root =
          parts.foldl Part.addTo Node.root := by
        simp [Part.addTo]
      rw [List.append_nil] at all
      rw [← root]
      exact .document all
  | cons o st => exact inside.add (.directive last)

/-- The root is closed. -/
theorem Inside.close (inside : Inside r [o] ts) :
    Inside (r.merge o.close) [] (ts ++ [.closeBrace, .semicolon]) := by
  cases inside with
  | @root _ _ items _ outside names body =>
    cases outside with
    | @document parts _ derived =>
      have made : ((Opening.start "/" "/" names).addAll items).close =
          Item.addAll (.bare "/" "/" names) items := Opening.close_addAll _ _
      have root : (parts ++ [Part.root names items]).foldl Part.addTo Node.root =
          (parts.foldl Part.addTo Node.root).merge
            ((Opening.start "/" "/" names).addAll items).close := by
        simp [Part.addTo, made]
      rw [← root]
      simpa using Inside.document (derived.concat (.root names body .nil))

/-- A child is closed. -/
theorem Inside.closeChild {parent : Opening} (inside : Inside r (o :: parent :: st) ts) :
    Inside r (parent.addChild o.close :: st) (ts ++ [.closeBrace, .semicolon]) := by
  cases inside with
  | @child _ _ _ _ items _ outside names name body =>
    have made : ((Opening.start name (Node.childPath parent.path name) names).addAll items).close =
        Item.addAll (.bare name (Node.childPath parent.path name) names) items :=
      Opening.close_addAll _ _
    have all := outside.add (.node names name body)
    rw [made]
    simpa [Opening.add] using all

theorem Begun.value {v : Value} (begun : Begun d ts) (value : Labelled v us) :
    Valued (d.add v) (ts ++ us) := by
  cases begun with
  | first names name =>
    have all := Valued.intro names name (.one value)
    simpa [Definition.add] using all
  | @next _ names name vs values =>
    have all := Valued.intro names name (values.concat value)
    simpa [Definition.add] using all

theorem Begun.single {v : Value} (begun : Begun d ts) (before : List String)
    (value : Single v us) : Valued (d.add v) (ts ++ (labels before ++ us)) := by
  have labelled := Labelled.intro before [] value
  simpa [labels] using begun.value labelled

theorem Valued.label (valued : Valued d ts) (name : String) : Valued d (ts ++ [.label name]) := by
  cases valued with
  | intro names own values =>
    simpa using Valued.intro names own (values.label name)

theorem Valued.next (valued : Valued d ts) : Begun d (ts ++ [.comma]) := by
  cases valued with
  | intro names own values => exact .next names own values

theorem Valued.statement (valued : Valued d ts) :
    Statement (.property d.name d.values.reverse) (ts ++ [.semicolon]) := by
  cases valued with
  | intro names own values => simpa using Statement.property names own values

/-! Steps -/

theorem Inside.item (inside : Inside r st ts) (stepped : State.item ⟨r, st, .items⟩ t = .ok s) :
    Reads s (ts ++ [t]) := by
  cases st with
  | nil =>
    cases t with
    | directive =>
      cases stepped
      exact ⟨ts, [.directive], inside, .directive (by simp), rfl⟩
    | label l =>
      cases stepped
      exact ⟨ts, [.label l], inside, .rootLabels [l], rfl⟩
    | slash =>
      cases stepped
      exact ⟨ts, [.slash], inside, .rootOpening [], rfl⟩
    | _ => cases stepped
  | cons o st =>
    cases t with
    | directive =>
      cases stepped
      exact ⟨ts, [.directive], inside, .directive (by simp), rfl⟩
    | label l =>
      cases stepped
      exact ⟨ts, [.label l], inside, .itemLabels [l], rfl⟩
    | word name =>
      cases stepped
      exact ⟨ts, [.word name], inside, .named [] name, rfl⟩
    | closeBrace =>
      cases stepped
      exact ⟨ts, [.closeBrace], inside, .closing, rfl⟩
    | _ => cases stepped

theorem Inside.step_directive (inside : Inside r st ts) (absent : Token.semicolon ∉ us)
    (stepped : State.step ⟨r, st, .directive⟩ t = .ok s) :
    Reads s (ts ++ (.directive :: us ++ [t])) := by
  by_cases last : t = .semicolon
  · subst last
    cases stepped
    exact ⟨_, [], inside.directive (.intro absent), .items, (List.append_nil _).symm⟩
  · have stays : State.step ⟨r, st, .directive⟩ t = .ok ⟨r, st, .directive⟩ := by
      cases t with
      | semicolon => exact absurd rfl last
      | _ => rfl
    rw [stays] at stepped
    cases stepped
    refine ⟨ts, .directive :: (us ++ [t]), inside, .directive ?_, rfl⟩
    simp [absent, Ne.symm last]

theorem Inside.step_rootLabels (inside : Inside r [] ts) (names : List String)
    (stepped : State.step ⟨r, [], .rootLabels names.reverse⟩ t = .ok s) :
    Reads s (ts ++ (labels names ++ [t])) := by
  cases t with
  | label l =>
    cases stepped
    refine ⟨ts, _, inside, ?_, rfl⟩
    simpa [labels_concat, State.goTo] using Started.rootLabels (names ++ [l])
  | slash =>
    cases stepped
    exact ⟨ts, _, inside, .rootOpening names, rfl⟩
  | _ => cases stepped

theorem Inside.step_rootOpening (inside : Inside r [] ts) (names : List String)
    (stepped : State.step ⟨r, [], .rootOpening names.reverse⟩ t = .ok s) :
    Reads s (ts ++ (labels names ++ [.slash] ++ [t])) := by
  cases t with
  | openBrace =>
    cases stepped
    refine ⟨_, [], ?_, .items, (List.append_nil _).symm⟩
    simpa [Opening.addAll] using Inside.root inside names .nil
  | _ => cases stepped

theorem Inside.step_itemLabels (inside : Inside r (o :: st) ts) (names : List String)
    (stepped : State.step ⟨r, o :: st, .itemLabels names.reverse⟩ t = .ok s) :
    Reads s (ts ++ (labels names ++ [t])) := by
  cases t with
  | label l =>
    cases stepped
    refine ⟨ts, _, inside, ?_, rfl⟩
    simpa [labels_concat, State.goTo] using Started.itemLabels (names ++ [l])
  | word name =>
    cases stepped
    exact ⟨ts, _, inside, .named names name, rfl⟩
  | _ => cases stepped

theorem Inside.step_named (inside : Inside r (o :: st) ts) (names : List String) (name : String)
    (stepped : State.step ⟨r, o :: st, .named names.reverse name⟩ t = .ok s) :
    Reads s (ts ++ (labels names ++ [.word name] ++ [t])) := by
  cases t with
  | openBrace =>
    cases stepped
    refine ⟨_, [], ?_, .items, (List.append_nil _).symm⟩
    simpa [Opening.addAll, State.openChild] using Inside.child inside names name .nil
  | semicolon =>
    cases stepped
    refine ⟨_, [], ?_, .items, (List.append_nil _).symm⟩
    simpa [State.define, State.update, State.goTo, Opening.add] using
      inside.add (.flag names name)
  | equals =>
    cases stepped
    refine ⟨ts, _, inside, ?_, rfl⟩
    simpa [labels, State.goTo] using Started.value (.first names name) []
  | _ => cases stepped

theorem Inside.step_value (inside : Inside r (o :: st) ts) (begun : Begun d us)
    (before : List String) (stepped : State.step ⟨r, o :: st, .value d⟩ t = .ok s) :
    Reads s (ts ++ (us ++ labels before ++ [t])) := by
  rw [List.append_assoc us]
  cases t with
  | label l =>
    cases stepped
    rw [labels_concat]
    exact ⟨ts, _, inside, .value begun _, rfl⟩
  | text value =>
    cases stepped
    exact ⟨ts, _, inside, .valueEnd (begun.single before (.text value)), rfl⟩
  | reference target =>
    cases stepped
    exact ⟨ts, _, inside, .valueEnd (begun.single before (.reference target)), rfl⟩
  | openAngle =>
    cases stepped
    exact ⟨ts, _, inside, .cells begun before .nil, rfl⟩
  | openBracket =>
    cases stepped
    exact ⟨ts, _, inside, .bytes begun before .nil, rfl⟩
  | _ => cases stepped

theorem Inside.step_valueEnd (inside : Inside r (o :: st) ts) (valued : Valued d us)
    (stepped : State.step ⟨r, o :: st, .valueEnd d⟩ t = .ok s) :
    Reads s (ts ++ (us ++ [t])) := by
  cases t with
  | label l =>
    cases stepped
    exact ⟨ts, _, inside, .valueEnd (valued.label l), rfl⟩
  | comma =>
    cases stepped
    refine ⟨ts, _, inside, ?_, rfl⟩
    simpa [labels, State.goTo] using Started.value valued.next []
  | semicolon =>
    cases stepped
    refine ⟨_, [], ?_, .items, (List.append_nil _).symm⟩
    simpa [State.define, State.update, State.goTo, Opening.add, Definition.property] using
      inside.add valued.statement
  | _ => cases stepped

theorem Inside.step_cells {list : List Cell} (inside : Inside r (o :: st) ts) (begun : Begun d us)
    (before : List String) (derived : Cells list ws)
    (stepped : State.step ⟨r, o :: st, .cells d list.reverse⟩ t = .ok s) :
    Reads s (ts ++ (us ++ (labels before ++ .openAngle :: ws) ++ [t])) := by
  cases t with
  | label l =>
    cases stepped
    refine ⟨ts, _, inside, ?_, rfl⟩
    simpa using Started.cells begun before (derived.concat (.label l .nil))
  | closeAngle =>
    cases stepped
    refine ⟨ts, _, inside, ?_, rfl⟩
    simpa [State.goTo] using Started.valueEnd (begun.single before (.cells derived))
  | reference target =>
    cases stepped
    refine ⟨ts, _, inside, ?_, rfl⟩
    simpa [State.goTo] using
      Started.cells begun before (derived.concat (.reference target .nil))
  | word word =>
    cases number : Cell.ofWord? word with
    | none => simp [State.step, number] at stepped
    | some cell =>
      simp only [State.step, number, Except.ok.injEq] at stepped
      subst stepped
      refine ⟨ts, _, inside, ?_, rfl⟩
      simpa [State.goTo] using Started.cells begun before (derived.concat (.word number .nil))
  | _ => cases stepped

theorem Inside.step_bytes {list : List UInt8} (inside : Inside r (o :: st) ts)
    (begun : Begun d us) (before : List String) (derived : Bytes list ws)
    (stepped : State.step ⟨r, o :: st, .bytes d list.reverse⟩ t = .ok s) :
    Reads s (ts ++ (us ++ (labels before ++ .openBracket :: ws) ++ [t])) := by
  cases t with
  | closeBracket =>
    cases stepped
    refine ⟨ts, _, inside, ?_, rfl⟩
    simpa [State.goTo] using Started.valueEnd (begun.single before (.bytes derived))
  | word word =>
    cases pairs : Value.bytesOfWord word with
    | error cause => simp [State.step, pairs] at stepped
    | ok more =>
      simp only [State.step, pairs, Except.ok.injEq] at stepped
      subst stepped
      refine ⟨ts, _, inside, ?_, rfl⟩
      have longer := derived.concat (.word (bytesOfWord_ok_iff.mp pairs) .nil)
      simpa [State.goTo] using Started.bytes begun before longer
  | _ => cases stepped

theorem Inside.step_closing (inside : Inside r (o :: st) ts)
    (stepped : State.step ⟨r, o :: st, .closing⟩ t = .ok s) :
    Reads s (ts ++ ([.closeBrace] ++ [t])) := by
  cases t with
  | semicolon =>
    cases stepped
    cases st with
    | nil => exact ⟨_, [], inside.close, .items, (List.append_nil _).symm⟩
    | cons parent outer => exact ⟨_, [], inside.closeChild, .items, (List.append_nil _).symm⟩
  | _ => cases stepped

/-- What has been read so far goes on with one token, in each of the modes. -/
theorem Reads.step (reads : Reads s ts) (stepped : s.step t = .ok s') : Reads s' (ts ++ [t]) := by
  obtain ⟨front, back, inside, started, rfl⟩ := reads
  obtain ⟨r, st, mode⟩ := s
  dsimp only at inside started
  rw [List.append_assoc]
  cases started with
  | items => exact inside.item stepped
  | directive absent => exact inside.step_directive absent stepped
  | rootLabels names => exact inside.step_rootLabels names stepped
  | rootOpening names => exact inside.step_rootOpening names stepped
  | itemLabels names => exact inside.step_itemLabels names stepped
  | named names name => exact inside.step_named names name stepped
  | value begun before => exact inside.step_value begun before stepped
  | valueEnd valued => exact inside.step_valueEnd valued stepped
  | cells begun before derived => exact inside.step_cells begun before derived stepped
  | bytes begun before derived => exact inside.step_bytes begun before derived stepped
  | closing => exact inside.step_closing stepped

theorem Reads.goes (reads : Reads s ts) (goes : s.Goes us s') : Reads s' (ts ++ us) := by
  induction us generalizing s ts with
  | nil =>
    obtain rfl := State.goes_nil.mp goes
    rwa [List.append_nil]
  | cons t rest ih =>
    obtain ⟨next, stepped, others⟩ := State.goes_cons.mp goes
    rw [List.append_cons]
    exact ih (reads.step stepped) others

theorem Reads.start : Reads State.start [] :=
  ⟨[], [], .document .nil, .items, rfl⟩

/-- Where the source may end, a whole document has been read. -/
theorem Reads.finish {tree : Devicetree} (reads : Reads s ts) (finished : s.finish = .ok tree) :
    ∃ parts, Document parts ts := by
  obtain ⟨front, back, inside, started, rfl⟩ := reads
  obtain ⟨r, st, mode⟩ := s
  dsimp only at inside started
  cases started with
  | items =>
    cases st with
    | nil =>
      cases inside with
      | @document parts _ derived => exact ⟨parts, by rwa [List.append_nil]⟩
    | cons o st => cases finished
  | _ => cases finished

/-! Documents -/

theorem document_of_ofTokens {length : Nat} {tokens : List Placed} {tree : Devicetree}
    (accepted : ofTokens length tokens = .ok tree) :
    ∃ parts, Document parts (tokens.map (·.token)) := by
  obtain ⟨s, goes, finished⟩ := ofTokens_ok_iff_goes.mp accepted
  have reads := Reads.start.goes goes
  rw [List.nil_append] at reads
  exact reads.finish finished

/-- Tokens are accepted exactly if they are a document, and the tree is then the one that the
document says. -/
theorem ofTokens_ok_iff_document (length : Nat) (tokens : List Placed) :
    ((∃ tree, ofTokens length tokens = .ok tree) ↔
      ∃ parts, Document parts (tokens.map (·.token))) ∧
    ∀ tree, ofTokens length tokens = .ok tree ↔
      ∃ parts, Document parts (tokens.map (·.token)) ∧ tree.MadeOf parts := by
  constructor
  · constructor
    · rintro ⟨tree, accepted⟩
      exact document_of_ofTokens accepted
    · rintro ⟨parts, derived⟩
      exact ⟨treeOf parts, ofTokens_of_document derived⟩
  · intro tree
    constructor
    · intro accepted
      obtain ⟨parts, derived⟩ := document_of_ofTokens accepted
      obtain rfl := Except.ok.inj ((ofTokens_of_document derived).symm.trans accepted)
      exact ⟨parts, derived, madeOf_treeOf parts⟩
    · rintro ⟨parts, derived, made⟩
      rw [ofTokens_of_document derived, (madeOf_treeOf parts).unique made]

end FirmwareMeta.Devicetree
