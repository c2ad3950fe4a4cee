import FirmwareMeta.Proofs.Devicetree.Acceptance
import FirmwareMeta.Proofs.Devicetree.Positions

/-! A fault lies at the first token that no document goes on with. Every state of the parser can
still end well, so what stands in front of the fault is the start of a document. -/
namespace FirmwareMeta.Devicetree

/-- The tokens of some source that is accepted. -/
def Accepted (ts : List Token) : Prop :=
  ∃ source placed tree, Token.read source = .ok placed ∧ placed.map (·.token) = ts ∧
    parse source = .ok tree

/-- Tokens that end what a parser is in the middle of. -/
def Mode.ending : Mode → List Token
  | .items => []
  | .directive => [.semicolon]
  | .rootLabels _ => [.slash, .openBrace]
  | .rootOpening _ => [.openBrace]
  | .itemLabels _ => [.word "a", .semicolon]
  | .named .. => [.semicolon]
  | .value _ => [.text "", .semicolon]
  | .valueEnd _ => [.semicolon]
  | .cells .. => [.closeAngle, .semicolon]
  | .bytes .. => [.closeBracket, .semicolon]
  | .closing => [.semicolon]

variable {source : String} {s s' : State} {t : Token} {ts : List Token} {tokens placed : List Placed}
  {fault : Fault} {text rest : List Char}

theorem Mode.spellable_ending (mode : Mode) : ∀ t ∈ mode.ending, t.spellable := by
  have name : Token.isWord "a" := by decide
  cases mode <;> simp [ending, Token.spellable, name]

namespace State

/-! States that still end well -/

theorem exists_items (s : State) : ∃ root stack, s.Goes s.mode.ending ⟨root, stack, .items⟩ := by
  obtain ⟨root, stack, mode⟩ := s
  cases mode with
  | items => exact ⟨_, _, .refl _⟩
  | directive => exact ⟨_, _, .step rfl (.refl _)⟩
  | rootLabels => exact ⟨_, _, .step rfl (.step rfl (.refl _))⟩
  | rootOpening => exact ⟨_, _, .step rfl (.refl _)⟩
  | itemLabels => exact ⟨_, _, .step rfl (.step rfl (.refl _))⟩
  | named => exact ⟨_, _, .step rfl (.refl _)⟩
  | value => exact ⟨_, _, .step rfl (.step rfl (.refl _))⟩
  | valueEnd => exact ⟨_, _, .step rfl (.refl _)⟩
  | cells => exact ⟨_, _, .step rfl (.step rfl (.refl _))⟩
  | bytes => exact ⟨_, _, .step rfl (.step rfl (.refl _))⟩
  | closing =>
    rcases stack with _ | ⟨o, _ | ⟨parent, outer⟩⟩
    all_goals exact ⟨_, _, .step rfl (.refl _)⟩

/-- A brace and a semicolon for each node that is open. -/
theorem exists_closed (root : Node) (stack : List Opening) :
    ∃ closed, State.Goes ⟨root, stack, .items⟩
      (stack.flatMap fun _ => [.closeBrace, .semicolon]) ⟨closed, [], .items⟩ := by
  cases stack with
  | nil => exact ⟨root, .refl _⟩
  | cons o outer =>
    induction outer generalizing o with
    | nil => exact ⟨_, .step rfl (.step rfl (.refl _))⟩
    | cons parent outer ih =>
      obtain ⟨closed, goes⟩ := ih (parent.addChild o.close)
      exact ⟨closed, .step rfl (.step rfl goes)⟩

theorem exists_finish (s : State) :
    ∃ more root, (∀ t ∈ more, t.spellable) ∧ s.Goes more ⟨root, [], .items⟩ := by
  obtain ⟨root, stack, ended⟩ := s.exists_items
  obtain ⟨closed, goes⟩ := exists_closed root stack
  refine ⟨_, closed, fun t mem => ?_, ended.trans goes⟩
  rcases List.mem_append.mp mem with mem | mem
  · exact s.mode.spellable_ending t mem
  · obtain ⟨_, -, brace⟩ := List.mem_flatMap.mp mem
    simp only [List.mem_cons, List.not_mem_nil, or_false] at brace
    rcases brace with rfl | rfl <;> rfl

/-! Refused tokens -/

/-- A run fails at the first token that is refused. -/
theorem exists_refused (failed : s.run tokens = .error fault) :
    ∃ front p behind s' cause, tokens = front ++ p :: behind ∧ s.Goes (front.map (·.token)) s' ∧
      s'.step p.token = .error cause ∧ fault = ⟨p.offset, cause⟩ := by
  induction tokens generalizing s with
  | nil => cases failed
  | cons p rest ih =>
    rw [run] at failed
    cases stepped : s.step p.token with
    | error cause =>
      rw [stepped] at failed
      cases failed
      exact ⟨[], p, rest, s, cause, rfl, .refl s, stepped, rfl⟩
    | ok next =>
      rw [stepped] at failed
      obtain ⟨front, q, behind, s', cause, rfl, goes, refused, rfl⟩ := ih failed
      exact ⟨p :: front, q, behind, s', cause, rfl, .step stepped goes, refused, rfl⟩

/-- Where a token is refused, the run fails, whatever stands behind it. -/
theorem Goes.run_error {front behind : List Placed} {p : Placed} {cause : Cause}
    (goes : s.Goes (front.map (·.token)) s') (refused : s'.step p.token = .error cause) :
    s.run (front ++ p :: behind) = .error ⟨p.offset, cause⟩ := by
  induction front generalizing s with
  | nil =>
    obtain rfl := goes_nil.mp goes
    rw [List.nil_append, run, refused]
  | cons q front ih =>
    obtain ⟨next, stepped, rest⟩ := goes_cons.mp goes
    rw [List.cons_append, run, stepped]
    exact ih rest

theorem Goes.not_document_of_step (goes : start.Goes ts s) {cause : Cause}
    (refused : s.step t = .error cause) (parts : List Part) (more : List Token) :
    ¬Grammar.Document parts (ts ++ t :: more) := by
  intro derived
  obtain ⟨next, stepped, -⟩ := goes_cons.mp (goes.append_iff.mp (derived.goes Node.root))
  rw [refused] at stepped
  contradiction

theorem Goes.not_document_of_finish (goes : start.Goes ts s) {cause : Cause}
    (refused : s.finish = .error cause) (parts : List Part) : ¬Grammar.Document parts ts := by
  intro derived
  rw [goes.unique (derived.goes Node.root)] at refused
  contradiction

end State

theorem ofTokens_error_iff {length : Nat} :
    ofTokens length tokens = .error fault ↔ State.start.run tokens = .error fault ∨
      ∃ s cause, State.start.Goes (tokens.map (·.token)) s ∧ s.finish = .error cause ∧
        fault = ⟨length, cause⟩ := by
  simp only [← State.run_ok_iff, ofTokens]
  cases State.start.run tokens with
  | error _ => simp
  | ok s => cases finished : s.finish <;> simp [finished, eq_comm]

/-! Tokens that are accepted -/

namespace Accepted

theorem document (accepted : Accepted ts) : ∃ parts, Grammar.Document parts ts := by
  obtain ⟨source, placed, tree, read, rfl, parsed⟩ := accepted
  rw [parse, read] at parsed
  exact document_of_ofTokens parsed

/-- Behind a text that is read the parser can be led to an end. -/
theorem exists_more (lexed : Lexed text ts rest) (goes : State.start.Goes ts s) :
    ∃ more, Accepted (ts ++ more) := by
  obtain ⟨more, root, spellable, finished⟩ := s.exists_finish
  obtain ⟨others, spelled⟩ := Token.read_spellAll spellable
  have back : Lexed (Token.spellAll more) more [] := by
    simpa using lexed_iff_read.mpr ⟨others, spelled⟩
  have front : Lexed text ts ('\n' :: Token.spellAll more ++ []) := lexed.newline _
  have whole := front.append (.blank rfl back)
  rw [← String.toList_ofList (l := text ++ '\n' :: Token.spellAll more)] at whole
  obtain ⟨placed, read, tokens⟩ := lexed_iff_read.mp whole
  refine ⟨more, _, placed, ⟨root⟩, read, tokens, ?_⟩
  rw [parse, read]
  exact ofTokens_ok_iff_goes.mpr ⟨⟨root, [], .items⟩, tokens ▸ goes.trans finished, rfl⟩

end Accepted

/-- A source that can be read and is refused has its fault at the start of a token or at its end.
What is in front of it is the start of something accepted, also the whole source in the latter case.
No document begins with that and the token. -/
theorem exists_fault_token (read : Token.read source = .ok placed)
    (refused : parse source = .error fault) :
    (∃ front p behind, placed = front ++ p :: behind ∧ fault.offset = p.offset ∧
      (∃ head own tail, Stands source (front.map (·.token)) p head own tail) ∧
      (∃ more, Accepted (front.map (·.token) ++ more)) ∧
      (∀ more, ¬Accepted (front.map (·.token) ++ p.token :: more)) ∧
      ∀ parts more, ¬Grammar.Document parts (front.map (·.token) ++ p.token :: more)) ∨
    fault.offset = source.utf8ByteSize ∧
      ∃ more, more ≠ [] ∧ Accepted (placed.map (·.token) ++ more) := by
  rw [parse, read] at refused
  rcases ofTokens_error_iff.mp refused with failed | ⟨s, cause, goes, unfinished, rfl⟩
  · obtain ⟨front, p, behind, s, cause, rfl, goes, stepped, rfl⟩ := State.exists_refused failed
    have never := goes.not_document_of_step stepped
    obtain ⟨head, own, tail, stands⟩ := exists_stands read
    refine .inl ⟨front, p, behind, rfl, rfl, ⟨head, own, tail, stands⟩,
      Accepted.exists_more stands.front goes, fun more accepted => ?_, never⟩
    obtain ⟨parts, derived⟩ := accepted.document
    exact never parts more derived
  · obtain ⟨more, accepted⟩ := Accepted.exists_more (lexed_iff_read.mpr ⟨placed, read, rfl⟩) goes
    refine .inr ⟨rfl, more, ?_, accepted⟩
    rintro rfl
    obtain ⟨parts, derived⟩ := accepted.document
    rw [List.append_nil] at derived
    exact goes.not_document_of_finish unfinished parts derived

theorem exists_fault_token_root :
    (parse "/ ;" = .error ⟨2, .expected .nodeOpening⟩ ∧
      (∃ more, Accepted (.slash :: more)) ∧ ∀ more, ¬Accepted (.slash :: .semicolon :: more)) ∧
    parse "/" = .error ⟨1, .expected .nodeOpening⟩ ∧
      ∃ more, more ≠ [] ∧ Accepted (.slash :: more) := by
  have read : Token.read "/ ;" = .ok [⟨.slash, 0⟩, ⟨.semicolon, 2⟩] := rfl
  have also : Token.read "/" = .ok [⟨.slash, 0⟩] := rfl
  have refused : parse "/ ;" = .error ⟨2, .expected .nodeOpening⟩ := rfl
  have unfinished : parse "/" = .error ⟨1, .expected .nodeOpening⟩ := rfl
  refine ⟨⟨refused, ?_⟩, unfinished, ?_⟩
  · rcases exists_fault_token read refused with
      ⟨front, p, behind, split, offset, -, more, never, -⟩ | ⟨last, -⟩
    · rcases front with _ | ⟨_, front⟩
      · cases split
        contradiction
      · obtain ⟨rfl, rest⟩ := List.cons.inj split
        obtain ⟨rfl, same⟩ := List.append_eq_singleton_iff.mp rest.symm |>.resolve_right (by simp)
        cases same
        exact ⟨more, never⟩
    · contradiction
  · rcases exists_fault_token also unfinished with ⟨front, p, behind, split, offset, -⟩ | ⟨-, more⟩
    · have mem : p ∈ [⟨.slash, 0⟩] := split ▸ List.mem_append_right front List.mem_cons_self
      obtain rfl := List.mem_singleton.mp mem
      contradiction
    · exact more

end FirmwareMeta.Devicetree
