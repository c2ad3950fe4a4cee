import FirmwareMeta.Proofs.Devicetree.Borders
import FirmwareMeta.Proofs.Failure

/-! Where tokens stand. Each one begins at its offset, behind the whole lexemes that the text in
front of it is made of. -/
namespace FirmwareMeta.Devicetree

variable {source : String} {t : Token} {p : Placed} {ts : List Token}
  {placed before behind : List Placed} {text rest : List Char}

/-- A token stands in a source, with some tokens in front of it: the text up to its offset, its own
text, and what follows. -/
structure Stands (source : String) (ts : List Token) (p : Placed) (head own tail : List Char) :
    Prop where
  source : source.toList = head ++ (own ++ tail)
  offset : p.offset = Text.utf8Length head
  front : Lexed head ts (own ++ tail)
  token : ∃ c more, own = c :: more ∧ Lexeme.read c (more ++ tail) = .token p.token more.length

namespace Lexed

/-- Only gaps stand in front of the first token. -/
theorem first (lexed : Lexed text (t :: ts) rest) :
    ∃ gap c more behind, text = gap ++ c :: (more ++ behind) ∧
      Lexed gap [] (c :: (more ++ behind) ++ rest) ∧
      Lexeme.read c (more ++ (behind ++ rest)) = .token t more.length ∧ Lexed behind ts rest := by
  generalize same : t :: ts = all at lexed
  induction lexed with
  | nil => contradiction
  | @gap c more text rest all read behind ih =>
    obtain ⟨gap, d, own, after, rfl, front, first, others⟩ := ih same
    refine ⟨c :: (more ++ gap), d, own, after, by simp, .gap ?_ front, first, others⟩
    rwa [List.append_assoc] at read
  | @token c more text rest u all read behind =>
    cases same
    exact ⟨[], c, more, text, rfl, .nil _, read, behind⟩

end Lexed

theorem Stands.scan {head own tail : List Char} (stands : Stands source ts p head own tail) :
    ∃ front : List Placed, front.map (·.token) = ts ∧
      (∀ q ∈ front, q.offset < p.offset) ∧
      ∀ other, (other = tail ∨ ∃ c, other.head? = some c ∧ Token.isBlank c) →
        Placed.scan 0 0 (head ++ (own ++ other)) =
          (front ++ p :: ·) <$> Placed.scan 0 (Text.utf8Length (head ++ own)) other := by
  obtain ⟨-, offset, lexed, c, more, rfl, read⟩ := stands
  obtain ⟨front, tokens, inside, scanned⟩ := lexed.exists_placed 0
  simp only [Nat.zero_add] at inside scanned
  refine ⟨front, tokens, fun q mem => offset ▸ (inside q mem).2, fun other fits => ?_⟩
  have again : Lexeme.read c (more ++ other) = .token p.token more.length := by
    refine (Lexeme.covers_of_read read rfl).stable other fun d next => ?_
    rcases fits with rfl | ⟨e, first, blank⟩
    · exact Or.inl next
    · obtain rfl := Option.some.inj (next.symm.trans first)
      exact Or.inr blank
  have placed : (⟨p.token, Text.utf8Length head⟩ : Placed) = p := by rw [← offset]
  rw [scanned (c :: more ++ other) rfl, List.cons_append, Placed.scan_token again,
    Functor.map_map, placed, Text.utf8Length_append]

/-- Every token of a source stands in it at its offset. -/
theorem exists_stands (read : Token.read source = .ok (before ++ p :: behind)) :
    ∃ head own tail, Stands source (before.map (·.token)) p head own tail := by
  have lexed := lexed_iff_read.mpr ⟨_, read, rfl⟩
  rw [List.map_append, List.map_cons] at lexed
  obtain ⟨head, tail, same, front, back⟩ := lexed.cut
  obtain ⟨gap, c, more, rest, rfl, blank, first, -⟩ := back.first
  rw [List.append_nil] at front blank first
  have whole : Lexed (head ++ gap) (before.map (·.token)) (c :: (more ++ rest)) := by
    simpa using front.append blank
  have stands : Stands source (before.map (·.token)) ⟨p.token, Text.utf8Length (head ++ gap)⟩
      (head ++ gap) (c :: more) rest := ⟨by simp [same], rfl, whole, c, more, rfl, first⟩
  -- The scan places the token there, and it is the one that was read.
  obtain ⟨front, tokens, -, scanned⟩ := stands.scan
  have again := scanned rest (Or.inl rfl)
  rw [← stands.source, ← Token.read, read, eq_comm, map_ok_iff] at again
  obtain ⟨others, -, split⟩ := again
  have length : front.length = before.length := by simpa using congrArg List.length tokens
  rw [(List.cons.inj (List.append_inj split length).2).1] at stands
  exact ⟨_, _, _, stands⟩

end FirmwareMeta.Devicetree
