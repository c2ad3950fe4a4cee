import FirmwareMeta.Proofs.Devicetree.Positions
import FirmwareMeta.Devicetree.Parser

/-! White space and comments carry no meaning. Behind a token, or at the start, a blank and any of
them may be put in: the tree is the same, and so is a fault, which moves along with the text. -/
namespace FirmwareMeta.Devicetree

/-- White space, comments to the end of their line, and comments with stars. -/
inductive Gap : List Char → Prop where
  | nil : Gap []
  | blank (blank : Token.isBlank c) (rest : Gap text) : Gap (c :: text)
  | line (inside : '\n' ∉ comment) (rest : Gap text) :
      Gap ('/' :: '/' :: (comment ++ '\n' :: text))
  | block (inside : ¬['*', '/'] <:+: comment) (rest : Gap text) :
      Gap ('/' :: '*' :: (comment ++ '*' :: '/' :: text))

/-- Where a byte of a source is found when some bytes are put in at a place. -/
def moved (place size offset : Nat) : Nat := if offset < place then offset else offset + size

def Placed.move (place size : Nat) (p : Placed) : Placed :=
  { p with offset := moved place size p.offset }

def Fault.move (place size : Nat) (f : Fault) : Fault :=
  { f with offset := moved place size f.offset }

variable {source : String} {c : Char} {text comment rest head own tail : List Char} {p : Placed}
  {ts : List Token} {place size offset : Nat}

/-! Gaps are passed over -/

theorem commentLength?_comment (inside : ¬['*', '/'] <:+: comment) (rest : List Char) :
    Token.commentLength? (comment ++ '*' :: '/' :: rest) = some (comment.length + 2) := by
  induction comment with
  | nil => rfl
  | cons c comment ih =>
    have behind := ih fun mem => inside (List.infix_cons mem)
    rw [List.cons_append, Token.commentLength?.eq_2, behind]
    · rfl
    · -- The comment would have ended with its first two characters.
      rintro other rfl same
      cases comment with
      | nil => cases same
      | cons d comment =>
        cases same
        exact inside ⟨[], comment, rfl⟩

/-- A text that no token comes from, whatever stands behind it. -/
def PassedOver (text : List Char) : Prop :=
  ∀ offset rest, Placed.scan 0 offset (text ++ rest) =
    Placed.scan 0 (offset + Text.utf8Length text) rest

namespace PassedOver

theorem append {front back : List Char} (first : PassedOver front) (second : PassedOver back) :
    PassedOver (front ++ back) := by
  intro offset rest
  rw [List.append_assoc, first, second, Text.utf8Length_append, Nat.add_assoc]

theorem blank (blank : Token.isBlank c) : PassedOver [c] := by
  intro offset rest
  have read : Lexeme.read c ([] ++ rest) = .gap 0 := by
    rcases blank_cases blank with rfl | rfl | rfl | rfl | rfl <;> rfl
  exact Placed.scan_gap read offset

theorem line (inside : '\n' ∉ comment) : PassedOver ('/' :: '/' :: (comment ++ ['\n'])) := by
  intro offset rest
  have within : ∀ d ∈ comment, decide (d ≠ '\n') = true :=
    fun d mem => decide_eq_true fun same => inside (same ▸ mem)
  have longest : (comment ++ '\n' :: rest).takeWhile (· ≠ '\n') = comment :=
    takeWhile_run within (by simp)
  have read : Lexeme.read '/' (('/' :: comment) ++ '\n' :: rest) =
      .gap ('/' :: comment).length := by
    change Lexeme.ofSlash ('/' :: (comment ++ '\n' :: rest)) = _
    rw [Lexeme.ofSlash, longest]
    rfl
  have newline := PassedOver.blank (c := '\n') rfl
  have split : '/' :: '/' :: (comment ++ ['\n']) = ('/' :: '/' :: comment) ++ ['\n'] := rfl
  rw [split, List.append_assoc, Text.utf8Length_append, ← Nat.add_assoc, ← newline]
  exact Placed.scan_gap read offset

theorem block (inside : ¬['*', '/'] <:+: comment) :
    PassedOver ('/' :: '*' :: (comment ++ ['*', '/'])) := by
  intro offset rest
  have read : Lexeme.read '/' (('*' :: (comment ++ ['*', '/'])) ++ rest) =
      .gap ('*' :: (comment ++ ['*', '/'])).length := by
    rw [List.cons_append, List.append_assoc]
    change Lexeme.ofSlash ('*' :: (comment ++ '*' :: '/' :: rest)) = _
    simp [Lexeme.ofSlash, commentLength?_comment inside]
  exact Placed.scan_gap read offset

end PassedOver

theorem Gap.passedOver (gap : Gap text) : PassedOver text := by
  induction gap with
  | nil => exact fun offset rest => rfl
  | blank blank _ ih => exact (PassedOver.blank blank).append ih
  | line inside _ ih => simpa using (PassedOver.line inside).append ih
  | block inside _ ih => simpa using (PassedOver.block inside).append ih

/-! Moved tokens -/

theorem moved_of_lt (front : offset < place) : moved place size offset = offset := if_pos front

theorem moved_of_le (behind : place ≤ offset) : moved place size offset = offset + size :=
  if_neg (Nat.not_lt.mpr behind)

theorem Placed.move_of_lt (front : p.offset < place) : p.move place size = p := by
  rw [move, moved_of_lt front]

theorem Placed.move_of_le (behind : place ≤ offset) (t : Token) :
    Placed.move place size ⟨t, offset⟩ = ⟨t, offset + size⟩ := by
  rw [move, moved_of_le behind]

theorem Fault.move_of_le (behind : place ≤ offset) (cause : Cause) :
    Fault.move place size ⟨offset, cause⟩ = ⟨offset + size, cause⟩ := by
  rw [move, moved_of_le behind]

/-- What is scanned behind the place is found behind what was put in. -/
theorem Placed.scan_move (skip : Nat) (behind : place ≤ offset) (text : List Char) :
    Placed.scan skip (offset + size) text =
      List.map (Placed.move place size) <$>
        (Placed.scan skip offset text).mapError (Fault.move place size) := by
  induction text generalizing skip offset with
  | nil => rfl
  | cons c text ih =>
    have later := fun skip => ih skip (Nat.le_add_right_of_le (k := c.utf8Size) behind)
    cases skip with
    | succ skip =>
      rw [Placed.scan, Placed.scan, Nat.add_right_comm]
      exact later skip
    | zero =>
      rw [Placed.scan, Placed.scan, Nat.add_right_comm]
      cases Lexeme.read c text with
      | gap more => exact later more
      | token t more =>
        dsimp only
        rw [later more]
        cases Placed.scan more (offset + c.utf8Size) text with
        | error fault => rfl
        | ok tokens =>
          rw [← Placed.move_of_le behind]
          rfl
      | fault cause =>
        dsimp only
        rw [← Fault.move_of_le behind]
        rfl

theorem State.run_move (s : State) (tokens : List Placed) :
    s.run (tokens.map (Placed.move place size)) =
      (s.run tokens).mapError (Fault.move place size) := by
  induction tokens generalizing s with
  | nil => rfl
  | cons t rest ih =>
    have same : (t.move place size).token = t.token := rfl
    rw [List.map_cons, State.run, State.run, same]
    cases s.step t.token with
    | ok next => exact ih next
    | error cause => rfl

theorem ofTokens_move {length : Nat} (behind : place ≤ length) (tokens : List Placed) :
    ofTokens (length + size) (tokens.map (Placed.move place size)) =
      (ofTokens length tokens).mapError (Fault.move place size) := by
  rw [ofTokens, ofTokens, State.run_move]
  cases State.start.run tokens with
  | error fault => rfl
  | ok s =>
    simp only [Except.mapError]
    cases s.finish with
    | ok tree => rfl
    | error cause =>
      dsimp only
      rw [← Fault.move_of_le behind]

/-! Sources with a gap more -/

/-- A gap is put in at a place where the scan goes on in the same way with it and without it. -/
theorem parse_insert {inserted : List Char} (front : List Placed)
    (text : source.toList = head ++ tail) (passed : PassedOver inserted)
    (before : ∀ p ∈ front, p.offset < Text.utf8Length head)
    (scanned : ∀ other, other = tail ∨ other = inserted ++ tail →
      Placed.scan 0 0 (head ++ other) = (front ++ ·) <$> Placed.scan 0 (Text.utf8Length head) other) :
    parse (String.ofList (head ++ (inserted ++ tail))) =
      (parse source).mapError (Fault.move (Text.utf8Length head) (Text.utf8Length inserted)) := by
  have size : source.utf8ByteSize = Text.utf8Length head + Text.utf8Length tail := by
    rw [← Text.utf8Length_append, ← text, ← Text.utf8ByteSize_ofList, String.ofList_toList]
  have new_size : (String.ofList (head ++ (inserted ++ tail))).utf8ByteSize =
      source.utf8ByteSize + Text.utf8Length inserted := by
    rw [Text.utf8ByteSize_ofList, Text.utf8Length_append, Text.utf8Length_append, size]
    omega
  have kept : front.map (Placed.move (Text.utf8Length head) (Text.utf8Length inserted)) = front :=
    (List.map_congr_left fun p mem => Placed.move_of_lt (before p mem)).trans (List.map_id front)
  rw [parse, parse, Token.read, Token.read, String.toList_ofList, new_size, text,
    scanned _ (Or.inl rfl), scanned _ (Or.inr rfl), passed, Placed.scan_move 0 (Nat.le_refl _)]
  cases Placed.scan 0 (Text.utf8Length head) tail with
  | error fault => rfl
  | ok tokens =>
    have behind : Text.utf8Length head ≤ source.utf8ByteSize := Nat.le.intro size.symm
    have moved : ofTokens (source.utf8ByteSize + Text.utf8Length inserted) _ = _ :=
      ofTokens_move behind (front ++ tokens)
    rw [List.map_append, kept] at moved
    exact moved

/-- A blank and a gap behind it change nothing at the start of a source, nor right behind any of its
tokens: the tree is the same, and a fault has the same cause, at the place where the text is
that it was at before. -/
theorem parse_insert_gap {gap : List Char} (meaningless : Gap gap) :
    (∀ source : String, parse (String.ofList (' ' :: gap ++ source.toList)) =
      (parse source).mapError (Fault.move 0 (Text.utf8Length (' ' :: gap)))) ∧
    (∀ source ts p head own tail, Stands source ts p head own tail →
      parse (String.ofList (head ++ own ++ (' ' :: gap ++ tail))) =
        (parse source).mapError
          (Fault.move (Text.utf8Length (head ++ own)) (Text.utf8Length (' ' :: gap)))) ∧
    ∀ source before p behind, Token.read source = .ok (before ++ p :: behind) →
      ∃ head own tail, Stands source (before.map (·.token)) p head own tail := by
  have passed : PassedOver (' ' :: gap) := (Gap.blank rfl meaningless).passedOver
  refine ⟨fun source => ?_, fun source ts p head own tail stands => ?_,
    fun source before p behind read => exists_stands read⟩
  · have scanned (other : List Char) : Placed.scan 0 0 ([] ++ other) =
        (([] : List Placed) ++ ·) <$> Placed.scan 0 (Text.utf8Length []) other := by
      rw [List.nil_append, Text.utf8Length_nil]
      exact (id_map _).symm
    have text : source.toList = [] ++ source.toList := rfl
    have inserted := parse_insert [] text passed (by simp) (fun other _ => scanned other)
    rwa [Text.utf8Length_nil, List.nil_append] at inserted
  · obtain ⟨front, -, before, scanned⟩ := stands.scan
    have text : source.toList = head ++ own ++ tail := by rw [stands.source, List.append_assoc]
    refine parse_insert (front ++ [p]) text passed ?_ fun other fits => ?_
    · obtain ⟨c, more, rfl, -⟩ := stands.token
      have size := c.utf8Size_pos
      have length : Text.utf8Length (head ++ c :: more) =
          p.offset + (c.utf8Size + Text.utf8Length more) := by
        rw [Text.utf8Length_append, Text.utf8Length_cons, stands.offset]
      intro q mem
      rcases List.mem_append.mp mem with mem | mem
      · have := before q mem
        omega
      · obtain rfl := List.mem_singleton.mp mem
        omega
    · rw [List.append_assoc, scanned]
      · simp
      · rcases fits with rfl | rfl
        · exact Or.inl rfl
        · exact Or.inr ⟨' ', rfl, rfl⟩

/-- A comment with a brace and a quote, a tab, and one with a star and a slash. -/
def remarks : List Char := "/* \x7b \x22 **/\t// /* ;\n".toList

theorem gap_remarks : Gap remarks := by
  have within : '\n' ∉ " /* ;".toList := by decide
  have inside : ¬['*', '/'] <:+: " \x7b \x22 *".toList := by decide
  exact .block inside (.blank rfl (.line within .nil))

theorem stands_name : Stands "/ \x7b x \x7d" [.slash, .openBrace] ⟨.word "x", 4⟩
    "/ \x7b ".toList "x".toList " \x7d".toList := by
  refine ⟨rfl, rfl, ?_, 'x', [], rfl, by decide⟩
  refine .sign ?_ (.blank ?_ (.sign ?_ (.blank ?_ (.nil _)))) <;> decide

theorem parse_insert_gap_remarks :
    parse (String.ofList (' ' :: remarks ++ "/\x7b\x7d;".toList)) = .ok ⟨Node.root⟩ ∧
    parse "/ \x7b x \x7d" = .error ⟨6, .expected .definition⟩ ∧
    parse (String.ofList ("/ \x7b ".toList ++ "x".toList ++ (' ' :: remarks ++ " \x7d".toList))) =
      .error ⟨26, .expected .definition⟩ := by
  have accepted : parse "/\x7b\x7d;" = .ok ⟨Node.root⟩ := rfl
  have refused : parse "/ \x7b x \x7d" = .error ⟨6, .expected .definition⟩ := rfl
  obtain ⟨first, behind, -⟩ := parse_insert_gap gap_remarks
  have front := first "/\x7b\x7d;"
  have inside := behind _ _ _ _ _ _ stands_name
  rw [accepted] at front
  rw [refused] at inside
  exact ⟨front, refused, inside⟩

end FirmwareMeta.Devicetree
