import FirmwareMeta.Proofs.Devicetree.Faults
import FirmwareMeta.Proofs.Text.Ends
import FirmwareMeta.Proofs.Text.Notation

/-! What words mean between angle brackets and between square brackets: the integer literals of C
and pairs of hexadecimal digits. The parser takes these, with a plus sign in front of digits too,
and refuses every other word where it stands. -/
namespace FirmwareMeta.Devicetree

namespace Grammar

/-- An integer without its suffix. A decimal one starts with a zero only if it is zero. -/
inductive Integer (plus : Bool) : List Char → Nat → Prop where
  | decimal (written : Numeral.Written plus 10 text n)
      (plain : text.head? = some '0' → text = ['0']) : Integer plus text n
  | octal (written : Numeral.Written plus 8 text n) : Integer plus ('0' :: text) n
  | hexadecimal (mark : x = 'x' ∨ x = 'X') (written : Numeral.Written plus 16 text n) :
      Integer plus ('0' :: x :: text) n

/-- An integer that a cell can hold, with any letters of a suffix behind it. -/
def Literal (plus : Bool) (word : String) (value : UInt64) : Prop :=
  ∃ text suffix, word.toList = text ++ suffix ∧ (∀ c ∈ suffix, c ∈ ['U', 'u', 'L', 'l']) ∧
    Integer plus text value.toNat

/-- Bytes of two hexadecimal digits each. -/
inductive Octets (plus : Bool) : List UInt8 → List Char → Prop where
  | nil : Octets plus [] []
  | cons {byte : UInt8} (pair : Numeral.Written plus 16 [high, low] byte.toNat)
      (rest : Octets plus bytes text) : Octets plus (byte :: bytes) (high :: low :: text)

end Grammar

variable {plus : Bool} {text : List Char} {word : String} {n : Nat} {s next : State}
  {d : Definition} {cells : List Cell} {bytes list : List UInt8}

/-! Numbers of cells -/

namespace Grammar

/-- No octal numeral begins with the mark of a hexadecimal one. -/
theorem ne_mark_of_octal {c : Char} {rest : List Char}
    (written : Numeral.Written plus 8 (c :: rest) n) : ¬(c = 'x' ∨ c = 'X') := by
  have marks : Numeral.digit? 8 'x' = none ∧ Numeral.digit? 8 'X' = none := by decide
  rintro mark
  rcases written.isDigit_first with rfl | ⟨value, digit⟩
  · revert mark
    decide
  · rw [← Numeral.digit?_eq_some_iff (by decide)] at digit
    rcases mark with rfl | rfl
    · exact absurd (marks.1.symm.trans digit) (by simp)
    · exact absurd (marks.2.symm.trans digit) (by simp)

theorem integer_hexadecimal_iff {c : Char} {rest : List Char} (mark : c = 'x' ∨ c = 'X') :
    Integer plus ('0' :: c :: rest) n ↔ Numeral.Written plus 16 rest n := by
  constructor
  · rintro (⟨-, plain⟩ | octal | ⟨-, written⟩)
    · exact absurd (plain rfl) (by simp)
    · exact absurd mark (ne_mark_of_octal octal)
    · exact written
  · exact .hexadecimal mark

theorem integer_octal_iff {c : Char} {rest : List Char} (other : ¬(c = 'x' ∨ c = 'X')) :
    Integer plus ('0' :: c :: rest) n ↔ Numeral.Written plus 8 (c :: rest) n := by
  constructor
  · rintro (⟨-, plain⟩ | written | ⟨mark, -⟩)
    · exact absurd (plain rfl) (by simp)
    · exact written
    · exact absurd mark other
  · exact .octal

theorem integer_plain_iff (plain : ∀ c rest, text ≠ '0' :: c :: rest) :
    Integer plus text n ↔ Numeral.Written plus 10 text n := by
  constructor
  · rintro (⟨written, -⟩ | written | ⟨mark, written⟩)
    · exact written
    · rename_i digits
      cases digits with
      | nil => exact absurd rfl written.ne_nil
      | cons c rest => exact absurd rfl (plain c rest)
    · exact absurd rfl (plain _ _)
  · intro written
    apply Integer.decimal written
    intro zero
    obtain ⟨rest, rfl⟩ := List.head?_eq_some_iff.mp zero
    cases rest with
    | nil => rfl
    | cons c rest => exact absurd rfl (plain c rest)

theorem Integer.isDigit_last {c : Char} (integer : Integer plus text n)
    (last : text.getLast? = some c) : ∃ value, Numeral.IsDigit 16 c value := by
  have wider : ∀ {radix}, radix ≤ 16 → (∃ value, Numeral.IsDigit radix c value) →
      ∃ value, Numeral.IsDigit 16 c value := by
    rintro radix known ⟨value, below, digit⟩
    exact ⟨value, below.trans_le known, digit⟩
  cases integer with
  | decimal written => exact wider (by decide) (written.isDigit_last last)
  | octal written =>
    rw [List.getLast?_cons_of_ne_nil written.ne_nil] at last
    exact wider (by decide) (written.isDigit_last last)
  | hexadecimal _ written =>
    rw [List.getLast?_cons_of_ne_nil (List.cons_ne_nil _ _),
      List.getLast?_cons_of_ne_nil written.ne_nil] at last
    exact written.isDigit_last last

end Grammar

theorem Cell.digits?_eq_some_iff (signs : '+' ∈ text → plus) :
    Cell.digits? text = some n ↔ Grammar.Integer plus text n ∧ n < Cell.limit := by
  unfold Cell.digits?
  split
  · rename_i rest
    rw [Numeral.read?_eq_some_iff (by decide) fun mem => signs (by simp [mem]),
      Grammar.integer_hexadecimal_iff (.inl rfl)]
  · rename_i rest
    rw [Numeral.read?_eq_some_iff (by decide) fun mem => signs (by simp [mem]),
      Grammar.integer_hexadecimal_iff (.inr rfl)]
  · rename_i c rest small capital
    rw [Numeral.read?_eq_some_iff (by decide) fun mem => signs (List.mem_cons_of_mem _ mem),
      Grammar.integer_octal_iff (not_or.mpr ⟨small, capital⟩)]
  · rename_i other
    rw [Numeral.read?_eq_some_iff (by decide) signs, Grammar.integer_plain_iff other]

/-- The words that are read as cells. -/
theorem Cell.ofWord?_eq_some_iff (signs : '+' ∈ word.toList → plus) {cell : Cell} :
    Cell.ofWord? word = some cell ↔
      ∃ value, Grammar.Literal plus word value ∧ cell = .number value := by
  have letters : ∀ c, Cell.isSuffix c ↔ c ∈ ['U', 'u', 'L', 'l'] := by
    intro c
    simp [Cell.isSuffix]
    grind
  have unlike : ∀ value < 16, ¬Cell.isSuffix (Nat.digitChar value) ∧
      ¬Cell.isSuffix (Nat.digitChar value).toUpper := by decide
  rw [Cell.ofWord?, Option.map_eq_some_iff]
  constructor
  · rintro ⟨n, read, rfl⟩
    obtain ⟨⟨suffix, parts, all⟩, -⟩ := Text.dropEnd_eq_iff.mp (rfl : Text.dropEnd Cell.isSuffix
      word.toList = _)
    have signed : '+' ∈ Text.dropEnd Cell.isSuffix word.toList → plus :=
      fun mem => signs (parts ▸ List.mem_append_left _ mem)
    obtain ⟨integer, small⟩ := (Cell.digits?_eq_some_iff signed).mp read
    have exactly : (UInt64.ofNat n).toNat = n := UInt64.toNat_ofNat_of_lt' small
    rw [← exactly] at integer
    exact ⟨.ofNat n, ⟨_, suffix, parts, fun c mem => (letters c).mp (all c mem), integer⟩, rfl⟩
  · rintro ⟨value, ⟨text, suffix, parts, all, integer⟩, rfl⟩
    have kept : Text.dropEnd Cell.isSuffix word.toList = text := by
      refine Text.dropEnd_eq_iff.mpr ⟨⟨suffix, parts, fun c mem => (letters c).mpr (all c mem)⟩, ?_⟩
      intro c last
      obtain ⟨digit, small, rfl | rfl⟩ := integer.isDigit_last last
      · exact (unlike digit small).1
      · exact (unlike digit small).2
    have signed : '+' ∈ text → plus := fun mem => signs (parts ▸ List.mem_append_left _ mem)
    refine ⟨value.toNat, ?_, by rw [UInt64.ofNat_toNat]⟩
    rw [kept, Cell.digits?_eq_some_iff signed]
    exact ⟨integer, value.toNat_lt⟩

/-! Bytes -/

namespace Grammar

theorem pairs_iff_octets (signs : '+' ∈ text → plus) :
    Pairs bytes text ↔ Octets plus bytes text := by
  constructor
  · intro pairs
    induction pairs with
    | nil => exact .nil
    | cons pair rest ih =>
      rename_i high low byte bytes text
      obtain ⟨written, small⟩ := (Numeral.read?_eq_some_iff (by decide)
        fun mem => signs (List.mem_append_left text mem)).mp pair
      have exactly : (UInt8.ofNat byte).toNat = byte := UInt8.toNat_ofNat_of_lt' small
      refine .cons (exactly.symm ▸ written) (ih fun mem => signs ?_)
      exact List.mem_append_right [high, low] mem
  · intro octets
    induction octets with
    | nil => exact .nil
    | cons pair rest ih =>
      rename_i high low bytes text byte
      have read := (Numeral.read?_eq_some_iff (by decide)
        fun mem => signs (List.mem_append_left text mem)).mpr ⟨pair, byte.toNat_lt⟩
      have more := Pairs.cons read (ih fun mem => signs (List.mem_append_right [high, low] mem))
      rwa [UInt8.ofNat_toNat] at more

/-! Words without a plus sign -/

theorem Integer.ne_plus (integer : Integer false text n) : '+' ∉ text := by
  cases integer with
  | decimal written => exact written.ne_plus (by decide)
  | octal written =>
    have digits := written.ne_plus (by decide)
    simpa using digits
  | hexadecimal mark written =>
    have digits := written.ne_plus (by decide)
    rcases mark with rfl | rfl <;> simpa using digits

theorem Literal.ne_plus {value : UInt64} (literal : Literal false word value) :
    '+' ∉ word.toList := by
  obtain ⟨text, suffix, parts, letters, integer⟩ := literal
  rw [parts, List.mem_append, not_or]
  refine ⟨integer.ne_plus, fun mem => ?_⟩
  exact absurd (letters '+' mem) (by decide)

theorem Octets.ne_plus (octets : Octets false bytes text) : '+' ∉ text := by
  induction octets with
  | nil => exact List.not_mem_nil
  | cons pair _ ih =>
    have digits := pair.ne_plus (by decide)
    simp only [List.mem_cons, List.not_mem_nil, or_false, not_or] at digits ⊢
    exact ⟨digits.1, digits.2, ih⟩

end Grammar

/-! Words in a source -/

theorem State.step_cells_ok_iff (mode : s.mode = .cells d cells)
    (signs : '+' ∈ word.toList → plus) : s.step (.word word) = .ok next ↔
      ∃ value, Grammar.Literal plus word value ∧
        next = s.goTo (.cells d (.number value :: cells)) := by
  have read : ∀ cell, Cell.ofWord? word = some cell ↔
      ∃ value, Grammar.Literal plus word value ∧ cell = .number value :=
    fun _ => Cell.ofWord?_eq_some_iff signs
  simp only [step, mode]
  constructor
  · intro stepped
    split at stepped
    · rename_i cell found
      obtain ⟨value, literal, rfl⟩ := (read cell).mp found
      exact ⟨value, literal, (Except.ok.inj stepped).symm⟩
    · contradiction
  · rintro ⟨value, literal, rfl⟩
    rw [(read _).mpr ⟨value, literal, rfl⟩]

theorem State.step_cells_error (mode : s.mode = .cells d cells)
    (signs : '+' ∈ word.toList → plus) (other : ¬∃ value, Grammar.Literal plus word value) :
    s.step (.word word) = .error (.invalidCell word) := by
  have unread : Cell.ofWord? word = none := by
    rw [Option.eq_none_iff_forall_ne_some]
    intro cell found
    obtain ⟨value, literal, -⟩ := (Cell.ofWord?_eq_some_iff signs).mp found
    exact other ⟨value, literal⟩
  simp only [step, mode, unread]

theorem State.step_bytes_ok_iff (mode : s.mode = .bytes d list)
    (signs : '+' ∈ word.toList → plus) : s.step (.word word) = .ok next ↔
      ∃ bytes, Grammar.Octets plus bytes word.toList ∧
        next = s.goTo (.bytes d (bytes.reverse ++ list)) := by
  simp only [step, mode, ← Grammar.pairs_iff_octets signs, ← Grammar.bytesOfWord_ok_iff]
  constructor
  · intro stepped
    split at stepped
    · rename_i bytes found
      exact ⟨bytes, found, (Except.ok.inj stepped).symm⟩
    · contradiction
  · rintro ⟨bytes, found, rfl⟩
    rw [found]

theorem State.step_bytes_error (mode : s.mode = .bytes d list)
    (signs : '+' ∈ word.toList → plus)
    (other : ¬∃ bytes, Grammar.Octets plus bytes word.toList) :
    s.step (.word word) =
      .error (if word.toList.length % 2 = 0 then .invalidByte else .oddDigits) := by
  have unread : Value.bytesOfPairs? word.toList = none := by
    rw [Option.eq_none_iff_forall_ne_some]
    intro bytes found
    rw [Grammar.bytesOfPairs?_eq_some_iff, Grammar.pairs_iff_octets signs] at found
    exact other ⟨bytes, found⟩
  simp only [step, mode, Value.bytesOfWord, unread]
  by_cases even : word.toList.length % 2 = 0
  · rw [if_neg (not_not.mpr even), if_pos even]
  · rw [if_pos even, if_neg even]

theorem parse_refused {source : String} {front behind : List Placed} {p : Placed} {cause : Cause}
    (read : Token.read source = .ok (front ++ p :: behind))
    (reached : State.start.Goes (front.map (·.token)) s) (refused : s.step p.token = .error cause) :
    parse source = .error ⟨p.offset, cause⟩ := by
  rw [parse, read]
  exact ofTokens_error_iff.mpr (.inl (reached.run_error refused))

/-- Between angle brackets a word is taken exactly if it is an integer literal, and the cell is its
value; between square brackets exactly if it is pairs of hexadecimal digits, and the bytes are
theirs. The source of any other word there is refused at that word. For a word without a plus sign
this is the notation of C. A plus sign is taken where it stands in front of digits. -/
theorem word_taken_iff {source : String} {front behind : List Placed} {offset : Nat}
    (read : Token.read source = .ok (front ++ ⟨.word word, offset⟩ :: behind))
    (reached : State.start.Goes (front.map (·.token)) s) (signs : '+' ∈ word.toList → plus) :
    (∀ d cells, s.mode = .cells d cells →
      (∀ next, s.step (.word word) = .ok next ↔ ∃ value, Grammar.Literal plus word value ∧
        next = s.goTo (.cells d (.number value :: cells))) ∧
      ((¬∃ value, Grammar.Literal plus word value) →
        parse source = .error ⟨offset, .invalidCell word⟩)) ∧
    ∀ d list, s.mode = .bytes d list →
      (∀ next, s.step (.word word) = .ok next ↔ ∃ bytes, Grammar.Octets plus bytes word.toList ∧
        next = s.goTo (.bytes d (bytes.reverse ++ list))) ∧
      ((¬∃ bytes, Grammar.Octets plus bytes word.toList) → parse source =
        .error ⟨offset, if word.toList.length % 2 = 0 then .invalidByte else .oddDigits⟩) := by
  constructor
  · intro d cells mode
    refine ⟨fun next => State.step_cells_ok_iff mode signs, fun other => ?_⟩
    exact parse_refused read reached (State.step_cells_error mode signs other)
  · intro d list mode
    refine ⟨fun next => State.step_bytes_ok_iff mode signs, fun other => ?_⟩
    exact parse_refused read reached (State.step_bytes_error mode signs other)

/-- An octal and a hexadecimal number, and a word that has an octal mark and no octal digit. -/
def wordSource : String := "/ \x7b p = <017 0xFFul 08>; \x7d;"

theorem word_taken_iff_suffix : ∃ front behind s,
    Token.read wordSource = .ok (front ++ ⟨.word "0xFFul", 13⟩ :: behind) ∧
      State.start.Goes (front.map (·.token)) s ∧ s.mode = .cells ⟨"p", []⟩ [.number 15] ∧
      s.step (.word "0xFFul") =
        .ok (s.goTo (.cells ⟨"p", []⟩ [.number 255, .number 15])) ∧
      parse wordSource = .error ⟨20, .invalidCell "08"⟩ := by
  have read : Token.read wordSource = .ok ([⟨.slash, 0⟩, ⟨.openBrace, 2⟩, ⟨.word "p", 4⟩,
      ⟨.equals, 6⟩, ⟨.openAngle, 8⟩, ⟨.word "017", 9⟩] ++ ⟨.word "0xFFul", 13⟩ ::
      [⟨.word "08", 20⟩, ⟨.closeAngle, 22⟩, ⟨.semicolon, 23⟩, ⟨.closeBrace, 25⟩,
        ⟨.semicolon, 26⟩]) := rfl
  have goes : State.start.Goes [.slash, .openBrace, .word "p", .equals, .openAngle, .word "017"]
      ⟨Node.root, [.start "/" "/" []], .cells ⟨"p", []⟩ [.number 15]⟩ := rfl
  have literal : Grammar.Literal false "0xFFul" 255 := by
    have digits : Numeral.Denotes 16 ['F', 'F'] 255 :=
      (Numeral.digits?_eq_some_iff (by decide)).mp rfl
    exact ⟨['0', 'x', 'F', 'F'], ['u', 'l'], rfl, by simp,
      .hexadecimal (.inl rfl) (.digits (by simp) digits)⟩
  have other : ¬∃ value, Grammar.Literal false "08" value := by
    rintro ⟨value, literal⟩
    have taken := (Cell.ofWord?_eq_some_iff (by decide)).mpr ⟨value, literal, rfl⟩
    contradiction
  have unsigned : '+' ∈ "0xFFul".toList → false := by decide
  have first := (word_taken_iff read goes unsigned).1 _ _ rfl
  have stepped := (first.1 _).mpr ⟨255, literal, rfl⟩
  have behind := read
  rw [List.append_cons] at behind
  have unsigned : '+' ∈ "08".toList → false := by decide
  have second := (word_taken_iff behind (goes.snoc stepped) unsigned).1 _ _ rfl
  exact ⟨_, _, _, read, goes, rfl, stepped, second.2 other⟩

/-- A plus sign behind the mark of a hexadecimal number, and one in the place of a digit. -/
def plusSource : String := "/ \x7b p = <0x+5>, [+5]; \x7d;"

/-- Both words are taken, and neither of them is an integer or made of digits. -/
theorem plus_sign_taken :
    (parse plusSource).toOption.map (·.root.properties) =
      some [⟨"p", [.cells [.number 5], .bytes [5]]⟩] ∧
    (∀ value, ¬Grammar.Literal false "0x+5" value) ∧
      ∀ bytes, ¬Grammar.Octets false bytes "+5".toList := by
  refine ⟨by decide +kernel, fun value literal => ?_, fun bytes octets => ?_⟩
  · exact absurd literal.ne_plus (by decide)
  · exact absurd octets.ne_plus (by decide)

end FirmwareMeta.Devicetree
