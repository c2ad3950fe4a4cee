import FirmwareMeta.Proofs.Devicetree.Lexing
import Mathlib.Data.List.TakeWhile

/-! Texts cut between lexemes. A lexeme hangs on its own characters and on the next one, and a
newline ends any of them: so what is read in front of a cut stays the same with other text behind
it. -/
namespace FirmwareMeta.Devicetree

/-- How many characters follow the first one, if there is no fault. -/
def Lexeme.more? : Lexeme → Option Nat
  | .gap more => some more
  | .token _ more => some more
  | .fault _ => none

/-- A character that no lexeme of the kind goes on with. -/
def Lexeme.endsAt : Lexeme → Char → Bool
  | .gap _, d => d == '\n'
  | _, d => Token.isBlank d

/-- A text may take the place of another one behind a lexeme. -/
def Lexeme.Admits (l : Lexeme) (tail other : List Char) : Prop :=
  ∀ d, other.head? = some d → tail.head? = some d ∨ l.endsAt d

/-- A reader takes a lexeme to be these characters, whatever else may stand behind them. -/
structure Lexeme.Covers (read : List Char → Lexeme) (l : Lexeme) (more tail : List Char) :
    Prop where
  length : l.more? = some more.length
  stable : ∀ other, l.Admits tail other → read (more ++ other) = l

/-- A text in front of another one is made of whole lexemes, of which these are the tokens. -/
inductive Lexed : List Char → List Token → List Char → Prop where
  | nil (rest : List Char) : Lexed [] [] rest
  | gap {c : Char} {more text rest : List Char} {ts : List Token}
      (read : Lexeme.read c (more ++ (text ++ rest)) = .gap more.length)
      (behind : Lexed text ts rest) : Lexed (c :: (more ++ text)) ts rest
  | token {c : Char} {more text rest : List Char} {t : Token} {ts : List Token}
      (read : Lexeme.read c (more ++ (text ++ rest)) = .token t more.length)
      (behind : Lexed text ts rest) : Lexed (c :: (more ++ text)) (t :: ts) rest

/-- A source in two parts with whole lexemes in each. -/
structure Cut (source : String) (ts us : List Token) (head tail : List Char) : Prop where
  text : source.toList = head ++ tail
  front : Lexed head ts tail
  back : Lexed tail us []

variable {c : Char} {t : Token} {ts us : List Token} {l : Lexeme} {n : Nat} {name : String}
  {text more head tail rest inside target : List Char} {source : String}

/-! Runs, comments and strings -/

/-- A run of characters and what stops it. -/
theorem exists_run (p : Char → Bool) (text : List Char) :
    ∃ body tail, text = body ++ tail ∧ text.takeWhile p = body ∧
      (∀ d ∈ body, p d) ∧ ∀ d, tail.head? = some d → p d = false := by
  refine ⟨text.takeWhile p, text.dropWhile p, List.takeWhile_append_dropWhile.symm, rfl,
    fun d mem => List.mem_takeWhile_imp mem, ?_⟩
  intro d next
  have stops := List.head?_dropWhile_not p text
  rw [next] at stops
  simpa using stops

theorem blank_cases (blank : Token.isBlank c) :
    c = ' ' ∨ c = '\t' ∨ c = '\r' ∨ c = '\n' ∨ c = '\x0c' := by
  simpa [Token.isBlank, or_assoc] using blank

theorem isWordChar_blank (blank : Token.isBlank c) : Token.isWordChar c = false := by
  rcases blank_cases blank with rfl | rfl | rfl | rfl | rfl <;> rfl

theorem isLabelChar_blank (blank : Token.isBlank c) : Token.isLabelChar c = false := by
  rcases blank_cases blank with rfl | rfl | rfl | rfl | rfl <;> rfl

/-- A comment is known by its end alone. -/
theorem exists_comment (read : Token.commentLength? text = some n) :
    ∃ body tail, text = body ++ '*' :: '/' :: tail ∧ n = body.length + 2 ∧
      ∀ other, Token.commentLength? (body ++ '*' :: '/' :: other) = some n := by
  induction text using Token.commentLength?.induct generalizing n with
  | case1 tail =>
    cases read
    exact ⟨[], tail, rfl, rfl, fun _ => rfl⟩
  | case2 d text longer ih =>
    rw [Token.commentLength?.eq_2 _ _ longer] at read
    obtain ⟨m, found, rfl⟩ := Option.map_eq_some_iff.mp read
    obtain ⟨body, tail, rfl, rfl, stable⟩ := ih found
    refine ⟨d :: body, tail, rfl, rfl, ?_⟩
    intro other
    rw [List.cons_append, Token.commentLength?.eq_2, stable]
    · rfl
    · intro rest star same
      cases body with
      | nil => cases same
      | cons e body =>
        cases same
        exact longer _ star rfl
  | case3 => contradiction

theorem Token.stringBody_plain (quote : c ≠ '\x22') (escape : c ≠ '\\') (text : List Char) :
    stringBody (c :: text) = (c :: (stringBody text).1, (stringBody text).2) := by
  rw [stringBody.eq_5 c text quote] <;> (intros; contradiction)

/-- A string is known by the quote that closes it. -/
theorem exists_string (read : Token.stringBody text = (inside, true)) :
    ∃ tail, text = inside ++ '\x22' :: tail ∧
      ∀ other, Token.stringBody (inside ++ '\x22' :: other) = (inside, true) := by
  induction text using Token.stringBody.induct generalizing inside with
  | case1 tail =>
    cases read
    exact ⟨tail, rfl, fun _ => rfl⟩
  | case2 tail => cases read
  | case3 d text line body closed found ih =>
    rw [Token.stringBody.eq_3 d text line, found] at read
    cases read
    obtain ⟨tail, rfl, stable⟩ := ih found
    refine ⟨tail, rfl, ?_⟩
    intro other
    simp only [List.cons_append]
    rw [Token.stringBody.eq_3 _ _ line, stable]
  | case4 => cases read
  | case5 d text quote newline pair alone body closed found ih =>
    have escape : d ≠ '\\' := by
      rintro rfl
      cases text with
      | nil => exact alone rfl rfl
      | cons e text => exact pair e text rfl rfl
    rw [Token.stringBody_plain quote escape, found] at read
    cases read
    obtain ⟨tail, rfl, stable⟩ := ih found
    refine ⟨tail, rfl, ?_⟩
    intro other
    rw [List.cons_append, Token.stringBody_plain quote escape, stable]
  | case6 => cases read

/-! What a lexeme hangs on -/

namespace Lexeme

/-- A run that a lexeme is made of is the same with another text behind it. -/
theorem Admits.run {p : Char → Bool} {body other : List Char} (admits : l.Admits tail other)
    (ends : ∀ d, l.endsAt d → p d = false) (within : ∀ d ∈ body, p d)
    (stop : ∀ d, tail.head? = some d → p d = false) : (body ++ other).takeWhile p = body := by
  apply takeWhile_run within
  intro d next
  rcases admits d next with same | ending
  · exact stop d same
  · exact ends d ending

/-- Only these characters make more of a slash. -/
theorem ofSlash_alone (alone : ∀ d, text.head? = some d →
      d ≠ '/' ∧ d ≠ '*' ∧ Token.isDirectiveStart d = false) :
    ofSlash text = .token .slash 0 := by
  cases text with
  | nil => rfl
  | cons d text =>
    obtain ⟨line, comment, letter⟩ := alone d rfl
    rw [ofSlash.eq_3 d text line comment, if_neg (by simp [letter])]

theorem covers_slash (alone : ∀ d, text.head? = some d →
      d ≠ '/' ∧ d ≠ '*' ∧ Token.isDirectiveStart d = false) :
    Covers ofSlash (.token .slash 0) [] text := by
  refine ⟨rfl, ?_⟩
  intro other admits
  apply ofSlash_alone
  intro d next
  rcases admits d next with first | blank
  · exact alone d first
  · rcases blank_cases blank with rfl | rfl | rfl | rfl | rfl <;> decide

theorem covers_line (line : List Char) :
    ∃ front tail, '/' :: line = front ++ tail ∧
      Covers ofSlash (.gap ((line.takeWhile (· ≠ '\n')).length + 1)) front tail := by
  obtain ⟨body, tail, rfl, run, within, stop⟩ := exists_run (· ≠ '\n') line
  rw [run]
  refine ⟨'/' :: body, tail, rfl, rfl, ?_⟩
  intro other admits
  have again : (body ++ other).takeWhile (· ≠ '\n') = body :=
    admits.run (by simp [endsAt]) within stop
  rw [List.cons_append, ofSlash, again]

theorem covers_comment (found : Token.commentLength? text = some n) :
    ∃ front tail, '*' :: text = front ++ tail ∧ Covers ofSlash (.gap (n + 1)) front tail := by
  obtain ⟨body, tail, rfl, rfl, stable⟩ := exists_comment found
  refine ⟨'*' :: (body ++ ['*', '/']), tail, by simp, by simp [more?], ?_⟩
  intro other _
  rw [List.cons_append, List.append_assoc, List.cons_append, List.cons_append, List.nil_append]
  simp only [ofSlash, stable]

theorem covers_directive {d : Char} (small : Token.isDirectiveStart d)
    (closed : ((d :: text).drop ((d :: text).takeWhile Token.isDirectiveChar).length).head? =
      some '/') :
    ∃ front tail, d :: text = front ++ tail ∧
      Covers ofSlash (.token .directive (((d :: text).takeWhile Token.isDirectiveChar).length + 1))
        front tail := by
  have char : Token.isDirectiveChar d := by simp [Token.isDirectiveChar, small]
  have line : d ≠ '/' := by
    rintro rfl
    contradiction
  have comment : d ≠ '*' := by
    rintro rfl
    contradiction
  obtain ⟨name, behind, rfl, run, within, -⟩ := exists_run Token.isDirectiveChar text
  rw [List.takeWhile_cons_of_pos char, run] at closed ⊢
  rw [← List.cons_append, List.drop_left] at closed
  obtain ⟨tail, rfl⟩ := List.head?_eq_some_iff.mp closed
  refine ⟨d :: (name ++ ['/']), tail, by simp, by simp [more?], ?_⟩
  intro other _
  have again : (name ++ '/' :: other).takeWhile Token.isDirectiveChar = name :=
    takeWhile_run within (by simp [Token.isDirectiveChar, Token.isDirectiveStart, Token.isDigit])
  rw [List.cons_append, List.append_assoc, List.singleton_append, ofSlash.eq_3 d _ line comment,
    if_pos small, List.takeWhile_cons_of_pos char, again]
  simp

theorem covers_ofSlash (read : ofSlash text = l) (known : l.more? ≠ none) :
    ∃ front tail, text = front ++ tail ∧ Covers ofSlash l front tail := by
  unfold ofSlash at read
  split at read
  · exact read ▸ covers_line _
  · split at read
    · rename_i found
      exact read ▸ covers_comment found
    · subst read
      contradiction
  · rename_i d line slash star
    split at read
    · rename_i small
      simp only at read
      split at read
      · rename_i closed
        exact read ▸ covers_directive small closed
      · subst read
        contradiction
    · rename_i letter
      subst read
      refine ⟨[], d :: line, rfl, covers_slash ?_⟩
      intro e next
      cases next
      exact ⟨slash, star, by simpa using letter⟩
  · subst read
    exact ⟨[], [], rfl, covers_slash (by simp)⟩

theorem covers_braces (closed : (text.takeWhile (· ≠ '\x7d')).length < text.length) :
    ∃ front tail, '\x7b' :: text = front ++ tail ∧
      Covers ofAmpersand
        (.token (.reference (String.ofList (text.takeWhile (· ≠ '\x7d'))))
          ((text.takeWhile (· ≠ '\x7d')).length + 2)) front tail := by
  obtain ⟨target, behind, rfl, run, within, stop⟩ := exists_run (· ≠ '\x7d') text
  rw [run] at closed ⊢
  cases behind with
  | nil => simp at closed
  | cons d tail =>
    obtain rfl : d = '\x7d' := by simpa using stop d rfl
    refine ⟨'\x7b' :: (target ++ ['\x7d']), tail, by simp, by simp [more?], ?_⟩
    intro other _
    have again : (target ++ '\x7d' :: other).takeWhile (· ≠ '\x7d') = target :=
      takeWhile_run within (by simp)
    rw [List.cons_append, List.append_assoc, List.singleton_append, ofAmpersand, again]
    simp

theorem covers_target {d : Char} (brace : d ≠ '\x7b') (letter : Token.isLetter d) :
    ∃ front tail, d :: text = front ++ tail ∧
      Covers ofAmpersand
        (.token (.reference (String.ofList ((d :: text).takeWhile Token.isLabelChar)))
          ((d :: text).takeWhile Token.isLabelChar).length) front tail := by
  have char : Token.isLabelChar d := by simp [Token.isLabelChar, letter]
  obtain ⟨target, tail, rfl, run, within, stop⟩ := exists_run Token.isLabelChar text
  rw [List.takeWhile_cons_of_pos char, run]
  refine ⟨d :: target, tail, rfl, rfl, ?_⟩
  intro other admits
  have again : (target ++ other).takeWhile Token.isLabelChar = target :=
    admits.run (fun _ => isLabelChar_blank) within stop
  rw [List.cons_append, ofAmpersand.eq_2 _ _ brace, if_pos letter,
    List.takeWhile_cons_of_pos char, again]

theorem covers_ofAmpersand (read : ofAmpersand text = l) (known : l.more? ≠ none) :
    ∃ front tail, text = front ++ tail ∧ Covers ofAmpersand l front tail := by
  unfold ofAmpersand at read
  split at read
  · simp only at read
    split at read
    · rename_i closed
      exact read ▸ covers_braces closed
    · subst read
      contradiction
  · rename_i brace
    split at read
    · rename_i letter
      exact read ▸ covers_target brace letter
    · subst read
      contradiction
  · subst read
    contradiction

theorem covers_ofQuote (read : ofQuote text = l) (known : l.more? ≠ none) :
    ∃ front tail, text = front ++ tail ∧ Covers ofQuote l front tail := by
  rcases found : Token.stringBody text with ⟨inside, closed⟩
  rw [ofQuote, found] at read
  cases closed with
  | false =>
    cases read
    contradiction
  | true =>
    cases read
    obtain ⟨tail, rfl, stable⟩ := exists_string found
    refine ⟨inside ++ ['\x22'], tail, by simp, by simp [more?], ?_⟩
    intro other _
    rw [List.append_assoc, List.singleton_append, ofQuote, stable]

theorem covers_ofName (c : Char) (text : List Char) :
    ∃ front tail, text = front ++ tail ∧ Covers (ofName c) (ofName c text) front tail := by
  obtain ⟨name, tail, rfl, run, within, stop⟩ := exists_run Token.isWordChar text
  rw [ofName, run, List.drop_left]
  split
  · rename_i named
    have colon : tail.head? = some ':' := by
      rw [Bool.and_eq_true_iff] at named
      simpa using named.2
    obtain ⟨tail, rfl⟩ := List.head?_eq_some_iff.mp colon
    refine ⟨name ++ [':'], tail, by simp, by simp [more?], ?_⟩
    intro other _
    have again : (name ++ ':' :: other).takeWhile Token.isWordChar = name :=
      takeWhile_run within (by simp [Token.isWordChar, Token.isWordStart, Token.isLabelChar,
        Token.isLetter, Token.isDigit])
    rw [List.append_assoc, List.singleton_append, ofName, again, List.drop_left]
    exact if_pos named
  · rename_i plain
    refine ⟨name, tail, rfl, rfl, ?_⟩
    intro other admits
    -- A colon behind the word would make a label of it, and a blank is none.
    have again : (name ++ other).takeWhile Token.isWordChar = name :=
      admits.run (fun _ => isWordChar_blank) within stop
    rw [ofName, again, List.drop_left]
    apply if_neg
    intro named
    apply plain
    rw [Bool.and_eq_true_iff] at named ⊢
    refine ⟨named.1, ?_⟩
    have colon : other.head? = some ':' := by simpa using named.2
    rcases admits ':' colon with first | blank
    · simpa using first
    · contradiction

/-- All other characters are lexemes of their own. -/
theorem covers_single (slash : c ≠ '/') (ampersand : c ≠ '&') (quote : c ≠ '\x22')
    (word : Token.isWordStart c = false) (known : (Lexeme.read c text).more? ≠ none) :
    Covers (Lexeme.read c) (Lexeme.read c text) [] text := by
  constructor
  · revert known
    fun_cases Lexeme.read c text <;> simp_all [more?]
  · intro other _
    unfold Lexeme.read
    split <;> simp_all

/-- What is read hangs only on its own characters and on the next one. -/
theorem exists_covers (known : (Lexeme.read c text).more? ≠ none) :
    ∃ front tail, text = front ++ tail ∧
      Covers (Lexeme.read c) (Lexeme.read c text) front tail := by
  by_cases slash : c = '/'
  · subst slash
    exact covers_ofSlash rfl known
  by_cases ampersand : c = '&'
  · subst ampersand
    exact covers_ofAmpersand rfl known
  by_cases quote : c = '\x22'
  · subst quote
    exact covers_ofQuote rfl known
  cases word : Token.isWordStart c with
  | true =>
    have named : Lexeme.read c = ofName c := funext (Lexeme.read_eq_ofName word)
    rw [named]
    exact covers_ofName c text
  | false => exact ⟨[], text, rfl, covers_single slash ampersand quote word known⟩

theorem covers_of_read (read : Lexeme.read c (more ++ tail) = l)
    (length : l.more? = some more.length) : Covers (Lexeme.read c) l more tail := by
  have known : (Lexeme.read c (more ++ tail)).more? ≠ none := by simp [read, length]
  obtain ⟨front, behind, same, covers⟩ := exists_covers known
  rw [read] at covers
  have long : more.length = front.length := by simpa [length] using covers.length
  obtain ⟨rfl, rfl⟩ := List.append_inj same long
  exact covers

/-- Only what begins a word is read as one. -/
theorem read_ne_word (start : Token.isWordStart c = false) :
    Lexeme.read c text ≠ .token (.word name) n := by
  have behindSlash : ofSlash text ≠ .token (.word name) n := by
    unfold ofSlash
    split
    · simp
    · split <;> simp
    · split
      · simp only
        split <;> simp
      · simp
    · simp
  have behindAmpersand : ofAmpersand text ≠ .token (.word name) n := by
    fun_cases ofAmpersand text <;> simp
  have behindQuote : ofQuote text ≠ .token (.word name) n := by
    fun_cases ofQuote text <;> simp
  fun_cases Lexeme.read c text <;> simp_all

theorem isWord_of_read (read : Lexeme.read c text = .token (.word name) n) :
    Token.isWord name := by
  cases start : Token.isWordStart c with
  | true =>
    rw [Lexeme.read_eq_ofName start, ofName] at read
    split at read
    · cases read
    · cases read
      have inside : ∀ d ∈ text.takeWhile Token.isWordChar, Token.isWordChar d :=
        fun d mem => List.mem_takeWhile_imp mem
      simp [Token.isWord, start]
  | false => exact absurd read (read_ne_word start)

end Lexeme

/-! Cuts -/

namespace Lexed

/-- A newline ends whatever stands in front of it. -/
theorem newline (lexed : Lexed text ts rest) (other : List Char) :
    Lexed text ts ('\n' :: other) := by
  have admits : ∀ (l : Lexeme) (text : List Char),
      l.Admits (text ++ rest) (text ++ '\n' :: other) := by
    intro l text d next
    cases text with
    | nil =>
      cases next
      refine .inr ?_
      cases l <;> rfl
    | cons => exact .inl next
  induction lexed with
  | nil => exact .nil _
  | gap read _ ih =>
    have covers := Lexeme.covers_of_read read rfl
    exact .gap (covers.stable _ (admits _ _)) (ih admits)
  | token read _ ih =>
    have covers := Lexeme.covers_of_read read rfl
    exact .token (covers.stable _ (admits _ _)) (ih admits)

theorem blank (read : Lexeme.read c (text ++ rest) = .gap 0) (behind : Lexed text ts rest) :
    Lexed (c :: text) ts rest :=
  @Lexed.gap c [] text rest ts read behind

theorem sign (read : Lexeme.read c (text ++ rest) = .token t 0) (behind : Lexed text ts rest) :
    Lexed (c :: text) (t :: ts) rest :=
  @Lexed.token c [] text rest t ts read behind

theorem append (first : Lexed text ts (tail ++ rest)) (second : Lexed tail us rest) :
    Lexed (text ++ tail) (ts ++ us) rest := by
  generalize same : tail ++ rest = behind at first
  induction first with
  | nil => exact second
  | gap read _ ih =>
    subst same
    rw [List.cons_append, List.append_assoc]
    exact .gap (by rwa [List.append_assoc]) (ih rfl)
  | token read _ ih =>
    subst same
    rw [List.cons_append, List.append_assoc]
    exact .token (by rwa [List.append_assoc]) (ih rfl)

/-- A text can be cut behind each of its tokens. -/
theorem cut (lexed : Lexed text (ts ++ us) rest) :
    ∃ head tail, text = head ++ tail ∧ Lexed head ts (tail ++ rest) ∧ Lexed tail us rest := by
  generalize same : ts ++ us = all at lexed
  induction lexed generalizing ts with
  | nil =>
    obtain ⟨rfl, rfl⟩ := List.append_eq_nil_iff.mp same
    exact ⟨[], [], rfl, .nil _, .nil _⟩
  | @gap c more text rest all read behind ih =>
    cases ts with
    | nil =>
      subst same
      exact ⟨[], c :: (more ++ text), rfl, .nil _, .gap read behind⟩
    | cons t ts =>
      obtain ⟨head, tail, rfl, first, second⟩ := ih same
      refine ⟨c :: (more ++ head), tail, by simp, .gap ?_ first, second⟩
      rwa [List.append_assoc] at read
  | @token c more text rest t all read behind ih =>
    cases ts with
    | nil =>
      subst same
      exact ⟨[], c :: (more ++ text), rfl, .nil _, .token read behind⟩
    | cons u ts =>
      cases same
      obtain ⟨head, tail, rfl, first, second⟩ := ih rfl
      refine ⟨c :: (more ++ head), tail, by simp, .token ?_ first, second⟩
      rwa [List.append_assoc] at read

theorem isWord_of_mem (lexed : Lexed text ts rest) (mem : .word name ∈ ts) :
    Token.isWord name := by
  induction lexed with
  | nil => cases mem
  | gap _ _ ih => exact ih mem
  | token read _ ih =>
    cases mem with
    | head => exact Lexeme.isWord_of_read read
    | tail _ mem => exact ih mem

/-- A text of whole lexemes is scanned by itself: its tokens are placed within it, and the scan goes
on behind it, with any text that begins as the one there does. -/
theorem exists_placed (lexed : Lexed text ts rest) (offset : Nat) :
    ∃ front : List Placed, front.map (·.token) = ts ∧
      (∀ p ∈ front, offset ≤ p.offset ∧ p.offset < offset + Text.utf8Length text) ∧
      ∀ other, other.head? = rest.head? → Placed.scan 0 offset (text ++ other) =
        (front ++ ·) <$> Placed.scan 0 (offset + Text.utf8Length text) other := by
  have admits : ∀ {other : List Char} (l : Lexeme) (text : List Char),
      other.head? = rest.head? → l.Admits (text ++ rest) (text ++ other) := by
    intro other l text same d next
    refine .inl ?_
    rw [List.head?_append] at next ⊢
    rwa [same] at next
  induction lexed generalizing offset with
  | nil rest => exact ⟨[], rfl, by simp, fun other _ => (id_map _).symm⟩
  | @gap c more text rest ts read _ ih =>
    obtain ⟨front, tokens, inside, scanned⟩ := ih (offset + Text.utf8Length (c :: more)) admits
    rw [← List.cons_append, Text.utf8Length_append, ← Nat.add_assoc]
    refine ⟨front, tokens, fun p mem => ⟨?_, (inside p mem).2⟩, fun other same => ?_⟩
    · exact (Nat.le_add_right _ _).trans (inside p mem).1
    · have again := (Lexeme.covers_of_read read rfl).stable _ (admits _ text same)
      rw [List.append_assoc, List.cons_append, Placed.scan_gap again, scanned other same]
  | @token c more text rest t ts read _ ih =>
    obtain ⟨front, tokens, inside, scanned⟩ := ih (offset + Text.utf8Length (c :: more)) admits
    rw [← List.cons_append, Text.utf8Length_append, ← Nat.add_assoc]
    refine ⟨⟨t, offset⟩ :: front, by rw [List.map_cons, tokens], ?_, fun other same => ?_⟩
    · have long : 0 < Text.utf8Length (c :: more) := by
        rw [Text.utf8Length_cons]
        exact Nat.add_pos_left c.utf8Size_pos _
      rw [List.forall_mem_cons]
      refine ⟨⟨Nat.le_refl _, by dsimp only; omega⟩, fun p mem => ⟨?_, (inside p mem).2⟩⟩
      exact (Nat.le_add_right _ _).trans (inside p mem).1
    · have again := (Lexeme.covers_of_read read rfl).stable _ (admits _ text same)
      rw [List.append_assoc, List.cons_append, Placed.scan_token again, scanned other same,
        Functor.map_map]
      rfl

theorem scans (lexed : Lexed text ts []) : Scans text ts := by
  intro offset
  obtain ⟨front, tokens, -, scanned⟩ := lexed.exists_placed offset
  refine ⟨front, ?_, tokens⟩
  have whole := scanned [] rfl
  rw [List.append_nil] at whole
  rw [whole, Placed.scan]
  exact congrArg Except.ok (List.append_nil front)

end Lexed

theorem Lexeme.exists_more (found : Lexeme.read c text = l) (length : l.more? = some n) :
    ∃ more tail, text = more ++ tail ∧ n = more.length := by
  have known : (Lexeme.read c text).more? ≠ none := by simp [found, length]
  obtain ⟨more, tail, same, covers⟩ := Lexeme.exists_covers known
  have long := covers.length
  rw [found, length] at long
  exact ⟨more, tail, same, Option.some.inj long⟩

theorem lexed_of_scan {offset : Nat} {placed : List Placed}
    (scanned : Placed.scan 0 offset text = .ok placed) : Lexed text (placed.map (·.token)) [] := by
  -- A lexeme is as long as it says, so the scan goes on with a shorter text.
  induction size : text.length using Nat.strong_induction_on generalizing text offset placed with
  | _ size ih =>
    cases text with
    | nil =>
      cases scanned
      exact .nil _
    | cons c text =>
      rw [Placed.scan] at scanned
      cases found : Lexeme.read c text with
      | fault cause => simp [found] at scanned
      | gap n =>
        obtain ⟨more, tail, rfl, rfl⟩ := Lexeme.exists_more found rfl
        have skipped := Placed.scan_skip more tail (offset + c.utf8Size)
        simp only [found, skipped] at scanned
        refine .gap (by rwa [List.append_nil]) (ih tail.length ?_ scanned rfl)
        rw [← size, List.length_cons, List.length_append]
        omega
      | token t n =>
        obtain ⟨more, tail, rfl, rfl⟩ := Lexeme.exists_more found rfl
        have skipped := Placed.scan_skip more tail (offset + c.utf8Size)
        simp only [found, skipped] at scanned
        split at scanned
        · rename_i behind rest
          cases scanned
          refine .token (by rwa [List.append_nil]) (ih tail.length ?_ rest rfl)
          rw [← size, List.length_cons, List.length_append]
          omega
        · contradiction

/-- A source can be read where it is made of whole lexemes. -/
theorem lexed_iff_read :
    Lexed source.toList ts [] ↔
      ∃ placed, Token.read source = .ok placed ∧ placed.map (·.token) = ts := by
  constructor
  · intro lexed
    exact lexed.scans 0
  · rintro ⟨placed, read, rfl⟩
    exact lexed_of_scan read

theorem Cut.lexed (cut : Cut source ts us head tail) : Lexed source.toList (ts ++ us) [] := by
  rw [cut.text]
  exact Lexed.append (by rw [List.append_nil]; exact cut.front) cut.back

/-- A source that can be read can be cut behind each of its tokens. -/
theorem exists_cut {placed : List Placed} (read : Token.read source = .ok placed)
    (tokens : placed.map (·.token) = ts ++ us) : ∃ head tail, Cut source ts us head tail := by
  have lexed := lexed_iff_read.mpr ⟨placed, read, tokens⟩
  obtain ⟨head, tail, same, front, back⟩ := lexed.cut
  rw [List.append_nil] at front
  exact ⟨head, tail, same, front, back⟩

/-- The text that closes a node and opens one again. -/
def reopening (target : List Char) : List Char :=
  '\n' :: '\x7d' :: ';' :: ' ' :: (target ++ [' ', '\x7b'])

theorem lexed_reopening (reads : t.Reads target) (rest : List Char) :
    Lexed (reopening target) [.closeBrace, .semicolon, t, .openBrace] rest := by
  obtain ⟨c, more, rfl, read⟩ := reads
  have brace : Lexed [' ', '\x7b'] [.openBrace] rest := .blank rfl (.sign rfl (.nil rest))
  have opening : Lexed (c :: (more ++ [' ', '\x7b'])) [t, .openBrace] rest :=
    .token (read _ (ends_blank _)) brace
  exact .blank rfl (.sign rfl (.sign rfl (.blank rfl opening)))

/-- Between the parts of a source a node can be closed and opened again. -/
theorem Cut.reopen (cut : Cut source ts us head tail) (reads : t.Reads target) :
    Lexed (head ++ reopening target ++ tail)
      (ts ++ [.closeBrace, .semicolon, t, .openBrace] ++ us) [] := by
  have front : Lexed head ts (reopening target ++ tail) := cut.front.newline _
  have middle := front.append (lexed_reopening reads tail)
  exact Lexed.append (by rwa [List.append_nil]) cut.back

end FirmwareMeta.Devicetree
