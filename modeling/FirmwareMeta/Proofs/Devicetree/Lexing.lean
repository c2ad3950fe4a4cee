import FirmwareMeta.Devicetree.Printer
import FirmwareMeta.Proofs.Text.Line

/-! Tokens that are spelled out are read again. A blank behind each of them keeps the longest
match from running into the next. -/
namespace FirmwareMeta.Devicetree

variable {t : Token} {ts : List Token} {c : Char} {name : String} {text body rest : List Char}
  {p : Char → Bool}

/-- The source is at its end, or goes on with a blank. -/
def Ends (rest : List Char) : Prop := ∀ c, rest.head? = some c → c = ' '

theorem ends_nil : Ends [] := by simp [Ends]

theorem ends_blank (rest : List Char) : Ends (' ' :: rest) := by simp [Ends]

/-- A run of characters goes as far as they are all of a kind. -/
theorem takeWhile_run (inside : ∀ c ∈ body, p c) (stop : ∀ c, rest.head? = some c → p c = false) :
    (body ++ rest).takeWhile p = body := by
  rw [List.takeWhile_append_of_pos inside, List.append_right_eq_self]
  cases rest with
  | nil => rfl
  | cons c rest => exact List.takeWhile_cons_of_neg (by simp [stop c rfl])

/-- A text is a token of its own wherever the source can end behind it. -/
def Token.Reads (t : Token) (text : List Char) : Prop :=
  ∃ c more, text = c :: more ∧
    ∀ rest, Ends rest → Lexeme.read c (more ++ rest) = .token t more.length

/-! Words and labels -/

theorem Lexeme.read_eq_ofName (start : Token.isWordStart c) (rest : List Char) :
    Lexeme.read c rest = Lexeme.ofName c rest := by
  have visible : Token.isBlank c = false := by
    cases blank : Token.isBlank c with
    | false => rfl
    | true =>
      simp only [Token.isBlank, Bool.or_eq_true, beq_iff_eq] at blank
      rcases blank with (((rfl | rfl) | rfl) | rfl) | rfl <;> contradiction
  unfold Lexeme.read
  split <;> first | contradiction | skip
  rw [if_neg (by simp [visible]), if_pos start]

theorem Token.reads_word (word : isWord name) : (Token.word name).Reads name.toList := by
  rw [isWord] at word
  split at word
  · rename_i c more letters
    obtain ⟨start, inside⟩ := Bool.and_eq_true_iff.mp word
    refine ⟨c, more, letters, ?_⟩
    intro rest ends
    have longest : (more ++ rest).takeWhile isWordChar = more := by
      apply takeWhile_run (List.all_eq_true.mp inside)
      intro d next
      rw [ends d next]
      rfl
    have behind : (rest.head? == some ':') = false := by
      cases next : rest.head? with
      | none => rfl
      | some d =>
        rw [ends d next]
        rfl
    have same : String.ofList (c :: more) = name := by rw [← letters, String.ofList_toList]
    rw [Lexeme.read_eq_ofName start, Lexeme.ofName, longest, List.drop_left, behind, Bool.and_false,
      if_neg Bool.false_ne_true, same]
  · contradiction

theorem Token.reads_label (identifier : isIdentifier name) :
    (Token.label name).Reads (name.toList ++ [':']) := by
  rw [isIdentifier] at identifier
  split at identifier
  · rename_i c more letters
    obtain ⟨letter, inside⟩ := Bool.and_eq_true_iff.mp identifier
    refine ⟨c, more ++ [':'], by rw [letters, List.cons_append], ?_⟩
    intro rest ends
    have all : (c :: more).all isLabelChar := by
      rw [List.all_cons, isLabelChar, letter, Bool.true_or, Bool.true_and]
      exact inside
    have word : ∀ d ∈ c :: more, isWordStart d := by
      intro d mem
      simp [isWordStart, List.all_eq_true.mp all d mem]
    have longest : (more ++ ':' :: rest).takeWhile isWordChar = more := by
      apply takeWhile_run
      · intro d mem
        simp [isWordChar, word d (List.mem_cons_of_mem _ mem)]
      · simp [isWordChar, isWordStart, isLabelChar, isLetter, isDigit]
    have same : String.ofList (c :: more) = name := by rw [← letters, String.ofList_toList]
    rw [Lexeme.read_eq_ofName (word c List.mem_cons_self), Lexeme.ofName, List.append_assoc,
      List.singleton_append, longest, List.drop_left, letter, all, same, List.length_append]
    rfl
  · contradiction

/-! References and strings -/

theorem Token.reads_reference (target : isTarget name) :
    (Token.reference name).Reads ('&' :: '\x7b' :: name.toList ++ ['\x7d']) := by
  refine ⟨'&', '\x7b' :: name.toList ++ ['\x7d'], rfl, ?_⟩
  intro rest ends
  have longest : (name.toList ++ '\x7d' :: rest).takeWhile (· ≠ '\x7d') = name.toList := by
    apply takeWhile_run (List.all_eq_true.mp target)
    simp
  have closed : name.toList.length < (name.toList ++ '\x7d' :: rest).length := by simp
  change Lexeme.ofAmpersand ('\x7b' :: name.toList ++ ['\x7d'] ++ rest) = _
  rw [List.append_assoc, List.singleton_append, List.cons_append, Lexeme.ofAmpersand, longest]
  simp

theorem Token.stringBody_escape (value rest : List Char) :
    stringBody (value.flatMap escape ++ '\x22' :: rest) = (value.flatMap escape, true) := by
  induction value with
  | nil => rfl
  | cons c value ih =>
    rw [List.flatMap_cons, List.append_assoc]
    by_cases special : c = '\x22' ∨ c = '\\'
    · have escaped : escape c = ['\\', c] := if_pos special
      rcases special with rfl | rfl <;> simp [escaped, stringBody, ih]
    · have plain : escape c = [c] := if_neg special
      rw [not_or] at special
      rw [plain, List.singleton_append, stringBody.eq_def]
      simp [special, ih]

theorem Token.unescape_escape (value : List Char) : unescape (value.flatMap escape) = value := by
  induction value with
  | nil => rfl
  | cons c value ih =>
    rw [List.flatMap_cons]
    by_cases special : c = '\x22' ∨ c = '\\'
    · have escaped : escape c = ['\\', c] := if_pos special
      rcases special with rfl | rfl <;> simp [escaped, unescape, unescaped, ih]
    · have plain : escape c = [c] := if_neg special
      rw [not_or] at special
      rw [plain, List.singleton_append, unescape.eq_def]
      simp [special, ih]

theorem Token.reads_text (value : String) :
    (Token.text value).Reads ('\x22' :: value.toList.flatMap escape ++ ['\x22']) := by
  refine ⟨'\x22', value.toList.flatMap escape ++ ['\x22'], rfl, ?_⟩
  intro rest ends
  change Lexeme.ofQuote _ = _
  rw [List.append_assoc, List.singleton_append, Lexeme.ofQuote, stringBody_escape]
  simp [unescape_escape]

/-! Tokens one behind the other -/

/-- A token that has a spelling. -/
def Token.spellable : Token → Bool
  | label name => isIdentifier name
  | reference target => isTarget target
  | word name => isWord name
  | _ => true

theorem Token.reads_slash : Token.slash.Reads ['/'] := by
  refine ⟨'/', [], rfl, ?_⟩
  intro rest ends
  cases rest with
  | nil => rfl
  | cons c rest =>
    rw [ends c rfl]
    rfl

theorem Token.reads_spell (spellable : t.spellable) : t.Reads t.spell := by
  cases t with
  | label name => exact reads_label spellable
  | reference target => exact reads_reference spellable
  | text value => exact reads_text value
  | word name => exact reads_word spellable
  | slash => exact reads_slash
  | directive => exact ⟨'/', _, rfl, fun _ _ => rfl⟩
  | _ => exact ⟨_, [], rfl, fun _ _ => rfl⟩

/-- The tokens of a text, wherever it starts. -/
def Scans (text : List Char) (ts : List Token) : Prop :=
  ∀ offset, ∃ placed, Placed.scan 0 offset text = .ok placed ∧ placed.map Placed.token = ts

theorem scans_nil : Scans [] [] := fun _ => ⟨[], rfl, rfl⟩

theorem Scans.blank (scans : Scans rest ts) : Scans (' ' :: rest) ts :=
  fun offset => scans (offset + ' '.utf8Size)

/-- The characters of a lexeme behind the first one are passed over. -/
theorem Placed.scan_skip (text rest : List Char) (offset : Nat) :
    Placed.scan text.length offset (text ++ rest) =
      Placed.scan 0 (offset + Text.utf8Length text) rest := by
  induction text generalizing offset with
  | nil => rfl
  | cons c text ih =>
    rw [Text.utf8Length_cons, ← Nat.add_assoc]
    exact ih (offset + c.utf8Size)

/-- A gap is passed over, and the next lexeme stands behind its last character. -/
theorem Placed.scan_gap {more : List Char} (read : Lexeme.read c (more ++ rest) = .gap more.length)
    (offset : Nat) : Placed.scan 0 offset (c :: (more ++ rest)) =
      Placed.scan 0 (offset + Text.utf8Length (c :: more)) rest := by
  rw [Text.utf8Length_cons, ← Nat.add_assoc, ← Placed.scan_skip, Placed.scan]
  simp only [read]

theorem Placed.scan_token {more : List Char}
    (read : Lexeme.read c (more ++ rest) = .token t more.length) (offset : Nat) :
    Placed.scan 0 offset (c :: (more ++ rest)) =
      (⟨t, offset⟩ :: ·) <$> Placed.scan 0 (offset + Text.utf8Length (c :: more)) rest := by
  rw [Text.utf8Length_cons, ← Nat.add_assoc, ← Placed.scan_skip, Placed.scan]
  simp only [read]
  split <;> simp_all [Functor.map, Except.map]

theorem Scans.token (reads : t.Reads text) (ends : Ends rest) (scans : Scans rest ts) :
    Scans (text ++ rest) (t :: ts) := by
  intro offset
  obtain ⟨c, more, rfl, read⟩ := reads
  obtain ⟨placed, scanned, same⟩ := scans (offset + Text.utf8Length (c :: more))
  refine ⟨⟨t, offset⟩ :: placed, ?_, by rw [List.map_cons, same]⟩
  rw [List.cons_append, Placed.scan_token (read rest ends), scanned]
  rfl

theorem scans_spellAll (spellable : ∀ t ∈ ts, t.spellable) : Scans (Token.spellAll ts) ts := by
  induction ts with
  | nil => exact scans_nil
  | cons t ts ih =>
    rw [List.forall_mem_cons] at spellable
    have reads := Token.reads_spell spellable.1
    have more := ih spellable.2
    cases ts with
    | nil =>
      have alone := Scans.token reads ends_nil scans_nil
      rwa [List.append_nil] at alone
    | cons => exact Scans.token reads (ends_blank _) more.blank

/-- Tokens with blanks between them are read as they are. -/
theorem Token.read_spellAll (spellable : ∀ t ∈ ts, t.spellable) :
    ∃ placed, Token.read (String.ofList (spellAll ts)) = .ok placed ∧
      placed.map Placed.token = ts := by
  rw [Token.read, String.toList_ofList]
  exact scans_spellAll spellable 0

end FirmwareMeta.Devicetree
