import FirmwareMeta.Proofs.Config.Reading

/-! What of the layout of an option file does not count: lines that say nothing, and whether lines
end with LF or with CRLF. -/
namespace FirmwareMeta.Config

/-- A line with its terminator, LF or CRLF, and the text in front of that. -/
inductive Ended : List Char → List Char → Prop where
  | lf (single : '\n' ∉ text) (plain : ¬['\r'] <:+ text) : Ended (text ++ ['\n']) text
  | crlf (single : '\n' ∉ text) : Ended (text ++ ['\r', '\n']) text

/-- A text that says nothing on a line of such a size. -/
def Dialect.Skips : Dialect → Nat → List Char → Prop
  | cmakeCache, size, text => ['#'] <+: text ∨ ['/', '/'] <+: text ∨ size < 4
  | kconfig, _, text => ¬"CONFIG_".toList <+: text ∧ ¬"SB_CONFIG_".toList <+: text

/-- A text with CRLF for each newline. -/
def withReturns (text : List Char) : List Char :=
  text.flatMap fun c => if c = '\n' then ['\r', '\n'] else [c]

variable {d : Dialect} {line text kept mark front back : List Char} {n : Nat} {o : Options}
  {lines more : List (List Char)} {e : SyntaxError}

/-! Lines that say nothing -/

theorem Ended.single (ended : Ended line text) : '\n' ∉ text := by
  cases ended <;> assumption

theorem Ended.unixLine_eq (ended : Ended line text) : unixLine line = text ++ ['\n'] := by
  rw [unixLine_eq_iff]
  cases ended with
  | lf single plain =>
    apply Reduces.other
    intro crlf
    apply plain
    obtain none | ⟨front, same, suffix⟩ := List.suffix_concat_iff.mp crlf
    · contradiction
    · obtain ⟨rfl, -⟩ := List.append_inj' (show ['\r'] ++ ['\n'] = front ++ ['\n'] from same) rfl
      exact suffix
  | crlf single => exact .crlf text

theorem Ended.cut_append (ended : Ended line text) (rest : List Char) :
    Text.cut (line ++ rest) = line :: Text.cut rest := by
  cases ended with
  | lf single plain => simpa using Text.cut_line single rest
  | crlf single =>
    have longer : '\n' ∉ text ++ ['\r'] := by simp [single]
    simpa using Text.cut_line longer rest

theorem prefix_concat_newline (plain : '\n' ∉ mark) : mark <+: text ++ ['\n'] ↔ mark <+: text := by
  rw [List.prefix_concat_iff]
  constructor
  · rintro (rfl | prefixed)
    · exact absurd (by simp) plain
    · exact prefixed
  · exact .inr

theorem Dialect.not_accepts_iff : ¬d.accepts (text ++ ['\n']) ↔
    d.Skips (Text.utf8Length text + 1) text := by
  have size : Text.utf8Length (text ++ ['\n']) = Text.utf8Length text + 1 :=
    Text.utf8Length_append text ['\n']
  cases d with
  | cmakeCache =>
    simp only [accepts, Skips, shortLine, size, Bool.not_eq_true', Bool.not_eq_false,
      Bool.or_eq_true, decide_eq_true_eq, List.isPrefixOf_iff_prefix, or_assoc]
    rw [prefix_concat_newline (by decide), prefix_concat_newline (by decide)]
  | kconfig =>
    simp only [accepts, Skips, Bool.or_eq_true, List.isPrefixOf_iff_prefix, not_or]
    rw [prefix_concat_newline (by decide), prefix_concat_newline (by decide)]

/-- A line that is skipped is only counted. -/
theorem readLines_skipped (ended : Ended line text)
    (skips : d.Skips (Text.utf8Length text + 1) text) (n : Nat) (lines : List (List Char)) :
    Options.readLines d o n (line :: lines) = Options.readLines d o (n + 1) lines := by
  have skipped : ∀ kept, ¬d.Considers line kept := by
    intro kept considers
    have accepts := (Dialect.considers_iff.mp considers).1
    rw [ended.unixLine_eq] at accepts
    exact Dialect.not_accepts_iff.mpr skips accepts
  rw [Options.readLines, readLine_ignored skipped]

theorem Ended.considers (ended : Ended line text) (drops : Text.DropsEnd (· = '\r') text kept)
    (counts : ¬d.Skips (Text.utf8Length text + 1) text) : d.Considers line kept := by
  obtain ⟨⟨dropped, rfl, returns⟩, stops⟩ := drops
  refine ⟨_, unixLine_eq_iff.mp ended.unixLine_eq, ?_, ⟨dropped ++ ['\n'], ?_, ?_⟩, ?_⟩
  · by_contra unaccepted
    exact counts (Dialect.not_accepts_iff.mp unaccepted)
  · rw [List.append_assoc]
  · intro c mem
    rcases List.mem_append.mp mem with behind | newline
    · exact .inr (returns c behind)
    · exact .inl (List.mem_singleton.mp newline)
  · rintro c last (rfl | rfl)
    · exact ended.single (List.mem_append_left _ (List.mem_of_getLast? last))
    · exact stops _ last rfl

/-- A line that is short in characters and not in bytes has no room for a key and a value. -/
theorem Ended.malformed (ended : Ended line text) (drops : Text.DropsEnd (· = '\r') text kept)
    (short : text.length + 1 < 4)
    (counts : ¬Dialect.cmakeCache.Skips (Text.utf8Length text + 1) text) :
    Dialect.cmakeCache.Malformed line kept := by
  refine ⟨ended.considers drops counts, ?_⟩
  obtain ⟨⟨dropped, rfl, -⟩, -⟩ := drops
  intro key value splits
  cases splits with
  | @cmakeCache key kind value colon first =>
    obtain ⟨rfl, rfl, rfl, rfl⟩ : key = [] ∧ kind = [] ∧ value = [] ∧ dropped = [] := by
      simp only [List.length_append, List.length_cons] at short
      simp only [← List.length_eq_zero_iff]
      omega
    exact counts (.inr (.inr (by decide)))

theorem readLines_error_range (read : Options.readLines d o n lines = .error e) :
    n ≤ e.line ∧ e.line < n + lines.length := by
  obtain ⟨front, line, back, rfl, -, -, same⟩ := readLines_error_iff.mp read
  rw [same, List.length_append, List.length_cons]
  omega

/-- The error when a line is put in behind so many lines. -/
def SyntaxError.moved (e : SyntaxError) (count : Nat) : SyntaxError :=
  if e.line ≤ count then e else e.behind 1

/-- One line more in front of lines of which the first has this number. -/
theorem readLines_moved (count : Nat) : Options.readLines d o (count + 1 + 1) lines =
    (Options.readLines d o (count + 1) lines).mapError (·.moved count) := by
  rw [Nat.add_comm, readLines_behind]
  cases read : Options.readLines d o (count + 1) lines with
  | error e =>
    have range := (readLines_error_range read).1
    exact congrArg Except.error (if_neg (by omega)).symm
  | ok _ => rfl

/-- A line between others that is skipped moves the errors behind it by one line. A line of the
cache that is short only in characters is malformed. -/
theorem Options.parse_insert_line (d : Dialect) {front line back : String} {text : List Char}
    (closed : Text.Closed front.toList) (ended : Ended line.toList text) :
    (d.Skips (Text.utf8Length text + 1) text →
      parse d (front ++ line ++ back) = (parse d (front ++ back)).mapError
        (·.moved (front.toList.count '\n'))) ∧
    (d.Skips (text.length + 1) text → ¬d.Skips (Text.utf8Length text + 1) text →
      ∃ kept, Text.DropsEnd (· = '\r') text kept ∧
        parse d (front ++ line ++ back) =
          (parse d front >>= fun _ => .error ⟨front.toList.count '\n' + 1, kept⟩)) := by
  have lines : Text.cut (front ++ line ++ back).toList =
      Text.cut front.toList ++ line.toList :: Text.cut back.toList := by
    rw [String.toList_append, String.toList_append, List.append_assoc, Text.cut_append closed,
      ended.cut_append]
  have without : Text.cut (front ++ back).toList =
      Text.cut front.toList ++ Text.cut back.toList := by
    rw [String.toList_append, Text.cut_append closed]
  unfold parse
  rw [lines, without, readLines_append, readLines_append, ← Text.length_cut closed]
  constructor
  · intro skips
    cases before : readLines d empty 1 (Text.cut front.toList) with
    | error e =>
      have range := (readLines_error_range before).2
      exact congrArg Except.error (if_pos (by omega)).symm
    | ok o =>
      change readLines d o _ (line.toList :: _) = (readLines d o _ _).mapError _
      rw [readLines_skipped ended skips, Nat.add_comm 1, readLines_moved]
  · intro short counts
    cases d with
    | kconfig => exact absurd short counts
    | cmakeCache =>
      have few : text.length + 1 < 4 := by
        rcases short with hash | slashes | few
        · exact absurd (.inl hash) counts
        · exact absurd (.inr (.inl slashes)) counts
        · exact few
      have drops : Text.DropsEnd (· = '\r') text (Text.dropEnd (· = '\r') text) := by
        simpa only [decide_eq_true_eq] using
          (Text.dropEnd_eq_iff (p := fun c => decide (c = '\r'))).mp rfl
      refine ⟨_, drops, ?_⟩
      congr 1
      funext o
      rw [readLines, readLine_malformed (ended.malformed drops few counts), Nat.add_comm 1]

theorem Options.parse_insert_line_accents :
    Text.Closed "A:STRING=1\n".toList ∧ Ended "é\r\n".toList ['é'] ∧
    Dialect.cmakeCache.Skips (Text.utf8Length ['é'] + 1) ['é'] ∧
    parse .cmakeCache ("A:STRING=1\n" ++ "é\r\n" ++ "JUST:TEXT\n") =
      .error ⟨3, "JUST:TEXT".toList⟩ ∧
    Ended "éé\n".toList ['é', 'é'] ∧ Dialect.cmakeCache.Skips (['é', 'é'].length + 1) ['é', 'é'] ∧
    ¬Dialect.cmakeCache.Skips (Text.utf8Length ['é', 'é'] + 1) ['é', 'é'] ∧
    ∃ kept, Text.DropsEnd (· = '\r') ['é', 'é'] kept ∧
      parse .cmakeCache ("A:STRING=1\n" ++ "éé\n" ++ "JUST:TEXT\n") = .error ⟨2, kept⟩ := by
  have closed : Text.Closed "A:STRING=1\n".toList := .inr (by decide)
  have one : Ended "é\r\n".toList ['é'] := @Ended.crlf ['é'] (by decide)
  have two : Ended "éé\n".toList ['é', 'é'] := @Ended.lf ['é', 'é'] (by decide) (by decide)
  have skips : Dialect.cmakeCache.Skips (Text.utf8Length ['é'] + 1) ['é'] :=
    .inr (.inr (by decide))
  have short : Dialect.cmakeCache.Skips (['é', 'é'].length + 1) ['é', 'é'] :=
    .inr (.inr (by decide))
  have counts : ¬Dialect.cmakeCache.Skips (Text.utf8Length ['é', 'é'] + 1) ['é', 'é'] := by
    unfold Dialect.Skips
    decide
  refine ⟨closed, one, skips, ?_, two, short, counts, ?_⟩
  · rw [(parse_insert_line .cmakeCache closed one).1 skips]
    rfl
  · exact (parse_insert_line .cmakeCache closed two).2 short counts

/-- Two characters and a newline, in five bytes: the line says nothing, and is an error. -/
theorem Options.short_accents_malformed :
    Dialect.cmakeCache.Skips (['é', 'é'].length + 1) ['é', 'é'] ∧
    parse .cmakeCache ("A:STRING=1\n" ++ "B:STRING=2\n") = .ok ⟨[("A", "1"), ("B", "2")]⟩ ∧
    parse .cmakeCache ("A:STRING=1\n" ++ "éé\n" ++ "B:STRING=2\n") = .error ⟨2, ['é', 'é']⟩ := by
  refine ⟨.inr (.inr (by decide)), ?_, ?_⟩
  · rfl
  · rfl

/-! Kinds of newlines -/

theorem withReturns_eq_self (single : '\n' ∉ line) : withReturns line = line := by
  induction line with
  | nil => rfl
  | cons c rest ih =>
    rw [List.mem_cons, not_or] at single
    rw [withReturns, List.flatMap_cons, if_neg (Ne.symm single.1)]
    exact congrArg (c :: ·) (ih single.2)

theorem withReturns_line (single : '\n' ∉ line) (rest : List Char) :
    withReturns (line ++ '\n' :: rest) = line ++ ['\r'] ++ '\n' :: withReturns rest := by
  have kept := withReturns_eq_self single
  unfold withReturns at kept ⊢
  rw [List.flatMap_append, kept, List.flatMap_cons, if_pos rfl, List.append_assoc]
  rfl

/-- With CRLF for LF, a text has other lines that mean the same. -/
theorem lines_withReturns (made : Text.Lines text lines) (plain : ¬['\r', '\n'] <:+: text) :
    ∃ more, Text.Lines (withReturns text) more ∧ more.map unixLine = lines.map unixLine := by
  induction made with
  | nil => exact ⟨[], .nil, rfl⟩
  | @last line some single =>
    rw [withReturns_eq_self single]
    exact ⟨[line], .last some single, rfl⟩
  | @cons line text lines single rest ih =>
    have behind : ¬['\r', '\n'] <:+: text := fun inside =>
      plain (inside.trans ⟨line ++ ['\n'], [], by simp⟩)
    have before : ¬['\r'] <:+ line := by
      rintro ⟨front, rfl⟩
      exact plain ⟨front, text, by simp⟩
    obtain ⟨more, others, same⟩ := ih behind
    have longer : '\n' ∉ line ++ ['\r'] := by simp [single]
    refine ⟨((line ++ ['\r']) ++ ['\n']) :: more, ?_, ?_⟩
    · rw [withReturns_line single]
      exact .cons longer others
    · rw [List.map_cons, List.map_cons, same, (Ended.lf single before).unixLine_eq,
        List.append_assoc]
      exact congrArg (· :: _) (Ended.crlf single).unixLine_eq

/-- A line is read by what is left of its terminator. -/
theorem readLines_congr (same : more.map unixLine = lines.map unixLine) :
    Options.readLines d o n more = Options.readLines d o n lines := by
  induction lines generalizing more o n with
  | nil => rw [List.map_eq_nil_iff.mp same]
  | cons line lines ih =>
    cases more with
    | nil => contradiction
    | cons other more =>
      obtain ⟨head, tail⟩ := List.cons.inj same
      have read : readLine d n other = readLine d n line := by
        unfold readLine
        rw [head]
      rw [Options.readLines, Options.readLines, read]
      split
      · rfl
      · exact ih tail
      · exact ih tail

/-- A text with LF at the ends of its lines means the same with CRLF there. -/
theorem Options.parse_withReturns (d : Dialect) {text : String}
    (plain : ¬['\r', '\n'] <:+: text.toList) :
    parse d (String.ofList (withReturns text.toList)) = parse d text := by
  obtain ⟨more, made, same⟩ := lines_withReturns (Text.lines_iff_cut.mpr rfl) plain
  unfold parse
  rw [String.toList_ofList, Text.lines_iff_cut.mp made]
  exact readLines_congr same

/-- A short line, a return within a line, and a last line without a newline. -/
theorem Options.parse_withReturns_mixed :
    ¬['\r', '\n'] <:+: "AB\nA:T=x\ry\nJUST".toList ∧
    String.ofList (withReturns "AB\nA:T=x\ry\nJUST".toList) = "AB\r\nA:T=x\ry\r\nJUST" ∧
    parse .cmakeCache (String.ofList (withReturns "AB\nA:T=x\ry\nJUST".toList)) =
      .error ⟨3, "JUST".toList⟩ := by
  have plain : ¬['\r', '\n'] <:+: "AB\nA:T=x\ry\nJUST".toList := by simp [List.infix_cons_iff]
  refine ⟨plain, rfl, ?_⟩
  rw [parse_withReturns .cmakeCache plain]
  rfl

end FirmwareMeta.Config
