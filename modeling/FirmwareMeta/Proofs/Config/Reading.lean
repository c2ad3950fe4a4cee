import FirmwareMeta.Proofs.Config.Assignments
import FirmwareMeta.Proofs.Failure
import FirmwareMeta.Proofs.Text.Ends
import FirmwareMeta.Proofs.Text.Line

/-! Reading options is going through the lines: the first malformed one is the error, and if there
is none, the options are what the assignments of the lines leave. So a text that goes on behind a
line means what its two parts mean. -/
namespace FirmwareMeta.Config

/-- A line, and the line with a CRLF terminator reduced to a newline. -/
inductive Reduces : List Char → List Char → Prop where
  | crlf (line : List Char) : Reduces (line ++ ['\r', '\n']) (line ++ ['\n'])
  | other (plain : ¬['\r', '\n'] <:+ line) : Reduces line line

namespace Dialect

/-- Key and value stand on the two sides of the first equals sign. In the cache the key ends at the
first colon, and that has to come before. -/
inductive Splits : Dialect → List Char → List Char → List Char → Prop where
  | kconfig (first : '=' ∉ key) : Splits .kconfig (key ++ '=' :: value) key value
  | cmakeCache (colon : ':' ∉ key) (first : '=' ∉ key ++ ':' :: kind) :
      Splits .cmakeCache (key ++ ':' :: kind ++ '=' :: value) key value

/-- A line that counts, and its text without carriage returns and newlines at the end. -/
def Considers (d : Dialect) (line text : List Char) : Prop :=
  ∃ short, Reduces line short ∧ d.accepts short ∧
    Text.DropsEnd (fun c => c = '\n' ∨ c = '\r') short text

/-- A line that counts, and has no key and value. -/
def Malformed (d : Dialect) (line text : List Char) : Prop :=
  d.Considers line text ∧ ∀ key value, ¬d.Splits text key value

/-- A line that counts, with its key and the value without blanks at the ends. -/
def Assigns (d : Dialect) (line : List Char) (key value : String) : Prop :=
  ∃ text raw, d.Considers line text ∧ d.Splits text key.toList raw ∧ Text.Trims raw value.toList

/-- The error that the first malformed one of some lines is. Lines are numbered from one. -/
def FirstMalformed (d : Dialect) (lines : List (List Char)) (e : SyntaxError) : Prop :=
  ∃ front line back, lines = front ++ line :: back ∧
    (∀ l ∈ front, ∀ text, ¬d.Malformed l text) ∧ d.Malformed line e.text ∧
    e.line = front.length + 1

/-- The assignments of lines, of which none is malformed. -/
inductive Reads (d : Dialect) : List (List Char) → List (String × String) → Prop where
  | nil : Reads d [] []
  | ignored (skipped : ∀ text, ¬d.Considers line text) (rest : Reads d lines list) :
      Reads d (line :: lines) list
  | assigned (entry : d.Assigns line key value) (rest : Reads d lines list) :
      Reads d (line :: lines) ((key, value) :: list)

end Dialect

variable {d : Dialect} {text line short key value front back : List Char} {n : Nat}
  {lines more : List (List Char)} {e : SyntaxError} {o result : Options}
  {list : List (String × String)}

/-! One line -/

theorem splitAt?_eq_some_iff {mark : Char} :
    splitAt? mark text = some (key, value) ↔ text = key ++ mark :: value ∧ mark ∉ key := by
  unfold splitAt?
  constructor
  · intro found
    split at found
    · contradiction
    · rename_i c after behind
      obtain ⟨rfl, rfl⟩ := Prod.mk.inj (Option.some.inj found)
      have stop : ¬decide (c ≠ mark) := Text.head?_dropWhile (by rw [behind]; rfl)
      obtain rfl : c = mark := by simpa using stop
      refine ⟨?_, fun mem => ?_⟩
      · rw [← behind, List.takeWhile_append_dropWhile]
      · simpa using List.mem_takeWhile_imp mem
  · rintro ⟨rfl, absent⟩
    have before : ∀ c ∈ key, decide (c ≠ mark) := by
      intro c mem
      simpa using ne_of_mem_of_not_mem mem absent
    rw [List.dropWhile_append_of_pos before, List.takeWhile_append_of_pos before]
    simp

theorem Dialect.split?_eq_some_iff :
    d.split? text = some (key, value) ↔ d.Splits text key value := by
  cases d with
  | kconfig =>
    rw [split?, splitAt?_eq_some_iff]
    constructor
    · rintro ⟨rfl, first⟩
      exact .kconfig first
    · rintro ⟨first⟩
      exact ⟨rfl, first⟩
  | cmakeCache =>
    simp only [split?, bind, Option.bind_eq_some_iff, pure, Option.some.injEq]
    constructor
    · rintro ⟨⟨name, _⟩, outer, ⟨_, _⟩, inner, same⟩
      obtain ⟨rfl, rfl⟩ := Prod.mk.inj same
      obtain ⟨rfl, first⟩ := splitAt?_eq_some_iff.mp outer
      obtain ⟨rfl, colon⟩ := splitAt?_eq_some_iff.mp inner
      exact .cmakeCache colon first
    · rintro (_ | ⟨colon, first⟩)
      exact ⟨_, splitAt?_eq_some_iff.mpr ⟨rfl, first⟩, _, splitAt?_eq_some_iff.mpr ⟨rfl, colon⟩,
        rfl⟩

theorem unixLine_eq_iff : unixLine line = short ↔ Reduces line short := by
  constructor
  · rintro rfl
    unfold unixLine
    split
    · rename_i rest behind
      have whole : line = rest.reverse ++ ['\r', '\n'] := by
        rw [← line.reverse_reverse, behind]
        simp
      rw [whole, List.reverse_cons]
      exact .crlf rest.reverse
    · rename_i other
      apply Reduces.other
      rintro ⟨front, rfl⟩
      exact other front.reverse (by simp)
  · rintro (_ | plain)
    · simp [unixLine]
    · unfold unixLine
      split
      · rename_i rest behind
        refine absurd ⟨rest.reverse, ?_⟩ plain
        rw [← line.reverse_reverse, behind]
        simp
      · rfl

namespace Dialect

theorem considers_iff : d.Considers line text ↔ d.accepts (unixLine line) ∧
    Text.dropEnd (fun c => c = '\n' || c = '\r') (unixLine line) = text := by
  have ends : ∀ kept, Text.DropsEnd (fun c => c = '\n' ∨ c = '\r') (unixLine line) kept ↔
      Text.dropEnd (fun c => c = '\n' || c = '\r') (unixLine line) = kept := by
    intro kept
    rw [Text.dropEnd_eq_iff]
    simp only [Bool.or_eq_true, decide_eq_true_eq]
  constructor
  · rintro ⟨short, reduces, accepts, drops⟩
    obtain rfl := unixLine_eq_iff.mpr reduces
    exact ⟨accepts, (ends text).mp drops⟩
  · rintro ⟨accepts, drops⟩
    exact ⟨_, unixLine_eq_iff.mp rfl, accepts, (ends text).mpr drops⟩

end Dialect

theorem readLine_ignored (skipped : ∀ text, ¬d.Considers line text) (n : Nat) :
    readLine d n line = .ok none := by
  have unaccepted : d.accepts (unixLine line) = false := by
    rw [← Bool.not_eq_true]
    exact fun accepts => skipped _ (Dialect.considers_iff.mpr ⟨accepts, rfl⟩)
  simp only [readLine, unaccepted, Bool.not_false, ↓reduceIte]

theorem readLine_considered (considers : d.Considers line text) (n : Nat) :
    readLine d n line = match d.split? text with
      | some (key, raw) => .ok (some (key, Text.trim raw))
      | none => .error ⟨n, text⟩ := by
  obtain ⟨accepts, rfl⟩ := Dialect.considers_iff.mp considers
  exact if_neg (by simp [accepts])

theorem readLine_ok_none_iff : readLine d n line = .ok none ↔ ∀ text, ¬d.Considers line text := by
  constructor
  · intro read text considers
    rw [readLine_considered considers] at read
    split at read <;> cases read
  · exact fun skipped => readLine_ignored skipped n

theorem readLine_ok_some_iff : readLine d n line = .ok (some (key, value)) ↔
    d.Assigns line (String.ofList key) (String.ofList value) := by
  unfold Dialect.Assigns
  rw [String.toList_ofList, String.toList_ofList]
  constructor
  · intro read
    by_cases counts : ∃ text, d.Considers line text
    · obtain ⟨text, considers⟩ := counts
      rw [readLine_considered considers] at read
      split at read
      · rename_i raw split
        obtain ⟨rfl, trims⟩ := Prod.mk.inj (Option.some.inj (Except.ok.inj read))
        exact ⟨text, raw, considers, Dialect.split?_eq_some_iff.mp split, Text.trim_eq_iff.mp trims⟩
      · contradiction
    · rw [readLine_ignored fun text considers => counts ⟨text, considers⟩] at read
      cases read
  · rintro ⟨text, raw, considers, splits, trims⟩
    rw [readLine_considered considers, Dialect.split?_eq_some_iff.mpr splits,
      ← Text.trim_eq_iff.mpr trims]

theorem readLine_error_iff :
    readLine d n line = .error e ↔ d.Malformed line e.text ∧ e.line = n := by
  constructor
  · intro read
    by_cases counts : ∃ text, d.Considers line text
    · obtain ⟨text, considers⟩ := counts
      rw [readLine_considered considers] at read
      split at read
      · contradiction
      · rename_i unsplit
        obtain rfl := Except.error.inj read
        refine ⟨⟨considers, fun key value splits => ?_⟩, rfl⟩
        rw [Dialect.split?_eq_some_iff.mpr splits] at unsplit
        contradiction
    · rw [readLine_ignored fun text considers => counts ⟨text, considers⟩] at read
      cases read
  · rintro ⟨⟨considers, unsplit⟩, rfl⟩
    have none : d.split? e.text = none := by
      rw [Option.eq_none_iff_forall_ne_some]
      rintro ⟨key, value⟩ split
      exact unsplit key value (Dialect.split?_eq_some_iff.mp split)
    rw [readLine_considered considers, none]

theorem readLine_malformed (malformed : d.Malformed line text) (n : Nat) :
    readLine d n line = .error ⟨n, text⟩ :=
  readLine_error_iff.mpr ⟨malformed, rfl⟩

/-! Line after line -/

theorem readLines_append (front back : List (List Char)) :
    Options.readLines d o n (front ++ back) =
      (Options.readLines d o n front >>= fun o =>
        Options.readLines d o (n + front.length) back) := by
  induction front generalizing o n with
  | nil => rfl
  | cons line rest ih =>
    rw [List.cons_append, List.length_cons, ← Nat.add_assoc, Nat.add_right_comm,
      Options.readLines, Options.readLines]
    cases readLine d n line with
    | error _ => rfl
    | ok found =>
      cases found with
      | none => exact ih
      | some _ => exact ih

theorem readLines_ok_iff : Options.readLines d o n lines = .ok result ↔
    ∃ list, d.Reads lines list ∧ o.assignAll list = result := by
  induction lines generalizing o n with
  | nil =>
    constructor
    · intro read
      exact ⟨[], .nil, Except.ok.inj read⟩
    · rintro ⟨_, ⟨⟩, rfl⟩
      rfl
  | cons line rest ih =>
    constructor
    · intro read
      rw [Options.readLines] at read
      split at read
      · contradiction
      · rename_i ignored
        obtain ⟨list, reads, same⟩ := ih.mp read
        exact ⟨list, .ignored (readLine_ok_none_iff.mp ignored) reads, same⟩
      · rename_i key value assigned
        obtain ⟨list, reads, same⟩ := ih.mp read
        exact ⟨_ :: list, .assigned (readLine_ok_some_iff.mp assigned) reads, same⟩
    · rintro ⟨list, reads, same⟩
      cases reads with
      | ignored skipped reads =>
        rw [Options.readLines, readLine_ignored skipped]
        exact ih.mpr ⟨list, reads, same⟩
      | @assigned _ key value _ list entry reads =>
        rw [← key.ofList_toList, ← value.ofList_toList] at entry
        rw [Options.readLines, readLine_ok_some_iff.mpr entry]
        simp only [String.ofList_toList]
        exact ih.mpr ⟨list, reads, same⟩

/-- A line behind which reading goes on is not malformed. -/
theorem readLines_cons_error (read : Options.readLines d o n (line :: lines) = .error e) :
    d.Malformed line e.text ∧ e.line = n ∨
      (∀ text, ¬d.Malformed line text) ∧
        ∃ result, Options.readLines d result (n + 1) lines = .error e := by
  have fine : ∀ found, readLine d n line = .ok found → ∀ text, ¬d.Malformed line text := by
    intro found ok text malformed
    rw [readLine_malformed malformed] at ok
    contradiction
  rw [Options.readLines] at read
  split at read
  · rename_i failed
    cases read
    exact .inl (readLine_error_iff.mp failed)
  · rename_i ignored
    exact .inr ⟨fine _ ignored, _, read⟩
  · rename_i assigned
    exact .inr ⟨fine _ assigned, _, read⟩

theorem exists_of_readLines_error (read : Options.readLines d o n lines = .error e) :
    ∃ front line back, lines = front ++ line :: back ∧ (∀ l ∈ front, ∀ text, ¬d.Malformed l text) ∧
      d.Malformed line e.text ∧ e.line = n + front.length := by
  induction lines generalizing o n with
  | nil => contradiction
  | cons line rest ih =>
    rcases readLines_cons_error read with ⟨malformed, same⟩ | ⟨fine, result, behind⟩
    · exact ⟨[], line, rest, rfl, nofun, malformed, same⟩
    · obtain ⟨front, bad, back, rfl, others, malformed, same⟩ := ih behind
      refine ⟨line :: front, bad, back, rfl, List.forall_mem_cons.mpr ⟨fine, others⟩, malformed, ?_⟩
      rw [same, List.length_cons]
      omega

theorem readLines_error_iff : Options.readLines d o n lines = .error e ↔
    ∃ front line back, lines = front ++ line :: back ∧ (∀ l ∈ front, ∀ text, ¬d.Malformed l text) ∧
      d.Malformed line e.text ∧ e.line = n + front.length := by
  refine ⟨exists_of_readLines_error, ?_⟩
  rintro ⟨front, line, back, rfl, others, malformed, same⟩
  rw [readLines_append]
  cases before : Options.readLines d o n front with
  | error cause =>
    obtain ⟨_, bad, _, rfl, -, earlier, -⟩ := exists_of_readLines_error before
    exact absurd earlier (others bad (by simp) _)
  | ok result =>
    change Options.readLines d result _ (line :: back) = _
    rw [Options.readLines, readLine_error_iff.mpr ⟨malformed, same⟩]

/-- An error that is found behind so many lines. -/
def SyntaxError.behind (e : SyntaxError) (count : Nat) : SyntaxError :=
  { e with line := count + e.line }

/-- The number of the first line counts in errors only. -/
theorem readLines_behind (count n : Nat) : Options.readLines d o (count + n) lines =
    (Options.readLines d o n lines).mapError (·.behind count) := by
  cases read : Options.readLines d o n lines with
  | error e =>
    obtain ⟨front, line, back, parts, others, malformed, same⟩ := readLines_error_iff.mp read
    refine readLines_error_iff.mpr ⟨front, line, back, parts, others, malformed, ?_⟩
    change count + e.line = count + n + front.length
    rw [same, Nat.add_assoc]
  | ok result => exact readLines_ok_iff.mpr (readLines_ok_iff.mp read)

/-- What lines say on their own is assigned. -/
theorem readLines_eq_assignAll (holds : o.Holds list) : Options.readLines d o n lines =
    (fun more => o.assignAll more.entries) <$> Options.readLines d .empty n lines := by
  cases alone : Options.readLines d .empty n lines with
  | error e => exact readLines_error_iff.mpr (readLines_error_iff.mp alone)
  | ok more =>
    obtain ⟨entries, reads, rfl⟩ := readLines_ok_iff.mp alone
    refine readLines_ok_iff.mpr ⟨entries, reads, ?_⟩
    exact (holds.assignAll_entries (Options.holds_empty.assignAll entries)).symm

/-- The first malformed line of a text is reported by its number and its text; if there is none, the
options are those that the assignments leave. A text behind a whole number of lines adds its own
assignments, or reports its own error that many lines further down. -/
theorem Options.parse_folds_lines (d : Dialect) :
    (∀ text lines, Text.Lines text.toList lines →
      (∀ e, parse d text = .error e ↔ d.FirstMalformed lines e) ∧
      ((∀ line ∈ lines, ∀ text, ¬d.Malformed line text) →
        ∃ o list, parse d text = .ok o ∧ d.Reads lines list ∧ o.Holds list)) ∧
    ∀ front back : String, Text.Closed front.toList →
      parse d (front ++ back) =
        (do
          let o ← parse d front
          let more ← (parse d back).mapError (·.behind (front.toList.count '\n'))
          return o.assignAll more.entries) := by
  constructor
  · intro text lines made
    obtain rfl := Text.lines_iff_cut.mp made
    unfold parse
    constructor
    · intro e
      rw [readLines_error_iff, Dialect.FirstMalformed]
      simp only [Nat.add_comm 1]
    · intro fine
      cases read : readLines d empty 1 (Text.cut text.toList) with
      | error e =>
        obtain ⟨front, line, back, parts, -, malformed, -⟩ := readLines_error_iff.mp read
        exact absurd malformed (fine line (by simp [parts]) e.text)
      | ok o =>
        obtain ⟨list, reads, rfl⟩ := readLines_ok_iff.mp read
        exact ⟨_, list, rfl, reads, holds_empty.assignAll list⟩
  · intro front back closed
    unfold parse
    rw [String.toList_append, Text.cut_append closed, readLines_append, Text.length_cut closed]
    cases before : readLines d empty 1 (Text.cut front.toList) with
    | error _ => rfl
    | ok o =>
      obtain ⟨list, -, rfl⟩ := readLines_ok_iff.mp before
      change readLines d _ _ _ = _
      rw [Nat.add_comm, readLines_behind, readLines_eq_assignAll (holds_empty.assignAll list)]
      cases readLines d empty 1 (Text.cut back.toList) <;> rfl

/-- An assignment and a line that does not count, and an error behind them. -/
theorem Options.parse_folds_lines_behind_two :
    Text.Lines "CONFIG_A=1\n# B\n".toList ["CONFIG_A=1\n".toList, "# B\n".toList] ∧
    Text.Closed "CONFIG_A=1\n# B\n".toList ∧
    (∃ o list, parse .kconfig "CONFIG_A=1\n# B\n" = .ok o ∧
      Dialect.kconfig.Reads ["CONFIG_A=1\n".toList, "# B\n".toList] list ∧ o.Holds list) ∧
    parse .kconfig ("CONFIG_A=1\n# B\n" ++ "CONFIG_C\r\n") = .error ⟨3, "CONFIG_C".toList⟩ := by
  have folds := parse_folds_lines .kconfig
  have made : Text.Lines "CONFIG_A=1\n# B\n".toList ["CONFIG_A=1\n".toList, "# B\n".toList] :=
    Text.lines_iff_cut.mpr rfl
  have closed : Text.Closed "CONFIG_A=1\n# B\n".toList := .inr (by decide)
  have fine : ∀ line ∈ ["CONFIG_A=1\n".toList, "# B\n".toList],
      ∀ text, ¬Dialect.kconfig.Malformed line text := by
    have read : ∀ line ∈ ["CONFIG_A=1\n".toList, "# B\n".toList],
        (readLine .kconfig 1 line).isOk := by
      simp only [List.forall_mem_cons, List.not_mem_nil, false_imp_iff, implies_true, and_true]
      exact ⟨rfl, rfl⟩
    intro line mem text malformed
    have ok := read line mem
    rw [readLine_malformed malformed] at ok
    contradiction
  refine ⟨made, closed, (folds.1 _ _ made).2 fine, ?_⟩
  rw [folds.2 _ _ closed]
  rfl

end FirmwareMeta.Config
