import FirmwareMeta.Proofs.Text.Line
import FirmwareMeta.Proofs.Text.Numeral
import FirmwareMeta.Update.Listing

/-! The lines of a listing, told apart by their last words. That payloads were verified is said at
the end of one line for each block, and nowhere else. -/
namespace FirmwareMeta

variable {front back text value word last label status : String} {styled : Bool}
  {found others : List (List Char)}

namespace Text

/-- What stands behind the last blank of a line. -/
def lastWord (line : List Char) : List Char :=
  (line.reverse.takeWhile (· ≠ ' ')).reverse

/-- The lines of a text whose last word is a given one. -/
def linesEnding (word text : String) : List (List Char) :=
  (cut text.toList).filter (lastWord · = word.toList ++ ['\n'])

/-- A text on one line. -/
def Single (text : String) : Prop := '\n' ∉ text.toList

/-- A text of one word. -/
structure IsWord (text : String) : Prop where
  single : Single text
  whole : ' ' ∉ text.toList

/-- A text on one line and its last word. -/
structure EndsWith (text word : String) : Prop where
  single : Single text
  whole : ' ' ∉ word.toList
  behind : ∃ front, ' ' :: text.toList = front ++ ' ' :: word.toList

instance (text : String) : Decidable (Single text) := inferInstanceAs (Decidable (_ ∉ _))

theorem lastWord_append {word : List Char} (whole : ' ' ∉ word) (front : List Char) :
    lastWord (front ++ ' ' :: word) = word := by
  have kept : ∀ c ∈ word.reverse, decide (c ≠ ' ') = true := by
    intro c mem
    rw [decide_eq_true_iff]
    rintro rfl
    exact whole (List.mem_reverse.mp mem)
  rw [lastWord, List.reverse_append, List.reverse_cons, List.append_assoc, List.singleton_append,
    List.takeWhile_append_of_pos kept, List.takeWhile_cons_of_neg (by decide), List.append_nil,
    List.reverse_reverse]

/-- A blank in front of a line parts nothing from its last word. -/
theorem lastWord_cons (line : List Char) : lastWord (' ' :: line) = lastWord line := by
  rw [lastWord, lastWord, List.reverse_cons, List.takeWhile_append]
  split
  · rename_i all
    rw [List.takeWhile_cons_of_neg (by decide), List.append_nil,
      List.IsPrefix.eq_of_length (List.takeWhile_prefix _) all]
  · rfl

@[simp] theorem single_append : Single (front ++ back) ↔ Single front ∧ Single back := by
  simp [Single]

theorem IsWord.append (first : IsWord front) (second : IsWord back) : IsWord (front ++ back) where
  single := single_append.mpr ⟨first.single, second.single⟩
  whole := by simpa using ⟨first.whole, second.whole⟩

theorem IsWord.endsWith (word : IsWord text) : EndsWith text text :=
  ⟨word.single, word.whole, [], rfl⟩

theorem EndsWith.prepend (first : Single front) (ends : EndsWith text word) :
    EndsWith (front ++ " " ++ text) word := by
  obtain ⟨single, whole, inner, behind⟩ := ends
  refine ⟨by simp [first, single]; decide, whole, ' ' :: front.toList ++ inner, ?_⟩
  simp [← behind]

theorem IsWord.behind (word : IsWord text) (first : Single front) :
    EndsWith (front ++ (" " ++ text)) text := by
  rw [← String.append_assoc]
  exact word.endsWith.prepend first

/-- Whole lines, and those of them that end with a word. -/
structure Lists (word text : String) (found : List (List Char)) : Prop where
  closed : Closed text.toList
  found : linesEnding word text = found

theorem Lists.append (first : Lists word front found) (second : Lists word back others) :
    Lists word (front ++ back) (found ++ others) := by
  obtain ⟨closed, rfl⟩ := first
  obtain ⟨closed', rfl⟩ := second
  constructor
  · rw [String.toList_append]
    rcases closed' with none | newline
    · rwa [none, List.append_nil]
    · exact .inr (by rw [List.getLast?_append, newline, Option.some_or])
  · rw [linesEnding, String.toList_append, cut_append closed, List.filter_append]
    rfl

theorem Lists.join {α : Type} {shown : α → String} {lines : α → List (List Char)}
    (each : ∀ a, Lists word (shown a) (lines a)) (items : List α) :
    Lists word (String.join (items.map shown)) (items.flatMap lines) := by
  induction items with
  | nil => exact ⟨.inl rfl, rfl⟩
  | cons a rest ih =>
    rw [List.map_cons, List.flatMap_cons, String.join_cons]
    exact (each a).append ih

/-- A text on one line is a line with its last word. -/
theorem EndsWith.line (ends : EndsWith text last) :
    Lists word (text ++ "\n") (if last = word then [(text ++ "\n").toList] else []) := by
  obtain ⟨single, whole, front, behind⟩ := ends
  have shown : (text ++ "\n").toList = text.toList ++ ['\n'] := String.toList_append
  have tail : lastWord (text.toList ++ ['\n']) = last.toList ++ ['\n'] := by
    rw [← lastWord_cons, ← List.cons_append, behind, List.append_assoc, List.cons_append]
    exact lastWord_append (by simpa using whole) front
  rw [shown]
  refine ⟨.inr (by rw [shown, List.getLast?_concat]), ?_⟩
  rw [linesEnding, shown, cut_line single, cut, List.foldr_nil, List.filter_singleton, tail]
  simp only [List.append_left_inj, String.toList_inj, Bool.cond_decide]

/-! Words and lines of what is shown -/

theorem isWord_digits {digits : List Char} (known : ∀ c ∈ digits, ∃ d < 16, c = Nat.digitChar d) :
    IsWord (String.ofList digits) := by
  have other : ∀ d < 16, Nat.digitChar d ≠ '\n' ∧ Nat.digitChar d ≠ ' ' := by decide
  have absent : ∀ c ∈ digits, c ≠ '\n' ∧ c ≠ ' ' := by
    intro c mem
    obtain ⟨d, small, rfl⟩ := known c mem
    exact other d small
  constructor
  · rw [Single, String.toList_ofList]
    exact fun mem => (absent _ mem).1 rfl
  · rw [String.toList_ofList]
    exact fun mem => (absent _ mem).2 rfl

theorem isWord_hex (width n : Nat) : IsWord (Numeral.hex width n) :=
  .append ⟨by decide, by decide⟩ (isWord_digits fun _ => Numeral.mem_hexDigits)

theorem isWord_hexWord (n : Nat) : IsWord (Numeral.hexWord n) := isWord_hex 8 n

theorem isWord_toString (n : Nat) : IsWord (toString n) := by
  refine isWord_digits fun c mem => ?_
  obtain ⟨d, small, same⟩ := Numeral.mem_toDigits (by decide) mem
  exact ⟨d, by omega, same⟩

/-- A number in its unit is on one line if the unit is. -/
theorem single_sizeIn {bytes unit : Nat} {units : List String} (plain : ∀ u ∈ units, Single u) :
    Single (sizeIn bytes unit units) := by
  induction units generalizing unit with
  | nil => exact List.not_mem_nil
  | cons name larger ih =>
    rw [List.forall_mem_cons] at plain
    rw [sizeIn]
    split
    · exact ih plain.2
    · dsimp only
      have decimals : ∀ h : Nat, Single (String.ofList
          [Nat.digitChar (h % 100 / 10), Nat.digitChar (h % 10)]) := by
        intro h
        refine (isWord_digits ?_).single
        rw [List.forall_mem_cons, List.forall_mem_singleton]
        exact ⟨⟨_, by omega, rfl⟩, _, by omega, rfl⟩
      rw [single_append, single_append]
      refine ⟨⟨?_, by decide⟩, plain.1⟩
      split
      · exact (isWord_toString _).single
      · rw [single_append, single_append]
        exact ⟨⟨(isWord_toString _).single, by decide⟩, decimals _⟩

theorem single_byteSize (bytes : Nat) : Single (byteSize bytes) := single_sizeIn (by decide)

end Text

namespace Update.Listing

open Text

theorem single_name (role : Role) : Single role.name := by
  cases role <;> decide

/-- A text in parentheses behind another one. -/
theorem endsWith_parenthesis (first : Single front) (inner : IsWord text) :
    EndsWith (front ++ " (" ++ text ++ ")") ("(" ++ text ++ ")") := by
  have word : IsWord ("(" ++ text ++ ")") :=
    .append (.append ⟨by decide, by decide⟩ inner) ⟨by decide, by decide⟩
  have parts : front ++ " (" ++ text ++ ")" = front ++ " " ++ ("(" ++ text ++ ")") := by
    simp [← String.toList_inj]
  rw [parts]
  exact word.endsWith.prepend first

theorem endsWith_size (bytes : UInt32) :
    EndsWith (size bytes) ("(" ++ toString bytes.toNat ++ ")") :=
  endsWith_parenthesis (single_byteSize _) (isWord_toString _)

theorem single_bold (plain : Single text) : Single (bold styled text) := by
  cases styled
  · exact plain
  · simp only [bold, ↓reduceIte, single_append, plain, and_true]
    decide

/-- A line of a listing ends with the last word of its value. -/
theorem lists_line (plain : Single label) (ends : EndsWith value last) :
    Lists word (line styled label value)
      (if last = word then [(line styled label value).toList] else []) := by
  have filled : Single (label ++ String.ofList (List.replicate (10 - label.length) ' ')) := by
    rw [single_append]
    refine ⟨plain, ?_⟩
    rw [Single, String.toList_ofList]
    exact fun mem => absurd (List.eq_of_mem_replicate mem) (by decide)
  exact (ends.prepend (single_bold filled)).line

/-- A line whose last word starts otherwise says nothing of payloads. -/
theorem lists_other (plain : Single label) (ends : EndsWith value last)
    (other : last.toList.head? ≠ some 'v') : Lists "verified" (line styled label value) [] := by
  have differs : last ≠ "verified" := by
    rintro rfl
    exact other rfl
  have listed : Lists "verified" (line styled label value) _ := lists_line plain ends
  rwa [if_neg differs] at listed

theorem lists_parenthesis (plain : Single label) (ends : EndsWith value ("(" ++ text ++ ")")) :
    Lists "verified" (line styled label value) [] :=
  lists_other plain ends (by simp)

theorem lists_gap : Lists "verified" "\n" [] := ⟨.inr rfl, by decide⟩

theorem lists_opening (styled : Bool) (address size checksum : Nat) :
    Lists "verified" (line styled "address" (Numeral.hexWord address) ++
      line styled "length" (toString size ++ " B") ++
      line styled "checksum" (Numeral.hexWord checksum ++ " (valid)")) [] := by
  have start := (isWord_hexWord address).endsWith
  have unit : IsWord "B" := ⟨by decide, by decide⟩
  have length : EndsWith (toString size ++ " B") "B" := unit.behind (isWord_toString size).single
  have valid : IsWord "(valid)" := ⟨by decide, by decide⟩
  have sum : EndsWith (Numeral.hexWord checksum ++ " (valid)") "(valid)" :=
    valid.behind (isWord_hexWord checksum).single
  exact ((lists_other (by decide) start (by simp [Numeral.hexWord, Numeral.hex])).append
    (lists_other (by decide) length (by decide))).append
    (lists_other (by decide) sum (by decide))

/-- A block says what is known about its payload behind the checksum, and nowhere else. -/
theorem lists_block (b : Block) (listed : Lists "verified"
    (line styled "crc" (Numeral.hexWord b.checksum.toNat ++ " " ++ status)) found) :
    Lists "verified" (block styled status b) found := by
  have role := endsWith_parenthesis (single_name b.role) (isWord_toString b.role.id.toNat)
  have partition := (endsWith_size b.partitionSize).prepend
    (isWord_hexWord b.partitionAddress.toNat).single
  have blob := (endsWith_size b.size).prepend (isWord_hex 1 b.offset.toNat).single
  exact (((lists_gap.append (lists_parenthesis (by decide) role)).append
    (lists_parenthesis (by decide) partition)).append
    (lists_parenthesis (by decide) blob)).append listed

theorem lists_included (styled : Bool) (blocks : List Block) :
    Lists "verified" (String.join (blocks.map (block styled "payload not included"))) [] := by
  have ends : EndsWith "payload not included" "included" :=
    ⟨by decide, by decide, " payload not".toList, by decide⟩
  have each : ∀ b : Block, Lists "verified" (block styled "payload not included" b) [] := by
    intro b
    have value := ends.prepend (isWord_hexWord b.checksum.toNat).single
    exact lists_block b (lists_other (by decide) value (by decide))
  have listed := Lists.join each blocks
  rwa [List.flatMap_eq_nil_iff.mpr fun _ _ => rfl] at listed

theorem lists_verified (styled : Bool) (blocks : List Block) :
    Lists "verified" (String.join (blocks.map (block styled "verified"))) (blocks.map fun b =>
      (line styled "crc" (Numeral.hexWord b.checksum.toNat ++ " verified")).toList) := by
  have word : IsWord "verified" := ⟨by decide, by decide⟩
  have each : ∀ b : Block, Lists "verified" (block styled "verified" b)
      [(line styled "crc" (Numeral.hexWord b.checksum.toNat ++ " verified")).toList] := by
    intro b
    have value := word.endsWith.prepend (isWord_hexWord b.checksum.toNat).single
    have listed : Lists "verified" (block styled "verified" b) _ :=
      lists_block b (lists_line (by decide) value)
    rwa [if_pos rfl, String.append_assoc] at listed
  have listed := Lists.join each blocks
  rwa [← List.map_eq_flatMap] at listed

theorem lists_payloads (styled : Bool) (size checksum : Nat) :
    Lists "verified" ("\n" ++ line styled "payloads" (Text.byteSize size ++ " (" ++
      Numeral.hexWord checksum ++ ")")) [] := by
  have value := endsWith_parenthesis (single_byteSize size) (isWord_hexWord checksum)
  exact lists_gap.append (lists_parenthesis (by decide) value)

/-- In the listing of a record with payloads, the blocks and nothing else are said to be verified.
No line of a listing without payloads says so. -/
theorem linesEnding_text (styled : Bool) (address : Nat) (r : Record) (payloads : List UInt8) :
    linesEnding "verified" (Listing.text styled address r payloads) =
      if payloads = [] then []
      else r.blocks.map fun b =>
        (line styled "crc" (Numeral.hexWord b.checksum.toNat ++ " verified")).toList := by
  have opening := lists_opening styled address r.encodedSize (crc32 r.body).toNat
  rw [Listing.text]
  cases payloads with
  | nil =>
    have none : Lists "verified" "" [] := ⟨.inl rfl, rfl⟩
    exact ((opening.append (lists_included styled r.blocks)).append none).found
  | cons b rest =>
    have listed := (opening.append (lists_verified styled r.blocks)).append
      (lists_payloads styled (b :: rest).length (crc32 (b :: rest)).toNat)
    rw [List.append_nil] at listed
    rw [if_neg (List.cons_ne_nil b rest)]
    exact listed.found

end Update.Listing
end FirmwareMeta
