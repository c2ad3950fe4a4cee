import FirmwareMeta.Text.Line

/-! Texts made of lines are cut into these lines again, and the size of a text is that of its
parts. -/
namespace FirmwareMeta.Text

/-- The lines of a text. Each of them ends with its only newline; the last one may have none. -/
inductive Lines : List Char → List (List Char) → Prop where
  | nil : Lines [] []
  | last (some : line ≠ []) (single : '\n' ∉ line) : Lines line [line]
  | cons (single : '\n' ∉ line) (rest : Lines text lines) :
      Lines (line ++ '\n' :: text) ((line ++ ['\n']) :: lines)

/-- Another line may begin behind the text. -/
def Closed (text : List Char) : Prop := text = [] ∨ text.getLast? = some '\n'

variable {text line : List Char} {lines : List (List Char)}

theorem cut_cons (c : Char) (rest : List Char) : cut (c :: rest) = consLine c (cut rest) := rfl

/-- A newline ends the line in front of it, whatever follows. -/
theorem cut_line (single : '\n' ∉ line) (rest : List Char) :
    cut (line ++ '\n' :: rest) = (line ++ ['\n']) :: cut rest := by
  induction line with
  | nil => simp only [List.nil_append, cut_cons, consLine, ↓reduceIte]
  | cons c line ih =>
    have other : c ≠ '\n' := fun same => single (same ▸ List.mem_cons_self)
    have tail : '\n' ∉ line := fun mem => single (List.mem_cons_of_mem _ mem)
    rw [List.cons_append, cut_cons, ih tail]
    simp only [consLine, other, ↓reduceIte, List.cons_append]

theorem cut_last (some : line ≠ []) (single : '\n' ∉ line) : cut line = [line] := by
  induction line with
  | nil => contradiction
  | cons c rest ih =>
    rw [List.mem_cons, not_or] at single
    have other : c ≠ '\n' := Ne.symm single.1
    rw [cut_cons]
    cases rest with
    | nil => simp [cut, consLine, other]
    | cons d rest => simp only [ih (List.cons_ne_nil _ _) single.2, consLine, other, ↓reduceIte]

theorem lines_consLine (made : Lines text lines) (c : Char) :
    Lines (c :: text) (consLine c lines) := by
  unfold consLine
  split
  · rename_i newline
    subst newline
    exact @Lines.cons [] _ _ List.not_mem_nil made
  · rename_i other
    have longer : ∀ {line}, '\n' ∉ line → '\n' ∉ c :: line := by
      intro line single mem
      exact (List.mem_cons.mp mem).elim (fun same => other same.symm) single
    cases made with
    | nil => exact .last (List.cons_ne_nil c []) (longer List.not_mem_nil)
    | last _ single => exact .last (List.cons_ne_nil c _) (longer single)
    | cons single rest => exact .cons (longer single) rest

/-- A text has the lines that it is cut into, and no others. -/
theorem lines_iff_cut : Lines text lines ↔ cut text = lines := by
  constructor
  · intro made
    induction made with
    | nil => rfl
    | last some single => exact cut_last some single
    | cons single rest ih => rw [cut_line single, ih]
  · rintro rfl
    induction text with
    | nil => exact .nil
    | cons c rest ih => exact lines_consLine ih c

theorem Closed.behind (closed : Closed (line ++ '\n' :: text)) : Closed text := by
  cases text with
  | nil => exact .inl rfl
  | cons c rest =>
    refine .inr ?_
    simpa [Closed, List.getLast?_append] using closed

theorem cut_append (closed : Closed text) (rest : List Char) :
    cut (text ++ rest) = cut text ++ cut rest := by
  have made : Lines text (cut text) := lines_iff_cut.mpr rfl
  generalize cut text = lines at made
  induction made with
  | nil => rfl
  | last some single =>
    rcases closed with none | newline
    · exact absurd none some
    · exact absurd (List.mem_of_getLast? newline) single
  | cons single _ ih =>
    rw [List.append_assoc, List.cons_append, cut_line single, ih closed.behind, List.cons_append]

/-- Where each line has its newline, these can be counted instead. -/
theorem length_cut (closed : Closed text) : (cut text).length = text.count '\n' := by
  have made : Lines text (cut text) := lines_iff_cut.mpr rfl
  generalize cut text = lines at made
  induction made with
  | nil => rfl
  | last some single =>
    rcases closed with none | newline
    · exact absurd none some
    · exact absurd (List.mem_of_getLast? newline) single
  | cons single _ ih =>
    rw [List.length_cons, ih closed.behind, List.count_append, List.count_eq_zero.mpr single,
      List.count_cons_self, Nat.zero_add]

theorem cut_lines (single : ∀ line ∈ lines, '\n' ∉ line) :
    cut (lines.flatMap (· ++ ['\n'])) = lines.map (· ++ ['\n']) := by
  induction lines with
  | nil => rfl
  | cons line rest ih =>
    rw [List.flatMap_cons, List.append_assoc, List.singleton_append,
      cut_line (single line List.mem_cons_self),
      ih fun l mem => single l (List.mem_cons_of_mem _ mem), List.map_cons]

theorem body_line (plain : '\r' ∉ line) : body (line ++ ['\n']) = line := by
  unfold body
  rw [List.reverse_append, List.reverse_singleton, List.singleton_append]
  split
  · rename_i rest same
    have last : '\r' ∈ line.reverse := by
      rw [(List.cons.inj same).2]
      exact List.mem_cons_self
    exact absurd (List.mem_reverse.mp last) plain
  · rename_i same
    rw [← (List.cons.inj same).2, List.reverse_reverse]
  · rename_i other
    exact absurd rfl (other _)

/-! Sizes -/

@[simp] theorem utf8Length_nil : utf8Length [] = 0 := rfl

theorem utf8Length_cons (c : Char) (rest : List Char) :
    utf8Length (c :: rest) = c.utf8Size + utf8Length rest := by
  have behind : ∀ n, rest.foldl (fun n c => n + c.utf8Size) n = n + utf8Length rest := by
    induction rest with
    | nil => exact fun n => rfl
    | cons d rest ih =>
      intro n
      rw [utf8Length, List.foldl_cons, List.foldl_cons, ih, ih (0 + _)]
      omega
  rw [utf8Length, List.foldl_cons, behind, Nat.zero_add]

theorem utf8Length_append (front back : List Char) :
    utf8Length (front ++ back) = utf8Length front + utf8Length back := by
  induction front with
  | nil => simp
  | cons c front ih => rw [List.cons_append, utf8Length_cons, ih, utf8Length_cons, Nat.add_assoc]

theorem utf8Length_eq_length (plain : ∀ c ∈ text, c.utf8Size = 1) :
    utf8Length text = text.length := by
  induction text with
  | nil => rfl
  | cons c rest ih =>
    rw [List.forall_mem_cons] at plain
    rw [utf8Length_cons, plain.1, ih plain.2, List.length_cons, Nat.add_comm]

theorem utf8ByteSize_ofList (text : List Char) :
    (String.ofList text).utf8ByteSize = utf8Length text := by
  induction text with
  | nil => rfl
  | cons c rest ih =>
    have parts : String.ofList (c :: rest) = String.singleton c ++ String.ofList rest := by
      rw [String.singleton_eq_ofList, ← String.ofList_append, List.singleton_append]
    rw [parts, String.utf8ByteSize_append, String.utf8ByteSize_singleton, ih, utf8Length_cons]

end FirmwareMeta.Text
