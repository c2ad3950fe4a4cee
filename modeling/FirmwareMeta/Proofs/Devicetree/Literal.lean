import FirmwareMeta.Devicetree.Grammar
import FirmwareMeta.Devicetree.Printer
import FirmwareMeta.Proofs.Text.Numeral

/-! A number is a word in every style, and means itself. -/
namespace FirmwareMeta.Devicetree

variable {style : Style} {width n : Nat} {c : Char} {text : List Char}

theorem Token.isWord_ofList (some : text ≠ []) (all : ∀ c ∈ text, Token.isLabelChar c) :
    Token.isWord (String.ofList text) := by
  have starts : ∀ c ∈ text, isWordStart c := by
    intro c mem
    simp [isWordStart, all c mem]
  cases text with
  | nil => contradiction
  | cons c rest =>
    have more : ∀ d ∈ rest, isWordChar d := by
      intro d mem
      simp [isWordChar, starts d (List.mem_cons_of_mem _ mem)]
    simpa [isWord, starts c List.mem_cons_self] using more

namespace Style

theorem digits?_digits (style : Style) (width n : Nat) :
    Numeral.digits? 16 (style.digits width n) = some n := by
  have capital : ∀ d < 16, Numeral.digit? 16 (Nat.digitChar d).toUpper =
      Numeral.digit? 16 (Nat.digitChar d) := by decide
  rw [digits]
  split
  · rw [← Numeral.digits?_hexDigits width n]
    apply Numeral.digits?_congr
    rw [List.map_map]
    apply List.map_congr_left
    intro c mem
    obtain ⟨d, small, rfl⟩ := Numeral.mem_hexDigits mem
    exact capital d small
  · exact Numeral.digits?_hexDigits width n

theorem length_digits (style : Style) (width n : Nat) :
    (style.digits width n).length = (Numeral.hexDigits width n).length := by
  rw [digits]
  split
  · exact List.length_map _
  · rfl

theorem digits_ne_nil (style : Style) (width n : Nat) : style.digits width n ≠ [] := by
  rw [ne_eq, ← List.length_eq_zero_iff, length_digits, List.length_eq_zero_iff]
  exact Numeral.hexDigits_ne_nil width n

theorem mem_digits (mem : c ∈ style.digits width n) :
    Token.isLabelChar c ∧ ¬ Cell.isSuffix c := by
  have small : ∀ d < 16, Token.isLabelChar (Nat.digitChar d) ∧
      ¬ Cell.isSuffix (Nat.digitChar d) := by decide
  have capital : ∀ d < 16, Token.isLabelChar (Nat.digitChar d).toUpper ∧
      ¬ Cell.isSuffix (Nat.digitChar d).toUpper := by decide
  rw [digits] at mem
  split at mem
  · obtain ⟨c, inside, rfl⟩ := List.mem_map.mp mem
    obtain ⟨d, bound, rfl⟩ := Numeral.mem_hexDigits inside
    exact capital d bound
  · obtain ⟨d, bound, rfl⟩ := Numeral.mem_hexDigits mem
    exact small d bound

theorem mem_number {value : UInt64} (mem : c ∈ style.number value) :
    Token.isLabelChar c ∧ ¬ Cell.isSuffix c := by
  have decimal : ∀ d < 10, Token.isLabelChar (Nat.digitChar d) ∧
      ¬ Cell.isSuffix (Nat.digitChar d) := by decide
  rw [number] at mem
  split at mem
  · rcases List.mem_cons.mp mem with rfl | mem
    · decide
    · rcases List.mem_cons.mp mem with rfl | mem
      · decide
      · exact mem_digits mem
  · obtain ⟨d, bound, rfl⟩ := Numeral.mem_toDigits (by decide) mem
    exact decimal d bound

theorem number_ne_nil (style : Style) (value : UInt64) : style.number value ≠ [] := by
  rw [number]
  split
  · exact List.cons_ne_nil _ _
  · exact Nat.toDigits_ne_nil

theorem isWord_number (style : Style) (value : UInt64) :
    Token.isWord (String.ofList (style.number value)) :=
  Token.isWord_ofList (style.number_ne_nil value) fun _ mem => (mem_number mem).1

theorem isWord_byte (style : Style) (value : UInt8) :
    Token.isWord (String.ofList (style.byte value)) :=
  Token.isWord_ofList (style.digits_ne_nil _ _) fun _ mem => (mem_digits mem).1

end Style

/-- Where no prefix says otherwise a numeral is decimal. -/
theorem Cell.digits?_decimal (plain : ∀ c rest, text ≠ '0' :: c :: rest) :
    Cell.digits? text = Numeral.read? 10 Cell.limit text := by
  unfold Cell.digits?
  split
  · exact absurd rfl (plain _ _)
  · exact absurd rfl (plain _ _)
  · exact absurd rfl (plain _ _)
  · rfl

theorem Cell.digits?_number (style : Style) (value : UInt64) :
    Cell.digits? (style.number value) = some value.toNat := by
  have bound : value.toNat < Cell.limit := value.toNat_lt
  rw [Style.number]
  split
  · exact Numeral.read?_of_digits? (style.digits?_digits _ _) (style.digits_ne_nil _ _) bound
  · rw [Cell.digits?_decimal]
    · exact Numeral.read?_of_digits? (Numeral.digits?_toDigits (by decide) (by decide) _)
        Nat.toDigits_ne_nil bound
    · intro c rest same
      rcases Nat.eq_zero_or_pos value.toNat with zero | positive
      · rw [zero, Nat.toDigits_zero] at same
        simp at same
      · apply Numeral.head?_toDigits positive
        rw [same, List.head?_cons]

/-- A number of a cell is read back, whatever its style. -/
theorem Cell.ofWord?_number (style : Style) (value : UInt64) :
    Cell.ofWord? (String.ofList (style.number value)) = some (.number value) := by
  have whole : Text.dropEnd Cell.isSuffix (style.number value) = style.number value :=
    Text.dropEnd_eq_self fun _ mem => (Style.mem_number mem).2
  rw [Cell.ofWord?, String.toList_ofList, whole, Cell.digits?_number, Option.map_some,
    UInt64.ofNat_toNat]

/-- So is a byte. -/
theorem Grammar.pairs_byte (style : Style) (value : UInt8) :
    Grammar.Pairs [value] (style.byte value) := by
  have two : (style.byte value).length = 2 := by
    rw [Style.byte, Style.length_digits, Numeral.length_hexDigits_byte value.toNat_lt]
  obtain ⟨high, low, digits⟩ := List.length_eq_two.mp two
  have pair : Numeral.read? 16 256 [high, low] = some value.toNat := by
    apply Numeral.read?_of_digits? _ (List.cons_ne_nil _ _) value.toNat_lt
    rw [← digits]
    exact style.digits?_digits 2 value.toNat
  have read := Grammar.Pairs.cons pair .nil
  rwa [UInt8.ofNat_toNat, ← digits] at read

end FirmwareMeta.Devicetree
