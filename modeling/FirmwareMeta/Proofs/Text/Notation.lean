import FirmwareMeta.Proofs.Text.Numeral
import Mathlib.Data.List.Forall2
import Mathlib.Data.List.Induction

/-! Numerals by their digits and not by the reader: what counts as a numeral, and the number that it
denotes. The reader accepts these, and nothing else. -/
namespace FirmwareMeta.Numeral

/-- A digit of a radix, letters in either case. -/
def IsDigit (radix : Nat) (c : Char) (value : Nat) : Prop :=
  value < radix ∧ (c = Nat.digitChar value ∨ c = (Nat.digitChar value).toUpper)

/-- Digits that denote a number; the last one counts least. -/
def Denotes (radix : Nat) (text : List Char) (n : Nat) : Prop :=
  ∃ values, List.Forall₂ (IsDigit radix) text.reverse values ∧ n = Nat.ofDigits radix values

/-- A numeral has at least one digit. A plus sign may stand in front of them if that is allowed. -/
inductive Written (plus : Bool) (radix : Nat) : List Char → Nat → Prop where
  | digits (some : text ≠ []) (denotes : Denotes radix text n) : Written plus radix text n
  | signed (allowed : plus) (some : text ≠ []) (denotes : Denotes radix text n) :
      Written plus radix ('+' :: text) n

variable {plus : Bool} {radix limit n value : Nat} {c : Char} {text : List Char}

theorem digit?_eq_some_iff (known : radix ≤ 16) :
    digit? radix c = some value ↔ IsDigit radix c value := by
  constructor
  · -- The characters of the three ranges, one after the other.
    have figures : ∀ k < 58, 48 ≤ k → Char.ofNat k = Nat.digitChar (k - 48) := by decide
    have small : ∀ k < 103, 97 ≤ k → Char.ofNat k = Nat.digitChar (k - 87) := by decide
    have capital : ∀ k < 71, 65 ≤ k → Char.ofNat k = (Nat.digitChar (k - 55)).toUpper := by decide
    intro read
    rw [← Char.ofNat_toNat c]
    simp only [digit?, Option.ite_none_right_eq_some, Option.some.injEq] at read
    obtain ⟨⟨below, digit⟩, rfl⟩ := read
    refine ⟨below, ?_⟩
    split at digit
    · rename_i range
      rw [if_pos range]
      exact .inl (figures _ (Nat.lt_succ_of_le range.2) range.1)
    · rename_i other
      rw [if_neg other]
      split at digit
      · rename_i range
        rw [if_pos range]
        exact .inl (small _ (Nat.lt_succ_of_le range.2) range.1)
      · rename_i another
        rw [if_neg another]
        split at digit
        · rename_i range
          rw [if_pos range]
          exact .inr (capital _ (Nat.lt_succ_of_le range.2) range.1)
        · contradiction
  · have values : ∀ r < 17, ∀ k < r, digit? r (Nat.digitChar k) = some k ∧
        digit? r (Nat.digitChar k).toUpper = some k := by decide
    rintro ⟨below, rfl | rfl⟩
    · exact (values radix (Nat.lt_succ_of_le known) value below).1
    · exact (values radix (Nat.lt_succ_of_le known) value below).2

theorem not_isDigit_plus (known : radix ≤ 16) (value : Nat) : ¬IsDigit radix '+' value := by
  rw [← digit?_eq_some_iff known]
  simp [digit?]

theorem denotes_concat : Denotes radix (text ++ [c]) n ↔
    ∃ front last, Denotes radix text front ∧ IsDigit radix c last ∧ n = radix * front + last := by
  simp only [Denotes, List.reverse_append, List.reverse_singleton, List.singleton_append,
    List.forall₂_cons_left_iff]
  constructor
  · rintro ⟨_, ⟨last, values, digit, digits, rfl⟩, rfl⟩
    refine ⟨_, last, ⟨values, digits, rfl⟩, digit, ?_⟩
    rw [Nat.ofDigits_cons, Nat.add_comm]
  · rintro ⟨_, last, ⟨values, digits, rfl⟩, digit, rfl⟩
    refine ⟨last :: values, ⟨last, values, digit, digits, rfl⟩, ?_⟩
    rw [Nat.ofDigits_cons, Nat.add_comm]

theorem digits?_eq_some_iff (known : radix ≤ 16) :
    digits? radix text = some n ↔ Denotes radix text n := by
  induction text using List.reverseRecOn generalizing n with
  | nil => simp [digits?, Denotes, eq_comm]
  | append_singleton text c ih =>
    simp only [digits?_concat, Option.bind_eq_some_iff, Option.map_eq_some_iff, ih,
      digit?_eq_some_iff known, denotes_concat]
    grind

theorem Denotes.isDigit (denotes : Denotes radix text n) (mem : c ∈ text) :
    ∃ value, IsDigit radix c value := by
  induction text using List.reverseRecOn generalizing n with
  | nil => contradiction
  | append_singleton text d ih =>
    obtain ⟨front, last, before, digit, -⟩ := denotes_concat.mp denotes
    rcases List.mem_append.mp mem with inside | behind
    · exact ih before inside
    · rw [List.mem_singleton.mp behind]
      exact ⟨last, digit⟩

theorem Denotes.ne_plus (denotes : Denotes radix text n) (known : radix ≤ 16) : '+' ∉ text := by
  intro mem
  obtain ⟨value, digit⟩ := denotes.isDigit mem
  exact not_isDigit_plus known value digit

/-- The reader accepts the numerals below its limit. That it lets a plus sign stand in front matters
only for texts that have one. -/
theorem read?_eq_some_iff (known : radix ≤ 16) (signs : '+' ∈ text → plus) :
    read? radix limit text = some n ↔ Written plus radix text n ∧ n < limit := by
  have unsigned : ∀ digits : List Char,
      ((if digits.isEmpty then none else (digits? radix digits).filter (· < limit)) = some n ↔
        (digits ≠ [] ∧ Denotes radix digits n) ∧ n < limit) := by
    intro digits
    simp [Option.filter_eq_some_iff, digits?_eq_some_iff known, and_assoc]
  unfold read?
  split
  · rename_i digits
    rw [unsigned]
    apply and_congr_left'
    constructor
    · rintro ⟨some, denotes⟩
      exact .signed (signs List.mem_cons_self) some denotes
    · rintro (⟨-, denotes⟩ | ⟨-, some, denotes⟩)
      · exact absurd List.mem_cons_self (denotes.ne_plus known)
      · exact ⟨some, denotes⟩
  · rename_i other
    rw [unsigned]
    apply and_congr_left'
    constructor
    · rintro ⟨some, denotes⟩
      exact .digits some denotes
    · rintro (⟨some, denotes⟩ | _)
      · exact ⟨some, denotes⟩
      · exact absurd rfl (other _)

namespace Written

theorem ne_nil (written : Written plus radix text n) : text ≠ [] := by
  cases written with
  | digits some => exact some
  | signed => exact List.cons_ne_nil _ _

theorem isDigit_first (written : Written plus radix (c :: text) n) :
    c = '+' ∨ ∃ value, IsDigit radix c value := by
  cases written with
  | digits _ denotes => exact .inr (denotes.isDigit List.mem_cons_self)
  | signed => exact .inl rfl

theorem isDigit_last (written : Written plus radix text n) (last : text.getLast? = some c) :
    ∃ value, IsDigit radix c value := by
  cases written with
  | digits _ denotes => exact denotes.isDigit (List.mem_of_getLast? last)
  | signed _ some denotes =>
    rw [List.getLast?_cons_of_ne_nil some] at last
    exact denotes.isDigit (List.mem_of_getLast? last)

theorem ne_plus (written : Written false radix text n) (known : radix ≤ 16) : '+' ∉ text := by
  cases written with
  | digits _ denotes => exact denotes.ne_plus known
  | signed allowed => contradiction

end Written

end FirmwareMeta.Numeral
