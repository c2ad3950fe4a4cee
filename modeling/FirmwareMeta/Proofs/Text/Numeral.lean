import FirmwareMeta.Text.Numeral
import Mathlib.Data.List.Basic
import Mathlib.Data.Nat.Digits.Defs

/-! A number is read back from its digits, with zeros in front of them or in capitals. -/
namespace FirmwareMeta.Numeral

variable {radix limit width n : Nat} {c : Char} {text other : List Char}

theorem digit?_digitChar (small : n < radix) (known : radix ≤ 16) :
    digit? radix (Nat.digitChar n) = some n := by
  have value : ∀ r < 17, ∀ k < r, digit? r (Nat.digitChar k) = some k := by decide
  exact value radix (Nat.lt_succ_of_le known) n small

/-- The value of a numeral depends on nothing but the values of its digits. -/
theorem digits?_congr (same : text.map (digit? radix) = other.map (digit? radix)) :
    digits? radix text = digits? radix other := by
  have values : ∀ ds : List Char, digits? radix ds =
      (ds.map (digit? radix)).foldlM (fun value d => d.map (radix * value + ·)) 0 := by
    intro ds
    rw [List.foldlM_map]
    rfl
  rw [values, values, same]

theorem digits?_concat (text : List Char) (c : Char) : digits? radix (text ++ [c]) =
    (digits? radix text).bind fun value => (digit? radix c).map (radix * value + ·) := by
  rw [digits?, List.foldlM_append]
  simp [digits?]

theorem digits?_toDigits (base : 1 < radix) (known : radix ≤ 16) (n : Nat) :
    digits? radix (Nat.toDigits radix n) = some n := by
  induction n using Nat.strong_induction_on with
  | h n ih =>
    by_cases small : n < radix
    · rw [Nat.toDigits_of_lt_base small, ← List.nil_append [_], digits?_concat,
        digit?_digitChar small known]
      simp [digits?]
    · have last : n % radix < radix := Nat.mod_lt n (by omega)
      have shorter : n / radix < n := Nat.div_lt_self (by omega) base
      rw [Nat.toDigits_of_base_le base (Nat.le_of_not_lt small), digits?_concat, ih _ shorter,
        digit?_digitChar last known]
      simp [Nat.div_add_mod]

theorem digits?_zeros (count : Nat) (base : 0 < radix) (text : List Char) :
    digits? radix (List.replicate count '0' ++ text) = digits? radix text := by
  have zero : digit? radix '0' = some 0 := by
    simpa [digit?] using Nat.ne_of_gt base
  induction count with
  | zero => rfl
  | succ count ih =>
    rw [← ih, digits?, digits?, List.replicate_succ, List.cons_append, List.foldlM_cons, zero]
    rfl

theorem digits?_hexDigits (width n : Nat) : digits? 16 (hexDigits width n) = some n := by
  rw [hexDigits, digits?_zeros _ (by decide), digits?_toDigits (by decide) (by decide)]

theorem hexDigits_ne_nil (width n : Nat) : hexDigits width n ≠ [] := by
  rw [hexDigits]
  exact List.append_ne_nil_of_right_ne_nil _ Nat.toDigits_ne_nil

theorem mem_toDigits (base : 1 < radix) (mem : c ∈ Nat.toDigits radix n) :
    ∃ d < radix, c = Nat.digitChar d := by
  induction n using Nat.strong_induction_on with
  | h n ih =>
    by_cases small : n < radix
    · rw [Nat.toDigits_of_lt_base small, List.mem_singleton] at mem
      exact ⟨n, small, mem⟩
    · rw [Nat.toDigits_of_base_le base (Nat.le_of_not_lt small), List.mem_append,
        List.mem_singleton] at mem
      rcases mem with before | last
      · exact ih _ (Nat.div_lt_self (by omega) base) before
      · exact ⟨n % radix, Nat.mod_lt n (by omega), last⟩

theorem mem_hexDigits (mem : c ∈ hexDigits width n) : ∃ d < 16, c = Nat.digitChar d := by
  rw [hexDigits, List.mem_append] at mem
  rcases mem with zero | digit
  · exact ⟨0, by decide, List.eq_of_mem_replicate zero⟩
  · exact mem_toDigits (by decide) digit

/-- Two digits are enough for a byte. -/
theorem length_hexDigits_byte (small : n < 256) : (hexDigits 2 n).length = 2 := by
  have fits : (Nat.toDigits 16 n).length ≤ 2 := Nat.toDigits_length 16 n 2 (by decide) small
  rw [hexDigits, List.length_append, List.length_replicate]
  omega

/-- A decimal numeral starts with a zero for nothing but zero. -/
theorem head?_toDigits (positive : 0 < n) : (Nat.toDigits 10 n).head? ≠ some '0' := by
  induction n using Nat.strong_induction_on with
  | h n ih =>
    by_cases small : n < 10
    · have digit : ∀ k < 10, 0 < k → Nat.digitChar k ≠ '0' := by decide
      rw [Nat.toDigits_of_lt_base small, List.head?_cons, ne_eq, Option.some.injEq]
      exact digit n small positive
    · have before := ih (n / 10) (by omega) (by omega)
      rw [Nat.toDigits_of_base_le (by decide) (by omega),
        List.head?_append_of_ne_nil _ Nat.toDigits_ne_nil]
      exact before

theorem read?_of_digits? (value : digits? radix text = some n) (some : text ≠ [])
    (bound : n < limit) : read? radix limit text = Option.some n := by
  have unsigned : ∀ rest, text ≠ '+' :: rest := by
    rintro rest rfl
    simp [digits?, digit?] at value
  unfold read?
  split
  · rename_i rest
    exact absurd rfl (unsigned rest)
  · simpa [some, value] using bound

end FirmwareMeta.Numeral
