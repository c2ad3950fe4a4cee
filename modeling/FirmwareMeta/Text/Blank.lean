/-!
White space of Unicode, as it is trimmed from the ends of a value.
-/
namespace FirmwareMeta.Text

/-- The characters with the property `White_Space`. -/
def isBlank (c : Char) : Bool :=
  let n := c.toNat
  (9 ≤ n && n ≤ 13) || n == 32 || n == 0x85 || n == 0xa0 || n == 0x1680 ||
    (0x2000 ≤ n && n ≤ 0x200a) || n == 0x2028 || n == 0x2029 || n == 0x202f ||
    n == 0x205f || n == 0x3000

/-- The text without the characters at its end that satisfy `p`. -/
def dropEnd (p : Char → Bool) (text : List Char) : List Char :=
  (text.reverse.dropWhile p).reverse

theorem dropEnd_eq_self {p : Char → Bool} {text : List Char} (kept : ∀ c ∈ text, ¬ p c) :
    dropEnd p text = text := by
  have stays : text.reverse.dropWhile p = text.reverse := by
    cases reversed : text.reverse with
    | nil => rfl
    | cons c rest =>
      apply List.dropWhile_cons_of_neg
      apply kept
      rw [← List.mem_reverse, reversed]
      exact List.mem_cons_self
  rw [dropEnd, stays, List.reverse_reverse]

def trim (text : List Char) : List Char :=
  dropEnd isBlank (text.dropWhile isBlank)

end FirmwareMeta.Text
