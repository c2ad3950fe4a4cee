import FirmwareMeta.Config.Settings
import FirmwareMeta.Proofs.Text.Notation

/-! Integer options by the notation of their values: decimal digits, or hexadecimal ones behind a
mark. The reader takes these, with a plus sign in front of the digits too, and refuses every other
value with the key that it stands for. -/
namespace FirmwareMeta.Config

/-- A number in decimal digits, or in hexadecimal ones behind `0x`. -/
inductive Integer (plus : Bool) : List Char → Nat → Prop where
  | decimal (written : Numeral.Written plus 10 text n) : Integer plus text n
  | hexadecimal (mark : x = 'x' ∨ x = 'X') (written : Numeral.Written plus 16 text n) :
      Integer plus ('0' :: x :: text) n

variable {plus : Bool} {radix n : Nat} {x : Char} {text : List Char} {value key : String}
  {w : UInt32} {s : Settings}

/-- The mark of a hexadecimal number is no decimal digit. -/
theorem not_written_mark (mark : x = 'x' ∨ x = 'X') :
    ¬Numeral.Written plus 10 ('0' :: x :: text) n := by
  have marks : Numeral.digit? 10 'x' = none ∧ Numeral.digit? 10 'X' = none := by decide
  intro written
  cases written with
  | digits _ denotes =>
    obtain ⟨value, digit⟩ := denotes.isDigit (List.mem_cons_of_mem _ List.mem_cons_self)
    rw [← Numeral.digit?_eq_some_iff (by decide)] at digit
    rcases mark with rfl | rfl
    · exact absurd (marks.1.symm.trans digit) (by simp)
    · exact absurd (marks.2.symm.trans digit) (by simp)

theorem integer_marked_iff (mark : x = 'x' ∨ x = 'X') :
    Integer plus ('0' :: x :: text) n ↔ Numeral.Written plus 16 text n := by
  constructor
  · rintro (written | ⟨-, written⟩)
    · exact absurd written (not_written_mark mark)
    · exact written
  · exact .hexadecimal mark

theorem integer_plain_iff (plain : ∀ x rest, x = 'x' ∨ x = 'X' → text ≠ '0' :: x :: rest) :
    Integer plus text n ↔ Numeral.Written plus 10 text n := by
  constructor
  · rintro (written | ⟨mark, -⟩)
    · exact written
    · exact absurd rfl (plain _ _ mark)
  · exact .decimal

theorem Integer.ne_plus (integer : Integer false text n) : '+' ∉ text := by
  cases integer with
  | decimal written => exact written.ne_plus (by decide)
  | hexadecimal mark written =>
    have behind := written.ne_plus (by decide)
    rcases mark with rfl | rfl <;> simpa using behind

/-- A numeral below the limit of words is read as a word. -/
theorem read?_word_eq_some_iff (known : radix ≤ 16) (signs : '+' ∈ text → plus) :
    (Numeral.read? radix Word.limit text).map UInt32.ofNat = some w ↔
      Numeral.Written plus radix text w.toNat := by
  simp only [Option.map_eq_some_iff, Numeral.read?_eq_some_iff known signs]
  constructor
  · rintro ⟨n, ⟨written, low⟩, rfl⟩
    rwa [UInt32.toNat_ofNat_of_lt' low]
  · intro written
    exact ⟨_, ⟨written, w.toNat_lt⟩, UInt32.ofNat_toNat⟩

theorem Options.word?_eq_some_iff (signs : '+' ∈ value.toList → plus) :
    word? value = some w ↔ Integer plus value.toList w.toNat := by
  unfold word?
  generalize value.toList = text at signs
  dsimp only
  split
  · rename_i rest
    rw [read?_word_eq_some_iff (by decide) fun mem => signs (by simp [mem]),
      integer_marked_iff (.inl rfl)]
  · rename_i rest
    rw [read?_word_eq_some_iff (by decide) fun mem => signs (by simp [mem]),
      integer_marked_iff (.inr rfl)]
  · rename_i small capital
    rw [read?_word_eq_some_iff (by decide) signs, integer_plain_iff]
    rintro _ rest (rfl | rfl)
    · exact small rest
    · exact capital rest

theorem Options.word?_eq_none_iff (signs : '+' ∈ value.toList → plus) :
    word? value = none ↔ ∀ n < Word.limit, ¬Integer plus value.toList n := by
  simp only [Option.eq_none_iff_forall_ne_some, ne_eq, word?_eq_some_iff signs]
  constructor
  · intro other n low integer
    exact other (.ofNat n) (by rwa [UInt32.toNat_ofNat_of_lt' low])
  · intro other w
    exact other _ w.toNat_lt

/-! Options -/

namespace Settings

theorem word_unset_iff : s.word key = .ok none ↔ s.options.get? key = none := by
  unfold word
  cases s.options.get? key with
  | none => simp
  | some value => cases read : Options.word? value <;> simp [read]

theorem word_ok_iff : s.word key = .ok (some w) ↔
    ∃ value, s.options.get? key = some value ∧ Options.word? value = some w := by
  unfold word
  cases s.options.get? key with
  | none => simp
  | some value => cases read : Options.word? value <;> simp [read]

theorem word_error_iff {e : Failure} : s.word key = .error e ↔
    ∃ value, s.options.get? key = some value ∧ Options.word? value = none ∧
      e = .optionInvalid key value := by
  unfold word
  cases s.options.get? key with
  | none => simp
  | some value => cases read : Options.word? value <;> simp [read, eq_comm]

theorem requireWord_ok_iff : s.requireWord key = .ok w ↔ s.word key = .ok (some w) := by
  unfold requireWord
  rcases s.word key with e | _ | found <;> simp

theorem requireWord_error_iff {e : Failure} : s.requireWord key = .error e ↔
    s.word key = .error e ∨ s.word key = .ok none ∧ e = .optionUnset key s.source := by
  unfold requireWord
  rcases s.word key with e | _ | found <;> simp [eq_comm]

/-- An option has the number that its value denotes, none if it is not set, and is refused with its
key and value if the value is anything else. Where the option is needed, it is reported if it is not
set. That a plus sign may stand in front of digits matters only for values that have one. -/
theorem integer_options_by_notation (plus : Bool) (s : Settings) (key : String)
    (signs : ∀ value, s.options.get? key = some value → '+' ∈ value.toList → plus) :
    (s.word key = .ok none ↔ s.options.get? key = none) ∧
    (∀ w, s.word key = .ok (some w) ↔
      ∃ value, s.options.get? key = some value ∧ Integer plus value.toList w.toNat) ∧
    (∀ e, s.word key = .error e ↔
      ∃ value, s.options.get? key = some value ∧
        (∀ n < Word.limit, ¬Integer plus value.toList n) ∧ e = .optionInvalid key value) ∧
    (∀ w, s.requireWord key = .ok w ↔ s.word key = .ok (some w)) ∧
    ∀ e, s.requireWord key = .error e ↔
      s.word key = .error e ∨ s.options.get? key = none ∧ e = .optionUnset key s.source := by
  refine ⟨word_unset_iff, fun w => ?_, fun e => ?_, fun w => requireWord_ok_iff, fun e => ?_⟩
  · rw [word_ok_iff]
    refine exists_congr fun value => and_congr_right fun found => ?_
    exact Options.word?_eq_some_iff (signs value found)
  · rw [word_error_iff]
    refine exists_congr fun value => and_congr_right fun found => and_congr_left' ?_
    exact Options.word?_eq_none_iff (signs value found)
  · rw [requireWord_error_iff, word_unset_iff]

/-- A size in hexadecimal digits, and a number of images that is just behind the last word. -/
def wideSettings : Settings :=
  ⟨none, ⟨[("CONFIG_BM_INSTALL_ENTRY_SIZE", "0X0000001F"),
    ("CONFIG_BM_INSTALL_IMAGES", "4294967296")]⟩⟩

theorem integer_options_by_notation_wide :
    wideSettings.requireWord "CONFIG_BM_INSTALL_ENTRY_SIZE" = .ok 31 ∧
    wideSettings.requireWord "CONFIG_BM_INSTALL_IMAGES" =
      .error (.optionInvalid "CONFIG_BM_INSTALL_IMAGES" "4294967296") ∧
    wideSettings.requireWord "CONFIG_OTHER" = .error (.optionUnset "CONFIG_OTHER" none) := by
  have unsigned : ∀ {key found}, wideSettings.options.get? key = some found →
      '+' ∉ found.toList → ∀ value, wideSettings.options.get? key = some value →
      '+' ∈ value.toList → false := by
    intro key found there plain value again mem
    obtain rfl := Option.some.inj (there.symm.trans again)
    exact absurd mem plain
  have size : wideSettings.options.get? "CONFIG_BM_INSTALL_ENTRY_SIZE" = some "0X0000001F" := rfl
  have images : wideSettings.options.get? "CONFIG_BM_INSTALL_IMAGES" = some "4294967296" := rfl
  have other : wideSettings.options.get? "CONFIG_OTHER" = none := rfl
  have hexadecimal : Integer false "0X0000001F".toList 31 :=
    .hexadecimal (.inr rfl) (.digits (by simp) ((Numeral.digits?_eq_some_iff (by decide)).mp rfl))
  have wide : ∀ n < Word.limit, ¬Integer false "4294967296".toList n :=
    (Options.word?_eq_none_iff (by decide)).mp rfl
  obtain ⟨-, number, -, required, -⟩ :=
    integer_options_by_notation false wideSettings _ (unsigned size (by decide))
  obtain ⟨-, -, refused, -, reported⟩ :=
    integer_options_by_notation false wideSettings _ (unsigned images (by decide))
  obtain ⟨-, -, -, -, missing⟩ := integer_options_by_notation false wideSettings "CONFIG_OTHER"
    fun value found => absurd (other.symm.trans found) (by simp)
  refine ⟨(required 31).mpr ((number 31).mpr ⟨_, size, hexadecimal⟩), ?_, ?_⟩
  · exact (reported _).mpr (.inl ((refused _).mpr ⟨_, images, wide, rfl⟩))
  · exact (missing _).mpr (.inr ⟨other, rfl⟩)

end Settings

/-- A plus sign is taken in the place of a digit, although the value is in neither notation. -/
theorem signed_option_taken :
    (⟨none, ⟨[("CONFIG_N", "0x+5")]⟩⟩ : Settings).word "CONFIG_N" = .ok (some 5) ∧
      ∀ n, ¬Integer false "0x+5".toList n :=
  ⟨rfl, fun _ integer => integer.ne_plus (by decide)⟩

end FirmwareMeta.Config
