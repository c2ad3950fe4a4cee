import FirmwareMeta.Json.Printer
import FirmwareMeta.Json.Reader
import FirmwareMeta.Proofs.Text.Numeral

/-! What the printer writes is read back. A reader takes the text of a value off the front of a
longer text and leaves what follows, which in a list or an object never goes on with the value. -/
namespace FirmwareMeta.Json

variable {α β σ : Type} {c : Char} {text rest : List Char} {texts : List (List Char)}
  {n d value count limit : Nat}

/-! Strings -/

theorem fourDigits_control (control : c < ' ') (rest : List Char) :
    fourDigits ('0' :: '0' :: Nat.digitChar (c.toNat / 16) :: Nat.digitChar (c.toNat % 16) ::
      rest) = .ok c.toNat := by
  have low : c.toNat < 32 := control
  have high : Numeral.digit? 16 (Nat.digitChar (c.toNat / 16)) = some (c.toNat / 16) :=
    Numeral.digit?_digitChar (by omega) (by decide)
  have last : Numeral.digit? 16 (Nat.digitChar (c.toNat % 16)) = some (c.toNat % 16) :=
    Numeral.digit?_digitChar (by omega) (by decide)
  have zero : Numeral.digit? 16 '0' = some 0 := by decide
  have digits : Numeral.digits? 16
      ['0', '0', Nat.digitChar (c.toNat / 16), Nat.digitChar (c.toNat % 16)] = some c.toNat := by
    simp [Numeral.digits?, zero, high, last, Nat.div_add_mod]
  simp [fourDigits, digits]

theorem escaped_control (control : c < ' ') (rest : List Char) :
    escaped ('u' :: '0' :: '0' :: Nat.digitChar (c.toNat / 16) :: Nat.digitChar (c.toNat % 16) ::
      rest) = .ok (c, 5) := by
  have low : c.toNat < 32 := control
  have single : isLowHalf c.toNat = false ∧ isHighHalf c.toNat = false := by
    simp only [isLowHalf, isHighHalf, Bool.and_eq_false_iff, decide_eq_false_iff_not]
    omega
  simp [escaped, fourDigits_control control, single]

/-- A character is read back from what is written for it. -/
theorem stringEnd_escape (done : List Char) (c : Char) (rest : List Char) :
    stringEnd done (escape c ++ rest) = stringEnd (c :: done) rest := by
  unfold escape
  split
  case h_8 quote backslash _ _ _ _ _ =>
    split
    · rename_i control
      simp [stringEnd, escaped_control control]
    · rename_i plain
      rw [List.singleton_append, stringEnd.eq_4 done c rest quote backslash, if_neg plain]
  all_goals simp [stringEnd, escaped, shortEscape?]

theorem stringEnd_flatMap (done text rest : List Char) :
    stringEnd done (text.flatMap escape ++ '\x22' :: rest) = .ok (done.reverse ++ text, rest) := by
  induction text generalizing done with
  | nil => simp [stringEnd]
  | cons c text ih =>
    rw [List.flatMap_cons, List.append_assoc, stringEnd_escape, ih, List.reverse_cons,
      List.append_assoc, List.singleton_append]

/-! Numbers -/

/-- What can follow a value: the end of the text, or of the list or object around it, or a comma. -/
def Ends (rest : List Char) : Prop := ∀ c ∈ rest.head?, c = ',' ∨ c = ']' ∨ c = '\x7d'

theorem isDigit_digitChar (small : d < 10) :
    isDigit (Nat.digitChar d) = true ∧ (Nat.digitChar d).toNat - 48 = d := by
  have each : ∀ d < 10, isDigit (Nat.digitChar d) = true ∧ (Nat.digitChar d).toNat - 48 = d := by
    decide
  exact each d small

theorem Ends.isDigit (ends : Ends rest) (c : Char) (first : c ∈ rest.head?) :
    isDigit c = false := by
  rcases ends c first with rfl | rfl | rfl <;> decide

theorem gather_digitChar (small : d < 10) (below : 10 * value + d < limit) :
    gather limit value count (Nat.digitChar d :: rest) =
      gather limit (10 * value + d) (count + 1) rest := by
  obtain ⟨digit, same⟩ := isDigit_digitChar small
  rw [gather, same, digit, if_pos (by simpa using below)]

theorem gather_toDigits (below : n < limit) (rest : List Char) :
    gather limit 0 0 (Nat.toDigits 10 n ++ rest) =
      gather limit n (Nat.toDigits 10 n).length rest := by
  induction n using Nat.strong_induction_on generalizing rest with
  | h n ih =>
    by_cases small : n < 10
    · rw [Nat.toDigits_of_lt_base small, List.singleton_append,
        gather_digitChar small (by omega), Nat.mul_zero, Nat.zero_add]
      rfl
    · have last : n % 10 < 10 := Nat.mod_lt n (by decide)
      have whole : 10 * (n / 10) + n % 10 = n := Nat.div_add_mod n 10
      rw [Nat.toDigits_of_base_le (by decide) (Nat.le_of_not_lt small), List.append_assoc,
        ih (n / 10) (by omega) (by omega), List.singleton_append,
        gather_digitChar last (by omega), whole, List.length_append]
      rfl

theorem Ends.gather (ends : Ends rest) : gather limit value count rest = (value, count) := by
  cases rest with
  | nil => rfl
  | cons c rest => rw [Json.gather, ends.isDigit c rfl, Bool.false_and, if_neg Bool.false_ne_true]

theorem isDigit_of_mem_toDigits (mem : c ∈ Nat.toDigits 10 n) : isDigit c = true := by
  obtain ⟨d, small, rfl⟩ := Numeral.mem_toDigits (by decide) mem
  exact (isDigit_digitChar small).1

theorem digits_toDigits (n : Nat) (ends : Ends rest) :
    digits (Nat.toDigits 10 n ++ rest) = Nat.toDigits 10 n := by
  have stops : rest.takeWhile isDigit = [] := by
    cases rest with
    | nil => rfl
    | cons c rest => rw [List.takeWhile_cons_of_neg (by simp [ends.isDigit c rfl])]
  rw [digits, List.takeWhile_append_of_pos fun _ => isDigit_of_mem_toDigits, stops,
    List.append_nil]

/-- A decimal numeral has no zero in front. -/
theorem not_zero_first (ends : Ends rest) (opens : Nat.toDigits 10 n = c :: text) :
    (c = '0' && (text ++ rest).head?.any isDigit) = false := by
  rcases Nat.eq_zero_or_pos n with rfl | positive
  · obtain ⟨rfl, rfl⟩ := List.cons.inj opens
    cases rest with
    | nil => rfl
    | cons c rest => simp [ends.isDigit c rfl]
  · have first := Numeral.head?_toDigits positive
    rw [opens, List.head?_cons, ne_eq, Option.some.injEq] at first
    simp [first]

theorem number_toDigits (below : n < wordLimit) (ends : Ends rest) :
    number true (Nat.toDigits 10 n ++ rest) = .ok (.natural n, rest) := by
  obtain ⟨c, text, opens⟩ := List.exists_cons_of_ne_nil (Nat.toDigits_ne_nil (b := 10) (n := n))
  have digit : isDigit c = true :=
    isDigit_of_mem_toDigits (n := n) (opens ▸ List.mem_cons_self)
  have gathered := (gather_toDigits below rest).trans ends.gather
  have all := digits_toDigits n ends
  have behind : (Nat.toDigits 10 n ++ rest).drop (Nat.toDigits 10 n).length = rest :=
    List.drop_left
  rw [opens, List.cons_append] at gathered all behind
  rw [opens, List.cons_append, number, digit, not_zero_first ends opens]
  simp only [Bool.not_true, Bool.false_eq_true, ↓reduceIte, gathered, all, behind]
  split
  · exact absurd (ends _ rfl) (by decide)
  · exact absurd (ends _ rfl) (by decide)
  · exact absurd (ends _ rfl) (by decide)
  · simp

/-! Readers -/

/-- The texts with a comma in front of each but the first of all. -/
def commasFrom (first : Bool) : List (List Char) → List Char
  | [] => []
  | text :: rest => (if first then text else ',' :: text) ++ commasFrom false rest

theorem commas_eq (texts : List (List Char)) : commas texts = commasFrom true texts := by
  match texts with
  | [] => rfl
  | [text] => simp [commas, commasFrom]
  | text :: other :: rest =>
    have others := commas_eq (other :: rest)
    simp only [commasFrom, ↓reduceIte] at others
    simp [commas, commasFrom, others]

theorem ends_commasFrom {close : Char} (closing : close = ']' ∨ close = '\x7d')
    (texts : List (List Char)) (rest : List Char) :
    Ends (commasFrom false texts ++ close :: rest) := by
  cases texts with
  | nil => rintro c ⟨⟩; exact .inr closing
  | cons text texts => rintro c ⟨⟩; exact .inl rfl

theorem length_le_commasFrom (first : Bool) (each : ∀ text ∈ texts, text ≠ []) :
    texts.length ≤ (commasFrom first texts).length := by
  induction texts generalizing first with
  | nil => exact Nat.zero_le _
  | cons text texts ih =>
    obtain ⟨filled, others⟩ := List.forall_mem_cons.mp each
    have := List.length_pos_iff.mpr filled
    have := ih false others
    cases first
    all_goals
      simp only [commasFrom, ↓reduceIte, Bool.false_eq_true, List.length_cons, List.length_append]
      omega

/-- With what closes it, a list or an object has more characters than parts. -/
theorem length_lt_commasFrom (each : ∀ text ∈ texts, text ≠ []) (close : Char) (rest : List Char) :
    texts.length < (commasFrom true texts ++ close :: rest).length := by
  have := length_le_commasFrom true each
  rw [List.length_append, List.length_cons]
  omega

namespace Reader

variable {r item : Reader α} {f : α → Reader β} {x : α} {xs : List α} {print : α → List Char}
  {first : Bool} {bound : Nat}

theorem bind_eq (took : r text = .ok (x, rest)) : (r >>= f) text = f x rest := by
  change (r text >>= fun p => f p.1 p.2) = _
  rw [took]
  rfl

theorem map_eq {f : α → β} (took : r text = .ok (x, rest)) : (f <$> r) text = .ok (f x, rest) := by
  rw [map_eq_pure_bind, bind_eq took]
  rfl

theorem next?_cons (filled : isBlank c = false) (rest : List Char) :
    next? (c :: rest) = .ok (some c, c :: rest) := by
  rw [next?, List.dropWhile_cons_of_neg (by simp [filled])]
  rfl

theorem skip_cons (c : Char) (rest : List Char) : skip 1 (c :: rest) = .ok ((), rest) := rfl

theorem get_eq (text : List Char) : (get : Reader (List Char)) text = .ok (text, text) := rfl

/-- The reader takes the value from the text and leaves what stands behind it, be it the end, a comma
or a bracket. -/
def Reads (r : Reader α) (text : List Char) (x : α) : Prop :=
  ∀ rest, Ends rest → r (text ++ rest) = .ok (x, rest)

/-- The text starts at once with a value that is not `null`. -/
def Opens (text : List Char) : Prop :=
  ∃ c more, text = c :: more ∧ isBlank c = false ∧ c ≠ ']' ∧ c ≠ 'n'

theorem opens_printString (s : String) : Opens (printString s) := ⟨_, _, rfl, by decide⟩

theorem reads_string (s : String) : Reads string (printString s) s := by
  intro rest _
  rw [printString, List.cons_append, List.cons_append, List.append_assoc, List.singleton_append,
    string, bind_eq (next?_cons rfl _)]
  simp only
  rw [bind_eq (skip_cons ..), bind_eq (stringEnd_flatMap ..), List.reverse_nil, List.nil_append,
    String.ofList_toList]
  rfl

theorem toList_toString (n : Nat) : (toString n).toList = Nat.toDigits 10 n := String.toList_ofList

theorem isDigit_opens (digit : isDigit c = true) :
    isBlank c = false ∧ c ≠ ']' ∧ c ≠ 'n' ∧ c ≠ '-' := by
  refine ⟨?_, ?_, ?_, ?_⟩
  · cases blank : isBlank c with
    | false => rfl
    | true =>
      simp only [isBlank, Bool.or_eq_true, beq_iff_eq] at blank
      rcases blank with ((rfl | rfl) | rfl) | rfl <;> contradiction
  all_goals
    rintro rfl
    contradiction

theorem toString_eq_cons (n : Nat) :
    ∃ c more, (toString n).toList = c :: more ∧ isDigit c = true := by
  obtain ⟨c, more, opens⟩ := List.exists_cons_of_ne_nil (Nat.toDigits_ne_nil (b := 10) (n := n))
  exact ⟨c, more, (toList_toString n).trans opens,
    isDigit_of_mem_toDigits (n := n) (opens ▸ List.mem_cons_self)⟩

theorem opens_toString (n : Nat) : Opens (toString n).toList := by
  obtain ⟨c, more, opens, digit⟩ := toString_eq_cons n
  obtain ⟨filled, open', word, -⟩ := isDigit_opens digit
  exact ⟨c, more, opens, filled, open', word⟩

theorem reads_word (w : UInt64) : Reads word (toString w.toNat).toList w := by
  intro rest ends
  obtain ⟨c, more, opens, digit⟩ := toString_eq_cons w.toNat
  have read := number_toDigits w.toNat_lt ends
  rw [← toList_toString, opens, List.cons_append] at read
  obtain ⟨filled, -, -, unsigned⟩ := isDigit_opens digit
  rw [opens, List.cons_append, word, bind_eq (next?_cons filled _)]
  -- The digit is no literal, so the match on it is told apart by what it is not.
  generalize same : some c = first
  split
  · contradiction
  · rename_i same
    exact absurd (Option.some.inj same) unsigned
  · rename_i first same
    obtain rfl := Option.some.inj same
    rw [if_pos digit, bind_eq read]
    simp only [UInt64.ofNat_toNat]
    rfl

theorem reads_null : Reads (optional item) "null".toList none := fun _ _ => rfl

theorem Reads.optional (reads : Reads item text x) (opens : Opens text) :
    Reads (optional item) text (some x) := by
  intro rest ends
  have read := reads rest ends
  obtain ⟨c, more, rfl, filled, -, word⟩ := opens
  rw [List.cons_append] at read ⊢
  rw [Reader.optional, bind_eq (next?_cons filled _)]
  generalize same : some c = first
  split
  · exact absurd (Option.some.inj same) word
  · exact map_eq read

/-! Lists -/

theorem hasItem_nil (first : Bool) (rest : List Char) :
    hasItem first (commasFrom first [] ++ ']' :: rest) = .ok (false, ']' :: rest) := rfl

theorem hasItem_cons (first : Bool) (opens : Opens text) (rest : List Char) :
    hasItem first (commasFrom first (text :: texts) ++ rest) =
      .ok (true, text ++ (commasFrom false texts ++ rest)) := by
  obtain ⟨c, more, rfl, filled, inside, -⟩ := opens
  cases first with
  | true =>
    simp only [commasFrom, ↓reduceIte, List.cons_append, List.append_assoc]
    rw [hasItem, bind_eq (next?_cons filled _)]
    generalize same : some c = first
    split
    · contradiction
    · exact absurd (Option.some.inj same) inside
    · rfl
  | false =>
    simp only [commasFrom, Bool.false_eq_true, ↓reduceIte, List.cons_append, List.append_assoc]
    rw [hasItem, bind_eq (next?_cons rfl _)]
    refine (bind_eq (skip_cons ..)).trans ?_
    rw [bind_eq (next?_cons filled _)]
    generalize same : some c = first
    split
    · exact absurd (Option.some.inj same) inside
    · rfl
    · contradiction

theorem items_commasFrom (each : ∀ x ∈ xs, Opens (print x) ∧ Reads item (print x) x) (first : Bool)
    (enough : xs.length < bound) (rest : List Char) :
    items item first bound (commasFrom first (xs.map print) ++ ']' :: rest) =
      .ok (xs, ']' :: rest) := by
  induction xs generalizing first bound with
  | nil =>
    obtain ⟨bound, rfl⟩ := Nat.exists_eq_succ_of_ne_zero (Nat.ne_of_gt enough)
    rw [List.map_nil, items, bind_eq (hasItem_nil ..)]
    rfl
  | cons x xs ih =>
    -- One of the bound is taken for each item, so it stays above the number of those to come.
    obtain ⟨bound, rfl⟩ := Nat.exists_eq_succ_of_ne_zero (Nat.ne_zero_of_lt enough)
    obtain ⟨⟨opens, reads⟩, others⟩ := List.forall_mem_cons.mp each
    rw [List.map_cons, items, bind_eq (hasItem_cons first opens _), if_pos rfl,
      bind_eq (reads _ (ends_commasFrom (.inl rfl) _ rest)),
      bind_eq (ih others false (Nat.lt_of_succ_lt_succ enough))]
    rfl

theorem opens_printList (texts : List (List Char)) : Opens (printList texts) :=
  ⟨_, _, rfl, by decide⟩

theorem reads_list (each : ∀ x ∈ xs, Opens (print x) ∧ Reads item (print x) x) :
    Reads (list item) (printList (xs.map print)) xs := by
  intro rest _
  have filled : ∀ text ∈ xs.map print, text ≠ [] := by
    intro text mem
    obtain ⟨x, inside, rfl⟩ := List.mem_map.mp mem
    obtain ⟨_, _, opens, -⟩ := (each x inside).1
    exact opens ▸ List.cons_ne_nil _ _
  have enough := length_lt_commasFrom filled ']' rest
  rw [List.length_map] at enough
  rw [printList, commas_eq, List.cons_append, List.cons_append, List.append_assoc,
    List.singleton_append, list, bind_eq (next?_cons rfl _)]
  simp only
  rw [bind_eq (skip_cons ..), bind_eq (get_eq _),
    bind_eq (items_commasFrom each true enough rest), bind_eq (skip_cons ..)]
  rfl

/-! Objects -/

/-- A field as it is written. -/
def printField (entry : String × List Char) : List Char :=
  printString entry.1 ++ ':' :: entry.2

theorem printField_eq (name : String) (value : List Char) : printField (name, value) =
    '\x22' :: (name.toList.flatMap escape ++ '\x22' :: ':' :: value) := by
  simp [printField, printString]

/-- The states that the fields of an object lead through. -/
inductive Builds (field : σ → String → Reader σ) : σ → List (String × List Char) → σ → Prop
  | nil {s : σ} : Builds field s [] s
  | cons {s t u : σ} {name : String} {value : List Char} {entries : List (String × List Char)} :
      Reads (field s name) (':' :: value) t → Builds field t entries u →
      Builds field s ((name, value) :: entries) u

variable {field : σ → String → Reader σ} {s t : σ} {entries : List (String × List Char)}

theorem hasKey_nil (first : Bool) (rest : List Char) :
    hasKey first (commasFrom first [] ++ '\x7d' :: rest) = .ok (false, '\x7d' :: rest) := rfl

theorem hasKey_cons (first : Bool) (rest : List Char) :
    hasKey first (commasFrom first (('\x22' :: text) :: texts) ++ rest) =
      .ok (true, '\x22' :: text ++ (commasFrom false texts ++ rest)) := by
  rw [commasFrom, List.append_assoc]
  cases first <;> rfl

theorem Builds.fields_commasFrom (built : Builds field s entries t) (first : Bool)
    (enough : entries.length < bound) (rest : List Char) :
    fields field s first bound (commasFrom first (entries.map printField) ++ '\x7d' :: rest) =
      .ok (t, '\x7d' :: rest) := by
  induction built generalizing first bound with
  | nil =>
    obtain ⟨bound, rfl⟩ := Nat.exists_eq_succ_of_ne_zero (Nat.ne_of_gt enough)
    rw [List.map_nil, fields, bind_eq (hasKey_nil ..)]
    rfl
  | cons reads _ ih =>
    obtain ⟨bound, rfl⟩ := Nat.exists_eq_succ_of_ne_zero (Nat.ne_zero_of_lt enough)
    rw [List.map_cons, printField_eq, fields, bind_eq (hasKey_cons first _), if_pos rfl,
      List.cons_append, bind_eq (skip_cons ..), List.append_assoc, List.cons_append,
      bind_eq (stringEnd_flatMap ..), List.reverse_nil, List.nil_append, String.ofList_toList,
      bind_eq (reads _ (ends_commasFrom (.inr rfl) _ rest))]
    exact ih false (Nat.lt_of_succ_lt_succ enough)

/-- The fields of an object are read behind its brace, and its text is long enough for all of
them. -/
theorem Builds.object (built : Builds field s entries t) (rest : List Char) :
    ∃ more, printObject entries ++ rest = '\x7b' :: more ∧
      fields field s true more.length more = .ok (t, '\x7d' :: rest) := by
  have filled : ∀ text ∈ entries.map printField, text ≠ [] := by
    intro text mem
    obtain ⟨⟨name, value⟩, -, rfl⟩ := List.mem_map.mp mem
    exact printField_eq name value ▸ List.cons_ne_nil _ _
  have enough := length_lt_commasFrom filled '\x7d' rest
  rw [List.length_map] at enough
  refine ⟨_, ?_, built.fields_commasFrom true enough rest⟩
  rw [printObject, commas_eq, List.cons_append, List.cons_append, List.append_assoc]
  rfl

theorem opens_printObject (entries : List (String × List Char)) : Opens (printObject entries) :=
  ⟨_, _, rfl, by decide⟩

/-- A field that has not been there is read behind its colon. -/
theorem Reads.once (reads : Reads r text x) (name : String) :
    Reads (once name none r) (':' :: text) x := by
  intro rest ends
  rw [List.cons_append, Reader.once]
  exact reads rest ends

theorem Reads.map (reads : Reads r text x) (f : α → β) :
    Reads (do pure (f (← r))) text (f x) := by
  intro rest ends
  rw [bind_eq (reads rest ends)]
  rfl

/-- A value is all that is left of its text. -/
theorem parse_eq (reads : Reads r text x) : parse r (String.ofList text) = .ok x := by
  have read := reads [] nofun
  rw [List.append_nil] at read
  rw [parse, String.toList_ofList, StateT.run, bind_eq read]
  rfl

end Reader
end FirmwareMeta.Json
