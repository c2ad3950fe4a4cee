import FirmwareMeta.Json.Fault
import FirmwareMeta.Text.Numeral

/-!
Readers of JSON texts. A reader takes a value of one type off the front of a text, so a text is
checked against the expected type as it is read, and what is wrong with it first is reported.
-/
namespace FirmwareMeta.Json

/-- Takes a value off the front of a text. -/
abbrev Reader := StateT (List Char) (Except Stop)

namespace Reader

variable {α σ : Type}

/-- Stops where the reader is. -/
def fail (cause : Cause) : Reader α := fun rest => .error ⟨cause, rest, 0⟩

/-- Stops behind the next byte, if there is one. -/
def failAhead (cause : Cause) : Reader α :=
  fun rest => .error ⟨cause, rest, if rest.isEmpty then 0 else 1⟩

def isBlank (c : Char) : Bool := c == ' ' || c == '\n' || c == '\t' || c == '\r'

/-- Goes over blanks and looks at what follows. -/
def next? : Reader (Option Char) := fun rest =>
  let rest := rest.dropWhile isBlank
  .ok (rest.head?, rest)

/-- Looks at what follows at once. -/
def head? : Reader (Option Char) := fun rest => .ok (rest.head?, rest)

def skip (n : Nat) : Reader Unit := fun rest => .ok ((), rest.drop n)

/-- The rest of a word whose first letter is behind. -/
def wordEnd : List Char → Reader Unit
  | [] => pure ()
  | c :: more => do
    match ← head? with
    | none => fail .valueEnds
    | some d => if c = d then skip 1; wordEnd more else failAhead .word

end Reader

/-! Strings -/

/-- The number of four hexadecimal digits at the front of a text. Other text of four bytes is no
number. -/
def fourDigits (rest : List Char) : Except Stop Nat :=
  match Numeral.digits? 16 (rest.take 4) with
  | some n => if (rest.take 4).length = 4 then .ok n else .error ⟨.stringEnds, [], 0⟩
  | none =>
    if Text.utf8Length rest < 4 then .error ⟨.stringEnds, [], 0⟩ else .error ⟨.escape, rest, 4⟩

/-- What a short escape stands for. -/
def shortEscape? : Char → Option Char
  | '\x22' => some '\x22'
  | '\\' => some '\\'
  | '/' => some '/'
  | 'b' => some '\x08'
  | 'f' => some '\x0c'
  | 'n' => some '\n'
  | 'r' => some '\r'
  | 't' => some '\t'
  | _ => none

def isHighHalf (n : Nat) : Bool := 0xD800 ≤ n && n ≤ 0xDBFF

def isLowHalf (n : Nat) : Bool := 0xDC00 ≤ n && n ≤ 0xDFFF

/-- The second half of a pair, whose escape is at the front of a text. -/
def lowHalf (rest : List Char) : Except Stop Nat :=
  match rest with
  | [] => .error ⟨.stringEnds, [], 0⟩
  | ['\\'] => .error ⟨.stringEnds, [], 0⟩
  | '\\' :: 'u' :: more =>
    match fourDigits more with
    | .error stop => .error stop
    | .ok n => if isLowHalf n then .ok n else .error ⟨.loneSurrogate, more.drop 4, 0⟩
  | '\\' :: more => .error ⟨.pairEnds, more, 1⟩
  | rest => .error ⟨.pairEnds, rest, 1⟩

/-- The character of an escape whose backslash is behind, and the characters that it takes. -/
def escaped (rest : List Char) : Except Stop (Char × Nat) :=
  match rest with
  | [] => .error ⟨.stringEnds, [], 0⟩
  | 'u' :: more =>
    match fourDigits more with
    | .error stop => .error stop
    | .ok n =>
      let rest := more.drop 4
      if isLowHalf n then .error ⟨.loneSurrogate, rest, 0⟩
      else if isHighHalf n then
        match lowHalf rest with
        | .error stop => .error stop
        | .ok low => .ok (.ofNat (0x10000 + 0x400 * (n - 0xD800) + (low - 0xDC00)), 11)
      else .ok (.ofNat n, 5)
  | c :: _ =>
    match shortEscape? c with
    | some d => .ok (d, 1)
    | none => .error ⟨.escape, rest, 1⟩

/-- The rest of a string whose opening quote and first characters, the latest first, are
behind. -/
def stringEnd (done : List Char) (rest : List Char) : Except Stop (List Char × List Char) :=
  match rest with
  | [] => .error ⟨.stringEnds, [], 0⟩
  | '\x22' :: rest => .ok (done.reverse, rest)
  | '\\' :: rest =>
    match escaped rest with
    | .error stop => .error stop
    | .ok (c, n) => stringEnd (c :: done) (rest.drop n)
  | c :: rest =>
    if c < ' ' then .error ⟨.controlCharacter, rest, 0⟩ else stringEnd (c :: done) rest
termination_by rest.length
decreasing_by
  all_goals
    simp only [List.length_cons, List.length_drop]
    omega

/-! Numbers -/

inductive Number where
  | natural (value : Nat)
  | negative (value : Nat)
  /-- A binary64 number, as its bits. -/
  | float (bits : UInt64)
  deriving DecidableEq, Repr

def Number.found : Number → Found
  | natural value => .integer value
  | negative value => .integer (-(value : Int))
  | float bits => .float bits

def isDigit (c : Char) : Bool := '0' ≤ c && c ≤ '9'

/-- Values of 64 bits, and of the exponents of a number. -/
def wordLimit : Nat := 0x10000000000000000
def exponentLimit : Nat := 0x80000000

/-- Takes digits into a number as long as it stays below a limit, and counts them. -/
def gather (limit value count : Nat) : List Char → Nat × Nat
  | [] => (value, count)
  | c :: rest =>
    let more := 10 * value + (c.toNat - 48)
    if isDigit c && more < limit then gather limit more (count + 1) rest else (value, count)

/-- The digits at the front of a text. -/
def digits (rest : List Char) : List Char := rest.takeWhile isDigit

/-- `f * 10 ^ exponent` rounded after each operation; `none` if it is too large. Two divisions by
the largest power leave nothing of a word. -/
def scale (f : Float) (exponent : Int) : (divisions : Nat) → Option Float
  | 0 => if exponent < 0 ∨ f == 0 then some 0 else none
  | more + 1 =>
    if exponent.natAbs ≤ 308 then
      let power := Float.ofScientific 1 false exponent.natAbs
      if exponent < 0 then some (f / power)
      else if (f * power).isInf then none
      else some (f * power)
    else if f == 0 then some f
    else if 0 ≤ exponent then none
    else scale (f / Float.ofScientific 1 false 308) (exponent + 308) more

/-- A float from its significand and exponent, read up to a rest of the text. -/
def floatNumber (positive : Bool) (significand : Nat) (exponent : Int) (rest : List Char) :
    Except Stop (Number × List Char) :=
  match scale (UInt64.ofNat significand).toFloat exponent 3 with
  | some f => .ok (.float (if positive then f else -f).toBits, rest)
  | none => .error ⟨.numberRange, rest, 0⟩

/-- Behind the letter of an exponent. -/
def exponentEnd (positive : Bool) (significand : Nat) (before : Int) (rest : List Char) :
    Except Stop (Number × List Char) :=
  let (raise, rest) := match rest with
    | '+' :: rest => (true, rest)
    | '-' :: rest => (false, rest)
    | rest => (true, rest)
  match rest with
  | [] => .error ⟨.valueEnds, [], 0⟩
  | c :: _ =>
    if !isDigit c then .error ⟨.number, rest, 1⟩
    else
      let (value, count) := gather exponentLimit 0 0 rest
      let all := (digits rest).length
      if count < all then
        if significand ≠ 0 ∧ raise then .error ⟨.numberRange, rest.drop (count + 1), 0⟩
        else .ok (.float (if positive then (0 : Float) else -0).toBits, rest.drop all)
      else
        floatNumber positive significand (if raise then before + value else before - value)
          (rest.drop all)

/-- Behind all digits of a number with a fraction or an exponent. -/
def fractionEnd (positive : Bool) (significand : Nat) (before : Int) (rest : List Char) :
    Except Stop (Number × List Char) :=
  match rest with
  | 'e' :: rest => exponentEnd positive significand before rest
  | 'E' :: rest => exponentEnd positive significand before rest
  | rest => floatNumber positive significand before rest

/-- A number behind its sign. Digits that do not fit a word count as powers of ten. -/
def number (positive : Bool) (rest : List Char) : Except Stop (Number × List Char) :=
  match rest with
  | [] => .error ⟨.valueEnds, [], 0⟩
  | c :: more =>
    if !isDigit c then .error ⟨.number, rest, 1⟩
    else if c = '0' && more.head?.any isDigit then .error ⟨.number, more, 1⟩
    else
      let (value, count) := gather wordLimit 0 0 rest
      let all := (digits rest).length
      let before : Int := all - count
      match rest.drop all with
      | '.' :: fraction =>
        match fraction with
        | [] => .error ⟨.valueEnds, [], 0⟩
        | d :: _ =>
          if !isDigit d then .error ⟨.number, fraction, 1⟩
          else
            let (value, count) := gather wordLimit value 0 fraction
            fractionEnd positive value (before - count) (fraction.drop (digits fraction).length)
      | 'e' :: rest => exponentEnd positive value before rest
      | 'E' :: rest => exponentEnd positive value before rest
      | rest =>
        if count < all then floatNumber positive value before rest
        else if positive then .ok (.natural value, rest)
        else if value = 0 ∨ 0x8000000000000000 < value then floatNumber false value 0 rest
        else .ok (.negative value, rest)

namespace Reader

variable {α σ : Type}

/-- Stops because the value that follows is of another type than expected. Short values count as
read; lists and objects do not. -/
def mismatch (expected : String) : Reader α := do
  let refuse (found : Found) : Reader α := fail (.wrongType found expected)
  match ← head? with
  | some 'n' => skip 1; wordEnd ['u', 'l', 'l']; refuse .null
  | some 't' => skip 1; wordEnd ['r', 'u', 'e']; refuse (.boolean true)
  | some 'f' => skip 1; wordEnd ['a', 'l', 's', 'e']; refuse (.boolean false)
  | some '-' => skip 1; let n ← number false; refuse n.found
  | some '\x22' => skip 1; let text ← stringEnd []; refuse (.text text)
  | some '[' => refuse .sequence
  | some '\x7b' => refuse .map
  | some c => if isDigit c then let n ← number true; refuse n.found else failAhead .value
  | none => failAhead .valueEnds

def string : Reader String := do
  match ← next? with
  | none => failAhead .valueEnds
  | some '\x22' => skip 1; let text ← stringEnd []; pure (String.ofList text)
  | some _ => mismatch "a string"

/-- A number below `2 ^ 64`. -/
def word : Reader UInt64 := do
  let expected := "u64"
  match ← next? with
  | none => failAhead .valueEnds
  | some '-' =>
    skip 1
    match ← number false with
    | .float bits => fail (.wrongType (.float bits) expected)
    | n => fail (.wrongValue n.found expected)
  | some c =>
    if isDigit c then
      match ← number true with
      | .natural value => pure (.ofNat value)
      | n => fail (.wrongType n.found expected)
    else mismatch expected

/-- A value, or nothing for `null`. -/
def optional (item : Reader α) : Reader (Option α) := do
  match ← next? with
  | some 'n' => skip 1; wordEnd ['u', 'l', 'l']; pure none
  | _ => some <$> item

/-- Whether an item follows in a list; a comma is taken in front of all but the first. -/
def hasItem (first : Bool) : Reader Bool := do
  match ← next? with
  | none => failAhead .listEnds
  | some ']' => pure false
  | some c =>
    if first then pure true
    else if c = ',' then
      skip 1
      match ← next? with
      | some ']' => failAhead .trailingComma
      | some _ => pure true
      | none => failAhead .valueEnds
    else failAhead .listCommaOrEnd

/-- Whether a key follows in an object. -/
def hasKey (first : Bool) : Reader Bool := do
  match ← next? with
  | none => failAhead .objectEnds
  | some '\x7d' => pure false
  | some c =>
    if first then (if c = '\x22' then pure true else failAhead .keyNotString)
    else if c = ',' then
      skip 1
      match ← next? with
      | some '\x22' => pure true
      | some '\x7d' => failAhead .trailingComma
      | some _ => failAhead .keyNotString
      | none => failAhead .valueEnds
    else failAhead .objectCommaOrEnd

def colon : Reader Unit := do
  match ← next? with
  | some ':' => skip 1
  | some _ => failAhead .colon
  | none => failAhead .objectEnds

/-- The items of a list up to its bracket, which stays; at most `bound` of them. -/
def items (item : Reader α) (first : Bool) : (bound : Nat) → Reader (List α)
  | 0 => failAhead .listEnds
  | bound + 1 => do
    if ← hasItem first then
      let x ← item
      let xs ← items item false bound
      pure (x :: xs)
    else pure []

/-- A list. Its text has more characters than it has items. -/
def list (item : Reader α) : Reader (List α) := do
  match ← next? with
  | none => failAhead .valueEnds
  | some '[' =>
    skip 1
    let rest ← get
    let xs ← items item true rest.length
    skip 1
    pure xs
  | some _ => mismatch "a sequence"

/-- The next item of a list of known length, if the list goes on. -/
def item? (first : Bool) (item : Reader α) : Reader (Option α) := do
  if ← hasItem first then some <$> item else pure none

/-- The end of a list that must not go on. -/
def listEnd : Reader Unit := do
  match ← next? with
  | some ']' => skip 1
  | some ',' =>
    skip 1
    match ← next? with
    | some ']' => failAhead .trailingComma
    | _ => failAhead .trailingCharacters
  | some _ => failAhead .trailingCharacters
  | none => failAhead .listEnds

/-- The fields of an object up to its brace, which stays. Each field changes what the fields so
far have built. -/
def fields (field : σ → String → Reader σ) (s : σ) (first : Bool) : (bound : Nat) → Reader σ
  | 0 => failAhead .objectEnds
  | bound + 1 => do
    if ← hasKey first then
      skip 1
      let key ← stringEnd []
      let s ← field s (String.ofList key)
      fields field s false bound
    else pure s

/-- Stops for the sake of a whole list or object, behind its end if that follows. -/
def failBehind (close : Char) (cause : Cause) : Reader α := do
  if (← next?) = some close then skip 1
  fail cause

/-- A field that an object has once. -/
def once (name : String) (seen : Option α) (value : Reader α) : Reader α := do
  if seen.isSome then failBehind '\x7d' (.repeatedField name)
  colon
  value

/-- A value that is all of a text. -/
def parse (value : Reader α) (text : String) : Except Fault α :=
  let document : Reader α := do
    let x ← value
    match ← next? with
    | none => pure x
    | some _ => failAhead .trailingCharacters
  match document.run text.toList with
  | .ok (x, _) => .ok x
  | .error stop => .error (stop.fault text.toList)

end Reader
end FirmwareMeta.Json
