import FirmwareMeta.Toml.Fault

/-!
Parsers with alternatives. A parser that is refused leaves the next alternative to be tried from
the same place, unless the refusal is final.
-/
namespace FirmwareMeta.Toml

/-- What is left of a text, and the byte at which it starts. -/
structure Cursor where
  rest : List Char
  offset : Nat
  deriving DecidableEq, Repr

abbrev Parser := StateT Cursor (Except Refusal)

namespace Parser

variable {α β : Type}

/-- Refuses in the place where the parser is. -/
def fail : Parser α := fun c => .error ⟨false, c.offset, [], none⟩

def change (f : Refusal → Refusal) (p : Parser α) : Parser α :=
  fun c => (p c).mapError f

/-- Makes refusals final. -/
def commit (p : Parser α) : Parser α := p.change fun r => { r with final := true }

def hint (h : Hint) (p : Parser α) : Parser α :=
  p.change fun r => { r with hints := r.hints ++ [h] }

def label (name : String) (p : Parser α) : Parser α := p.hint (.label name)

def expected (what : String) (p : Parser α) : Parser α := p.hint (.expected what)

/-- Tries another parser from the same place. -/
def orTry (p q : Parser α) : Parser α := fun c =>
  match p c with
  | .ok result => .ok result
  | .error r => if r.final then .error r else q c

/-- Goes on without a result if the parser is refused. -/
def optional (p : Parser α) : Parser (Option α) :=
  (some <$> p).orTry (pure none)

/-- What a parser would read here. -/
def ahead (p : Parser α) : Parser α := fun c =>
  match p c with
  | .ok (x, _) => .ok (x, c)
  | .error r => .error { r with offset := c.offset }

/-- Goes on with a function of the result, which is refused in the place where the parser
started. -/
def convert (p : Parser α) (f : α → Except Cause β) : Parser β := fun c =>
  match p c with
  | .error r => .error r
  | .ok (x, after) =>
    match f x with
    | .ok y => .ok (y, after)
    | .error cause => .error ⟨false, c.offset, [], some cause⟩

/-- Refuses results without a property in the place where the parser started. -/
def guard (p : Parser α) (holds : α → Bool) : Parser α := fun c =>
  match p c with
  | .error r => .error r
  | .ok (x, after) => if holds x then .ok (x, after) else .error ⟨false, c.offset, [], none⟩

/-- The result with the bytes that it was read from. -/
def spanned (p : Parser α) : Parser (α × Span) := do
  let start ← get
  let x ← p
  let stop ← get
  pure (x, ⟨start.offset, stop.offset⟩)

/-- The characters that a parser reads. -/
def taken (p : Parser α) : Parser (List Char) := do
  let start ← get
  let _ ← p
  let stop ← get
  pure (start.rest.take (start.rest.length - stop.rest.length))

def next? : Parser (Option Char) := fun c => .ok (c.rest.head?, c)

def advance (n : Nat) : Parser Unit := modify fun c =>
  ⟨c.rest.drop n, (c.rest.take n).foldl (fun o ch => o + ch.utf8Size) c.offset⟩

/-- One character of a class. -/
def one (holds : Char → Bool) : Parser Char := do
  match ← next? with
  | some ch => if holds ch then advance 1; pure ch else fail
  | none => fail

def char (ch : Char) : Parser Unit := do
  let _ ← one (· == ch)

/-- Characters of a class, at least `least` and at most `most` if there is such a bound. -/
def span (holds : Char → Bool) (least : Nat) (most : Option Nat) : Parser (List Char) := do
  let rest := (← get).rest
  let text := (match most with
    | some n => rest.take n
    | none => rest).takeWhile holds
  if text.length < least then fail
  advance text.length
  pure text

def all (holds : Char → Bool) : Parser (List Char) := span holds 0 none

def text (t : List Char) : Parser Unit := do
  if t.isPrefixOf (← get).rest then advance t.length else fail

def ended : Parser Unit := do
  if (← next?).isSome then fail

/-- As many results as there are, at most `bound`. -/
def upTo (bound : Nat) (p : Parser α) : Parser (List α) :=
  match bound with
  | 0 => pure []
  | bound + 1 => do
    match ← p.optional with
    | some x => do pure (x :: (← upTo bound p))
    | none => pure []

/-- As many results as there are. Each takes at least one character. -/
def many (p : Parser α) : Parser (List α) := do
  upTo (← get).rest.length p

/-- Results with separators between them, at least one. A separator without a result behind it
is left. -/
def separated (p : Parser α) (separator : Parser Unit) : Parser (List α) := do
  let first ← p
  let more ← many (do separator; p)
  pure (first :: more)

/-- Results with separators between them. -/
def separatedOrNone (p : Parser α) (separator : Parser Unit) : Parser (List α) := do
  pure ((← (separated p separator).optional).getD [])

end Parser
end FirmwareMeta.Toml
