import FirmwareMeta.Toml.Value

/-!
Documents: lines with comments, headers of tables, and keys with values.
-/
namespace FirmwareMeta.Toml
namespace Parser

/-- A header's key between its brackets, with the bytes of all that. -/
def headerKey (opening closing : List Char) : Parser (List Key × Span) :=
  spanned do
    text opening
    let path ← key.commit
    ((text closing).commit.expected "`.`").expected ("`" ++ String.ofList closing ++ "`")
    pure path

/-- A header and the rest of its line. -/
def headerLine (opening closing : List Char)
    (enter : List Key → Span → Except Cause Assembly) : Parser Assembly :=
  (do
    let header ← headerKey opening closing
    lineRest.commit
    pure header : Parser (List Key × Span)).convert fun (path, span) => enter path span

def header (a : Assembly) : Parser Assembly :=
  label "table header" do
    match (← get).rest with
    | '[' :: '[' :: _ => headerLine ['[', '['] [']', ']'] a.openRepeated
    | '[' :: _ :: _ => headerLine ['['] [']'] a.openTable
    | _ => fail

/-- A value under a key, and the rest of its line. -/
def definition (a : Assembly) : Parser Assembly :=
  (keyValue (value (maxDepth - 1)) lineRest).convert fun (path, v, span) => a.define path v span

/-- What a line begins with decides what it is. -/
def statement (a : Assembly) : Parser Assembly := do
  match ← next? with
  | none => fail
  | some '#' => commit do comment; lineEnd; pure a
  | some '[' => (header a).commit
  | some '\n' => newline; pure a
  | some '\r' => newline; pure a
  | some _ => (definition a).commit

/-- Statements up to what is none, at most `bound` of them. -/
def statements (a : Assembly) : (bound : Nat) → Parser Assembly
  | 0 => pure a
  | bound + 1 => do
    match ← (do let a ← statement a; blanks; pure a : Parser Assembly).optional with
    | some a => statements a bound
    | none => pure a

/-- A document. A byte order mark may stand in front of it. -/
def document : Parser Assembly := do
  let _ ← (char '\uFEFF').optional
  blanks
  let a ← statements .start (← get).rest.length
  ended
  pure a

end Parser

/-- The tables of a text. -/
def parse (source : String) : Except Fault Table :=
  let text := source.toList
  match Parser.document ⟨text, 0⟩ with
  | .error r => .error (r.fault text)
  | .ok (a, _) =>
    match a.close with
    | .ok t => .ok t
    | .error cause => .error ⟨⟨0, 0⟩, cause.message⟩

end FirmwareMeta.Toml
