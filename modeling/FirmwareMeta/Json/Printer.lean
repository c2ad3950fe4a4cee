/-!
JSON texts without blanks.
-/
namespace FirmwareMeta.Json

/-- A character in a string. Control characters have short escapes or their number. -/
def escape (c : Char) : List Char :=
  match c with
  | '\x22' => ['\\', '\x22']
  | '\\' => ['\\', '\\']
  | '\x08' => ['\\', 'b']
  | '\x0c' => ['\\', 'f']
  | '\n' => ['\\', 'n']
  | '\r' => ['\\', 'r']
  | '\t' => ['\\', 't']
  | c =>
    if c < ' ' then
      ['\\', 'u', '0', '0', Nat.digitChar (c.toNat / 16), Nat.digitChar (c.toNat % 16)]
    else [c]

def printString (s : String) : List Char :=
  '\x22' :: s.toList.flatMap escape ++ ['\x22']

/-- Texts with commas between them. -/
def commas : List (List Char) → List Char
  | [] => []
  | [text] => text
  | text :: rest => text ++ ',' :: commas rest

def printList (items : List (List Char)) : List Char :=
  '[' :: commas items ++ [']']

def printObject (fields : List (String × List Char)) : List Char :=
  '\x7b' :: commas (fields.map fun (name, value) => printString name ++ ':' :: value) ++ ['\x7d']

end FirmwareMeta.Json
