import FirmwareMeta.Text.Unprintable

/-!
Text in double quotes for messages: quotes and backslashes are escaped, the common control
characters have short escapes, and what cannot be shown stands as its number.
-/
namespace FirmwareMeta.Text

def escape (c : Char) : List Char :=
  match c with
  | '\x00' => ['\\', '0']
  | '\t' => ['\\', 't']
  | '\r' => ['\\', 'r']
  | '\n' => ['\\', 'n']
  | '\\' => ['\\', '\\']
  | '\x22' => ['\\', '\x22']
  | c =>
    if ' ' ≤ c && c ≤ '~' then [c]
    else if isUnprintable c then
      ['\\', 'u', '\x7b'] ++ Nat.toDigits 16 c.toNat ++ ['\x7d']
    else [c]

def quote (text : List Char) : String :=
  String.ofList ('\x22' :: text.flatMap escape ++ ['\x22'])

end FirmwareMeta.Text
