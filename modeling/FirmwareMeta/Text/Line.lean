/-!
Texts as lines. `cut` keeps each terminator with its line, so the pieces concatenate to the
text; a last line may have none.
-/
namespace FirmwareMeta.Text

/-- Puts a character in front of the first line; a newline is a line of its own there. -/
def consLine (c : Char) (lines : List (List Char)) : List (List Char) :=
  if c = '\n' then ['\n'] :: lines
  else match lines with
    | [] => [[c]]
    | line :: rest => (c :: line) :: rest

/-- The lines of a text with their terminators. -/
def cut (text : List Char) : List (List Char) :=
  text.foldr consLine []

theorem flatten_consLine (c : Char) (lines : List (List Char)) :
    (consLine c lines).flatten = c :: lines.flatten := by
  unfold consLine
  split
  · simp_all
  · split <;> simp

theorem flatten_cut (text : List Char) : (cut text).flatten = text := by
  induction text with
  | nil => rfl
  | cons c rest ih => simpa [cut, flatten_consLine] using ih

/-- A line without its LF or CRLF terminator; a carriage return elsewhere belongs to the line. -/
def body (line : List Char) : List Char :=
  match line.reverse with
  | '\n' :: '\r' :: rest => rest.reverse
  | '\n' :: rest => rest.reverse
  | _ => line

def utf8Length (text : List Char) : Nat :=
  text.foldl (fun n c => n + c.utf8Size) 0

end FirmwareMeta.Text
