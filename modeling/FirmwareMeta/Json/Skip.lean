import FirmwareMeta.Json.Reader

/-!
Values that nobody asked for. They are gone over with a list of the lists and objects around
what follows; their strings and numbers are checked for form alone.
-/
namespace FirmwareMeta.Json

/-- Goes over the rest of a string and gives what is left behind its quote. -/
def skipString (rest : List Char) : Except Stop (List Char) :=
  match rest with
  | [] => .error ⟨.stringEnds, [], 0⟩
  | '\x22' :: rest => .ok rest
  | '\\' :: 'u' :: rest =>
    match fourDigits rest with
    | .error stop => .error stop
    | .ok _ => skipString (rest.drop 4)
  | ['\\'] => .error ⟨.stringEnds, [], 0⟩
  | '\\' :: c :: rest =>
    if (shortEscape? c).isSome then skipString rest else .error ⟨.escape, c :: rest, 1⟩
  | c :: rest => if c < ' ' then .error ⟨.controlCharacter, c :: rest, 0⟩ else skipString rest
termination_by rest.length
decreasing_by
  all_goals
    simp only [List.length_cons, List.length_drop]
    omega

def skipDigits (rest : List Char) : List Char := rest.dropWhile isDigit

/-- Needs a digit at the front of a text. -/
def needDigit (rest : List Char) : Except Stop Unit :=
  match rest with
  | [] => .error ⟨.number, [], 0⟩
  | c :: _ => if isDigit c then .ok () else .error ⟨.number, rest, 1⟩

/-- Goes over the exponent of a number, if there is one. -/
def skipExponent (rest : List Char) : Except Stop (List Char) :=
  let behindSign : List Char → List Char
    | '+' :: rest => rest
    | '-' :: rest => rest
    | rest => rest
  let behindLetter (rest : List Char) : Except Stop (List Char) := do
    needDigit (behindSign rest)
    pure (skipDigits (behindSign rest))
  match rest with
  | 'e' :: rest => behindLetter rest
  | 'E' :: rest => behindLetter rest
  | rest => .ok rest

/-- Goes over a number behind its sign. -/
def skipNumber (rest : List Char) : Except Stop (List Char) := do
  needDigit rest
  if rest.head? = some '0' && (rest.drop 1).head?.any isDigit then
    throw ⟨.number, rest.drop 1, 1⟩
  match skipDigits rest with
  | '.' :: fraction =>
    needDigit fraction
    skipExponent (skipDigits fraction)
  | rest => skipExponent rest

/-- What a value stands in. -/
inductive Frame where
  | list
  | object
  deriving DecidableEq, Repr

namespace Reader

/-- Leaves a reader where a function on the text ends. -/
def across (f : List Char → Except Stop (List Char)) : Reader Unit :=
  fun rest => (f rest).map ((), ·)

/-- Goes over a key and its colon. -/
def skipKey : Reader Unit := do
  match ← next? with
  | some '\x22' => skip 1; across skipString; colon
  | some _ => failAhead .keyNotString
  | none => failAhead .objectEnds

/-- Goes on to the next value of a frame. -/
def enter : Frame → Reader Unit
  | .list => pure ()
  | .object => skipKey

/-- Goes on inside frames, behind a value or, without `comma`, behind an opening bracket. Gives
the frames around the next value, and none if there is no next one. -/
def resume (comma : Bool) : List Frame → Reader (List Frame)
  | [] => pure []
  | frame :: outer => do
    match ← next?, frame with
    | some ']', .list => skip 1; resume true outer
    | some '\x7d', .object => skip 1; resume true outer
    | some c, frame =>
      if !comma then enter frame; pure (frame :: outer)
      else if c = ',' then skip 1; enter frame; pure (frame :: outer)
      else failAhead (match frame with | .list => .listCommaOrEnd | .object => .objectCommaOrEnd)
    | none, .list => failAhead .listEnds
    | none, .object => failAhead .objectEnds

/-- Goes over values until no frame is left; at most `bound` of them. -/
def skipValues (frames : List Frame) : (bound : Nat) → Reader Unit
  | 0 => failAhead .valueEnds
  | bound + 1 => do
    let simple (r : Reader Unit) : Reader (List Frame) := do r; resume true frames
    let frames ← match ← next? with
      | none => failAhead .valueEnds
      | some 'n' => simple (do skip 1; wordEnd ['u', 'l', 'l'])
      | some 't' => simple (do skip 1; wordEnd ['r', 'u', 'e'])
      | some 'f' => simple (do skip 1; wordEnd ['a', 'l', 's', 'e'])
      | some '-' => simple (do skip 1; across skipNumber)
      | some '\x22' => simple (do skip 1; across skipString)
      | some '[' => do skip 1; resume false (.list :: frames)
      | some '\x7b' => do skip 1; resume false (.object :: frames)
      | some c => if isDigit c then simple (across skipNumber) else failAhead .value
    if frames.isEmpty then pure () else skipValues frames bound

/-- Goes over a value of any type. Its text has more characters than it has values. -/
def skipValue : Reader Unit := do
  let rest ← get
  skipValues [] (rest.length + 1)

end Reader
end FirmwareMeta.Json
