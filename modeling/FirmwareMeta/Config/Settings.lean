import FirmwareMeta.Config.Options
import FirmwareMeta.Failure

/-!
Options that a program needs. What is missing or unreadable is reported with the key, and with
the file if the options come from one.
-/
namespace FirmwareMeta.Config

structure Settings where
  source : Option Path
  options : Options

namespace Settings

def need (s : Settings) (key : String) (value : Option String) : Except Failure String :=
  match value with
  | some value => .ok value
  | none => .error (.optionUnset key s.source)

def require (s : Settings) (key : String) : Except Failure String :=
  s.need key (s.options.get? key)

def requireUnquoted (s : Settings) (key : String) : Except Failure String :=
  s.need key (s.options.unquoted? key)

/-- The word of an option; an option that is not set has none. -/
def word (s : Settings) (key : String) : Except Failure (Option UInt32) :=
  match s.options.get? key with
  | none => .ok none
  | some value =>
    match Options.word? value with
    | some w => .ok (some w)
    | none => .error (.optionInvalid key value)

def requireWord (s : Settings) (key : String) : Except Failure UInt32 :=
  match s.word key with
  | .error e => .error e
  | .ok (some w) => .ok w
  | .ok none => .error (.optionUnset key s.source)

end Settings
end FirmwareMeta.Config
