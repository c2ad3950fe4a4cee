import FirmwareMeta.Build.Layout

/-!
The command line. Options of the program stand in front of the subcommand's name or behind it,
options of the subcommand behind it. The value of an option is taken in when the next option or
the end is reached, so of two mistakes the one that is reached first is reported.
-/
namespace FirmwareMeta.Command

/-- Why a command line is refused, or what it asks for instead of a run. -/
inductive Usage where
  | help
  | version
  /-- Nothing is asked for. -/
  | nothing
  | missingSubcommand
  | invalidSubcommand
  | unknownArgument
  | invalidValue
  | conflict
  | tooManyValues
  | missingRequired
  deriving DecidableEq, Repr

inductive Key where
  | help
  | version
  | verbose
  | config
  | input
  | directory
  | description
  | softDeviceImage
  | installer
  deriving DecidableEq, Repr

namespace Key

def long : Key → String
  | help => "help"
  | version => "version"
  | verbose => "verbose"
  | config => "config"
  | input => "input"
  | directory => "build-dir"
  | description => "hardware-description"
  | softDeviceImage => "softdevice-image"
  | installer => "installer-dir"

def short? : Key → Option Char
  | help => some 'h'
  | version => some 'V'
  | verbose => some 'v'
  | config => some 'c'
  | input => some 'i'
  | _ => none

def takesValue : Key → Bool
  | help => false
  | version => false
  | verbose => false
  | _ => true

end Key

/-- What a name behind the program's own options stands for. -/
inductive Subcommand where
  | help
  | build (selection : Build.Selection)
  | dump
  deriving DecidableEq, Repr

def Subcommand.ofName? : String → Option Subcommand
  | "help" => some .help
  | "flash" => some (.build .entry)
  | "update" => some (.build .update)
  | "all" => some (.build .all)
  | "dump" => some .dump
  | _ => none

/-- The options of the program, and of a subcommand. -/
def rootKeys : List Key := [.help, .version, .verbose, .config]

def Subcommand.keys : Subcommand → List Key
  | build _ =>
    [.help, .verbose, .config, .directory, .description, .softDeviceImage, .installer]
  | dump => [.help, .verbose, .config, .input]
  | help => []

/-- What the arguments so far have given. -/
structure Progress where
  /-- The options with their values; a flag has an empty one. -/
  given : List (Key × String)
  /-- The last option with a value of its own, which may still be to come. -/
  pending : Option (Key × Option String)
  /-- Whether `--` has been seen, behind which there are no options. -/
  escaped : Bool

namespace Progress

def start : Progress := ⟨[], none, false⟩

def waits (p : Progress) : Bool :=
  match p.pending with
  | some (_, none) => true
  | _ => false

def value? (p : Progress) (k : Key) : Option String := p.given.lookup k

def has (p : Progress) (k : Key) : Bool := (p.value? k).isSome

/-- Takes an option in. An option stands once, and a value is not empty. -/
def give (p : Progress) (k : Key) (value : Option String) : Except Usage Progress :=
  match value with
  | none => .error .invalidValue
  | some v =>
    if p.has k then .error .conflict
    else if k.takesValue && v.isEmpty then .error .invalidValue
    else .ok { p with given := p.given ++ [(k, v)] }

/-- Takes the last option in. -/
def settle (p : Progress) : Except Usage Progress :=
  match p.pending with
  | none => .ok p
  | some (k, value) => { p with pending := none }.give k value

/-- An option with a value that is joined to it, if there is one. -/
def option (p : Progress) (k : Key) (joined : Option String) : Except Usage Progress := do
  let p ← p.settle
  match k, joined with
  | .help, _ => throw .help
  | .version, _ => throw .version
  | .verbose, _ => p.give k (some "")
  | k, some v => p.give k (some v)
  | k, none => pure { p with pending := some (k, none) }

/-- The options behind one dash. The first one that has a value takes the rest of the text. -/
def cluster (keys : List Key) (p : Progress) : List Char → Except Usage Progress
  | [] => .ok p
  | c :: rest =>
    match keys.find? (·.short? = some c) with
    | none => .error .unknownArgument
    | some k =>
      if k.takesValue then
        match rest with
        | [] => p.option k none
        | '=' :: text => p.option k (some (String.ofList text))
        | text => p.option k (some (String.ofList text))
      else
        match p.option k none with
        | .ok p => cluster keys p rest
        | .error e => .error e

/-- An option behind two dashes, with a value behind an equals sign if there is one. -/
def longOption (keys : List Key) (p : Progress) (text : List Char) : Except Usage Progress :=
  let name := String.ofList (text.takeWhile (· ≠ '='))
  let joined := match text.dropWhile (· ≠ '=') with
    | [] => none
    | _ :: value => some (String.ofList value)
  match keys.find? (·.long = name) with
  | none => .error .unknownArgument
  | some k => if !k.takesValue && joined.isSome then .error .tooManyValues else p.option k joined

/-- An argument that is no subcommand. `stray` is what to report of one that is no option and no
value either. -/
def argument (keys : List Key) (stray : Usage) (p : Progress) (text : String) :
    Except Usage Progress :=
  if p.escaped then .error stray
  else match text.toList with
    | ['-', '-'] => .ok { p with escaped := true }
    | '-' :: '-' :: rest => p.longOption keys rest
    | '-' :: c :: rest => p.cluster keys (c :: rest)
    | _ =>
      match p.pending with
      | some (k, none) => .ok { p with pending := some (k, some text) }
      | _ => .error stray

end Progress

/-- The arguments of a build. -/
structure BuildOptions where
  directory : Path
  description : Option Path
  softDeviceImage : Option Path
  installer : Option Path
  deriving DecidableEq, Repr

inductive Request where
  | build (selection : Build.Selection) (options : BuildOptions)
  | dump (input : Path)
  deriving DecidableEq, Repr

structure Invocation where
  request : Request
  verbose : Bool
  config : Option Path
  deriving DecidableEq, Repr

/-- The arguments behind a subcommand's name. -/
def Subcommand.read (s : Subcommand) (arguments : List String) : Except Usage Progress := do
  let p ← arguments.foldlM (Progress.argument s.keys .unknownArgument) .start
  p.settle

def Subcommand.request (s : Subcommand) (p : Progress) : Except Usage Request :=
  let path (k : Key) : Option Path := (p.value? k).map Path.mk
  match s with
  | build selection =>
    match path .directory with
    | some directory =>
      .ok (.build selection
        ⟨directory, path .description, path .softDeviceImage, path .installer⟩)
    | none => .error .missingRequired
  | dump =>
    match path .input with
    | some input => .ok (.dump input)
    | none => .error .missingRequired
  | help => .error .help

/-- Help for the names behind `help`. Subcommands have no subcommands of their own. -/
def helpFor : List String → Usage
  | [] => .help
  | [name] => if (Subcommand.ofName? name).isSome then .help else .invalidSubcommand
  | _ => .invalidSubcommand

/-- What a subcommand and its arguments ask for, behind the program's own options. What these
lack is reported after what the subcommand lacks, and their values give way. -/
def Subcommand.invoke (s : Subcommand) (root : Progress) (arguments : List String) :
    Except Usage Invocation := do
  if s = help then throw (helpFor arguments)
  let p ← s.read arguments
  let request ← s.request p
  let root ← root.settle
  pure ⟨request, root.has .verbose || p.has .verbose,
    ((p.value? .config).orElse fun _ => root.value? .config).map Path.mk⟩

/-- Reads on behind some arguments of the program. -/
def parseFrom (root : Progress) : List String → Except Usage Invocation
  | [] => do
    let root ← root.settle
    throw (if root.given.isEmpty then .nothing else .missingSubcommand)
  | text :: rest =>
    let named := Subcommand.ofName? text
    match if root.escaped || root.waits then none else named with
    | some s => s.invoke root rest
    | none => do
      let stray : Usage :=
        if root.escaped && named.isSome then .unknownArgument else .invalidSubcommand
      parseFrom (← root.argument rootKeys stray text) rest

/-- What the arguments of the program ask for. -/
def parse (arguments : List String) : Except Usage Invocation := parseFrom .start arguments

end FirmwareMeta.Command
