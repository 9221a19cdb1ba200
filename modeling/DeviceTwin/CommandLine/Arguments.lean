import DeviceTwin.Options

/-!
Arguments of the command line.

Options stand before or after positional arguments, up to `--`. A value follows its option as the
next argument or is attached to it; only an attached value can begin with a dash. One-letter
options can be bundled. No option is given twice, verbosity apart.
-/
namespace DeviceTwin.CommandLine

/-- How a check is reported. -/
inductive ReportFormat where
  | text
  | json
  deriving DecidableEq, Repr

inductive Command where
  | convert (source : String) (output : Option String) (compact : Bool) (options : Options)
      (strict : Bool)
  | check (source : String) (format : ReportFormat) (quiet : Bool)
  deriving DecidableEq, Repr

inductive Flag where
  | output
  | compact
  | namespaceName
  | context
  | maxDepth
  | strict
  | format
  | quiet
  | verbose
  | help
  | version
  deriving DecidableEq, Repr

namespace Flag

def long : Flag → String
  | output => "output"
  | compact => "compact"
  | namespaceName => "namespace"
  | context => "context"
  | maxDepth => "max-depth"
  | strict => "strict"
  | format => "format"
  | quiet => "quiet"
  | verbose => "verbose"
  | help => "help"
  | version => "version"

def short? : Flag → Option Char
  | output => some 'o'
  | quiet => some 'q'
  | verbose => some 'v'
  | help => some 'h'
  | version => some 'V'
  | _ => none

def takesValue : Flag → Bool
  | output | namespaceName | context | maxDepth | format => true
  | _ => false

/-- The flags of a line before its command. -/
def general : List Flag := [verbose, help, version]

def ofConvert : List Flag :=
  [output, compact, namespaceName, context, maxDepth, strict, verbose, help]

def ofCheck : List Flag := [format, quiet, verbose, help]

end Flag

inductive UsageError where
  | missingCommand
  | unknownCommand (name : String)
  | unknownFlag (text : String)
  | unexpectedArgument (text : String)
  | unexpectedValue (flag : Flag)
  | missingValue (flag : Flag)
  | invalidValue (flag : Flag) (value : String)
  | repeated (flag : Flag)
  | missingSource
  deriving DecidableEq, Repr

def UsageError.message : UsageError → String
  | missingCommand => "a command is required: convert or check"
  | unknownCommand name => "unknown command '" ++ name ++ "'"
  | unknownFlag text => "unexpected argument '" ++ text ++ "'"
  | unexpectedArgument text => "unexpected argument '" ++ text ++ "'"
  | unexpectedValue flag => "unexpected value for '--" ++ flag.long ++ "'"
  | missingValue flag => "a value is required for '--" ++ flag.long ++ "'"
  | invalidValue flag value => "invalid value '" ++ value ++ "' for '--" ++ flag.long ++ "'"
  | repeated flag => "'--" ++ flag.long ++ "' cannot be used more than once"
  | missingSource => "a source is required"

/-- Why no command is carried out. -/
inductive Stop where
  | usage (error : UsageError)
  | help
  | version
  deriving DecidableEq, Repr

/-- Arguments that have been read. -/
structure Given where
  flags : List (Flag × String) := []
  positionals : List String := []
  /-- A flag whose value is the next argument. -/
  pending : Option Flag := none
  /-- Whether `--` has ended the options. -/
  ended : Bool := false

namespace Given

def has (g : Given) (flag : Flag) : Bool := (g.flags.lookup flag).isSome

def value? (g : Given) (flag : Flag) : Option String := g.flags.lookup flag

end Given

/-- An unsigned decimal below `2 ^ 64`; a plus sign and zeros may lead it. -/
def readCount? (s : String) : Option Nat :=
  let digits := match s.toList with
    | '+' :: rest => rest
    | chars => chars
  if digits.isEmpty || !digits.all Char.isDigit then none
  else
    let n := Nat.ofDigitChars 10 digits 0
    if n < Nat.pow 2 64 then some n else none

def readFormat? : String → Option ReportFormat
  | "text" => some .text
  | "json" => some .json
  | _ => none

/-- Whether a flag can have this value. -/
def isValid (flag : Flag) (value : String) : Bool :=
  match flag with
  | .output => !value.isEmpty
  | .maxDepth => (readCount? value).isSome
  | .format => (readFormat? value).isSome
  | _ => true

/-- Takes a flag with its value, which is empty for a flag without one. -/
def Given.accept (g : Given) (flag : Flag) (value : String) : Except Stop Given :=
  match flag with
  | .help => .error .help
  | .version => .error .version
  | .verbose => .ok g
  | flag =>
    if g.has flag then .error (.usage (.repeated flag))
    else if isValid flag value then .ok { g with flags := g.flags ++ [(flag, value)] }
    else .error (.usage (.invalidValue flag value))

def startsWithDash (s : String) : Bool := s.toList.head? = some '-'

/-- Takes `name`, or `name=value`, after two dashes. -/
def Given.takeLong (known : List Flag) (g : Given) (chars : List Char) : Except Stop Given :=
  let name := chars.takeWhile (· != '=')
  match known.find? (·.long.toList = name), chars.dropWhile (· != '=') with
  | none, _ => .error (.usage (.unknownFlag (String.ofList ('-' :: '-' :: chars))))
  | some flag, [] =>
    if flag.takesValue then .ok { g with pending := some flag } else g.accept flag ""
  | some flag, _ :: value =>
    if flag.takesValue then g.accept flag (String.ofList value)
    else .error (.usage (.unexpectedValue flag))

/-- Takes one-letter flags after a dash. What follows one with a value is its value. -/
def Given.takeShort (known : List Flag) (g : Given) : List Char → Except Stop Given
  | [] => .ok g
  | c :: rest =>
    match known.find? (·.short? = some c) with
    | none => .error (.usage (.unknownFlag (String.ofList ['-', c])))
    | some flag =>
      if flag.takesValue then
        match rest with
        | [] => .ok { g with pending := some flag }
        | '=' :: value => g.accept flag (String.ofList value)
        | value => g.accept flag (String.ofList value)
      else do (← g.accept flag "").takeShort known rest

/-- Takes a positional argument, of which there is one. -/
def Given.takePositional (g : Given) (arg : String) : Except Stop Given :=
  if g.positionals.isEmpty then .ok { g with positionals := [arg] }
  else .error (.usage (.unexpectedArgument arg))

/-- Takes one argument. -/
def Given.step (known : List Flag) (g : Given) (arg : String) : Except Stop Given :=
  match g.pending with
  | some flag =>
    if startsWithDash arg && arg != "-" then .error (.usage (.missingValue flag))
    else { g with pending := none }.accept flag arg
  | none =>
    if g.ended then g.takePositional arg
    else
      match arg.toList with
      | ['-', '-'] => .ok { g with ended := true }
      | '-' :: '-' :: chars => g.takeLong known chars
      | ['-'] => g.takePositional arg
      | '-' :: chars => g.takeShort known chars
      | _ => g.takePositional arg

/-- Takes all arguments of a command; gives its source beside its flags. -/
def readArguments (known : List Flag) (args : List String) : Except Stop (String × Given) := do
  let g ← args.foldlM (Given.step known) {}
  match g.pending, g.positionals with
  | some flag, _ => .error (.usage (.missingValue flag))
  | none, [] => .error (.usage .missingSource)
  | none, source :: _ => return (source, g)

def readConvert (args : List String) : Except Stop Command := do
  let (source, g) ← readArguments Flag.ofConvert args
  let default : Options := {}
  let options : Options :=
    { urnNamespace := (g.value? .namespaceName).getD default.urnNamespace
      context := (g.value? .context).getD default.context
      maxDepth := ((g.value? .maxDepth).bind readCount?).getD default.maxDepth }
  return .convert source (g.value? .output) (g.has .compact) options (g.has .strict)

def readCheck (args : List String) : Except Stop Command := do
  let (source, g) ← readArguments Flag.ofCheck args
  return .check source (((g.value? .format).bind readFormat?).getD .text) (g.has .quiet)

/-- Help on a command, or on all of them. -/
def readHelp : List String → Stop
  | [] | ["convert"] | ["check"] | ["help"] => .help
  | name :: _ => .usage (.unknownCommand name)

/-- Reads a command line: general flags, a command, and the arguments of the command. -/
def Command.read : List String → Except Stop Command
  | [] => .error (.usage .missingCommand)
  | "convert" :: rest => readConvert rest
  | "check" :: rest => readCheck rest
  | "help" :: rest => .error (readHelp rest)
  | arg :: rest =>
    if startsWithDash arg && arg != "-" && arg != "--" then do
      let _ ← Given.step Flag.general {} arg
      Command.read rest
    else .error (.usage (.unknownCommand arg))

end DeviceTwin.CommandLine
