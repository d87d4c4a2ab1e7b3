import Preverification.Policy

/-!
# Options

What a user asks for on the command line. Options start with two dashes, and their values follow
behind an equals sign or as the next argument. All that follows two dashes alone is no option.
-/

namespace Preverification.CommandLine

/-- How classes are to be preverified: which class file or directory is read, which directory is
written to, and in which directories there are more classes. The policy is that of the first or of
the second configuration, but for the attribute for frames if one is chosen. -/
structure Options where
  input : String
  output : String := "output"
  classPath : List String := []
  cldc10 : Bool := false
  frameFormat : Option FrameFormat := none
deriving DecidableEq, Repr

/-- The policy that the options ask for. -/
def Options.policy (options : Options) : Policy :=
  let preset := if options.cldc10 then Policy.cldc10 else Policy.cldc11
  { preset with frameFormat := options.frameFormat.getD preset.frameFormat }

/-- What a user asks for. -/
inductive Request where
  | run (options : Options)
  | help
  | version
deriving DecidableEq, Repr

/-- Why arguments make no sense. An argument is unexpected if no option has this name, or if it is
one more input. -/
inductive UsageError where
  | unexpectedArgument (argument : String)
  | missingValue (option : String)
  | unexpectedValue (option : String)
  | invalidValue (option value : String)
  | repeated (option : String)
  | missingInput
deriving DecidableEq, Repr

/-- The text of an error. -/
def UsageError.message : UsageError → String
  | unexpectedArgument argument => "unexpected argument '" ++ argument ++ "' found"
  | missingValue option => "a value is required for '" ++ option ++ "' but none was supplied"
  | unexpectedValue option => "unexpected value for '" ++ option ++ "' found"
  | invalidValue option value => "invalid value '" ++ value ++ "' for '" ++ option ++ "'"
  | repeated option => "the argument '" ++ option ++ "' cannot be used multiple times"
  | missingInput => "the following required arguments were not provided: <INPUT>"

/-- The options that were read so far. The directories of the class path stand the other way round.
-/
structure PartialOptions where
  input : Option String := none
  output : Option String := none
  classPath : List String := []
  cldc10 : Bool := false
  frameFormat : Option FrameFormat := none

namespace PartialOptions

/-- The options, when all arguments were read. -/
def complete (found : PartialOptions) : Except UsageError Options :=
  match found.input with
  | none => .error .missingInput
  | some input => .ok {
      input
      output := found.output.getD "output"
      classPath := found.classPath.reverse
      cldc10 := found.cldc10
      frameFormat := found.frameFormat }

/-- A path must not be empty. -/
def checkPath (option path : String) : Except UsageError Unit :=
  if path = "" then .error (.missingValue option) else .ok ()

/-- Reads the input. -/
def addInput (found : PartialOptions) (path : String) : Except UsageError PartialOptions := do
  if found.input.isSome then throw (.unexpectedArgument path)
  checkPath "<INPUT>" path
  return { found with input := some path }

/-- The format that a value asks for. -/
def formatOfValue? : String → Option FrameFormat
  | "stackmaptable" => some .stackMapTable
  | "stackmap" => some .stackMap
  | _ => none

/-- Whether an option is followed by a value. -/
def takesValue (name : String) : Bool :=
  name = "output" || name = "classpath" || name = "frame-format"

/-- Reads the value of an option that takes one. -/
def addValue (found : PartialOptions) (name value : String) : Except UsageError PartialOptions := do
  let option := "--" ++ name
  match name with
  | "output" =>
    if found.output.isSome then throw (.repeated option)
    checkPath option value
    return { found with output := some value }
  | "classpath" =>
    checkPath option value
    return { found with classPath := value :: found.classPath }
  | "frame-format" =>
    if found.frameFormat.isSome then throw (.repeated option)
    match formatOfValue? value with
    | some format => return { found with frameFormat := some format }
    | none => throw (.invalidValue option value)
  | _ => throw (.unexpectedArgument option)

/-- Reads the option that takes no value. -/
def addFlag (found : PartialOptions) : Except UsageError PartialOptions :=
  if found.cldc10 then .error (.repeated "--cldc10") else .ok { found with cldc10 := true }

end PartialOptions

/-! ### Arguments -/

/-- An argument by its form: two dashes alone, an option by its full name with a value if there is
an equals sign, options by single letters of which the first one counts, or none of these. -/
inductive Argument where
  | escape
  | long (name : String) (value : Option String)
  | short (letter : Char)
  | plain
deriving DecidableEq, Repr

/-- The name of an option, and the value behind an equals sign. -/
def splitOption (body : List Char) : String × Option String :=
  let name := body.takeWhile (· ≠ '=')
  (String.ofList name, match body.drop name.length with
    | [] => none
    | _ :: value => some (String.ofList value))

/-- The form of an argument. A dash alone is plain. -/
def Argument.ofString (argument : String) : Argument :=
  match argument.toList with
  | ['-', '-'] => escape
  | '-' :: '-' :: body => let (name, value) := splitOption body; long name value
  | '-' :: letter :: _ => short letter
  | _ => plain

/-- Whether an argument may be the value of the option in front. -/
def isValue (argument : String) : Bool := Argument.ofString argument = .plain

/-- The request of an option without value that is one itself. -/
def requestOf? : Argument → Option Request
  | .long "help" none | .short 'h' => some .help
  | .long "version" none | .short 'V' => some .version
  | _ => none

/-- Reads arguments of which none is an option. -/
def parsePlain (found : PartialOptions) (arguments : List String) : Except UsageError Request := do
  return .run (← (← arguments.foldlM PartialOptions.addInput found).complete)

/-- Reads arguments one after the other. -/
def parseFrom (found : PartialOptions) : List String → Except UsageError Request
  | [] => return .run (← found.complete)
  | argument :: rest =>
    let form := Argument.ofString argument
    match requestOf? form with
    | some request => .ok request
    | none => match form with
      | .escape => parsePlain found rest
      | .plain => do parseFrom (← found.addInput argument) rest
      | .short _ => .error (.unexpectedArgument argument)
      | .long name none =>
        if PartialOptions.takesValue name then match rest with
          | value :: later =>
            if isValue value then do parseFrom (← found.addValue name value) later
            else .error (.missingValue argument)
          | [] => .error (.missingValue argument)
        else if name = "cldc10" then do parseFrom (← found.addFlag) rest
        else .error (.unexpectedArgument argument)
      | .long name (some value) =>
        if PartialOptions.takesValue name then do parseFrom (← found.addValue name value) rest
        else if name = "cldc10" ∨ name = "help" ∨ name = "version" then
          .error (.unexpectedValue argument)
        else .error (.unexpectedArgument argument)

/-- What some arguments ask for. -/
def Request.parse (arguments : List String) : Except UsageError Request := parseFrom {} arguments

/-! ### Texts -/

/-- The name and the version of the program. -/
def versionText : String := "Class file preverifier 0.1.0\n"

/-- The line that shows how the program is called. -/
def usageLine : String := "Usage: preverifier [OPTIONS] <INPUT>"

/-- The explanation of all arguments. -/
def helpText : String :=
  "Preverify class files for CLDC-style virtual machines\n\n" ++ usageLine ++ "\n\n" ++
  "Arguments:\n" ++
  "  <INPUT>  Sets the input class file or directory of classes\n\n" ++
  "Options:\n" ++
  "      --output <DIRECTORY>     Sets the directory preverified classes are written to " ++
    "[default: output]\n" ++
  "      --classpath <DIRECTORY>  Adds a directory of classes used to resolve types " ++
    "(repeatable)\n" ++
  "      --cldc10                 Use the CLDC 1.0 policy (no floating point) instead of " ++
    "CLDC 1.1\n" ++
  "      --frame-format <FORMAT>  Sets the attribute frames are written to (defaults to the " ++
    "policy's) [possible values: stackmaptable, stackmap]\n" ++
  "  -h, --help                   Print help\n" ++
  "  -V, --version                Print version\n"

end Preverification.CommandLine
