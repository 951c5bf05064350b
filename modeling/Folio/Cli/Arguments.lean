import Folio.Data.Fields
import Folio.Text.Digit

/-!
# Command line arguments

A subcommand has options, each with a long name and perhaps a letter, and takes at most one file.
Arguments are read from left to right. The value of an option follows it as the next argument, or
after an equals sign, or directly after its letter; it is looked at when the next option or file
comes, or all arguments have been read.

* `Arguments.read` collects what is given;
* `Invocation.read` is the subcommand that arguments ask for.
-/

namespace Folio.Cli

/-- What is wrong with some arguments, or that help is asked for. -/
inductive UsageError
  | invalidSubcommand
  | missingRequiredArgument
  | unknownArgument
  | argumentConflict
  | invalidValue
  | tooManyValues
  | valueValidation
  | displayHelp
  deriving DecidableEq, Repr

/-- What may stand as a value: any text, a path, which is not empty, or a number of 64 bits. -/
inductive ValueKind
  | text
  | path
  | number
  deriving DecidableEq, Repr

/-- An option: a flag, or one with a value. -/
structure OptionSpec where
  name : String
  letter : Option Char := none
  value : Option ValueKind := none
  deriving DecidableEq, Repr

/-- What a subcommand takes: whether it needs a file, its options, and two options that exclude each
other. -/
structure SubcommandSpec where
  takesFile : Bool := false
  options : List OptionSpec := []
  exclusive : Option (String × String) := none
  deriving DecidableEq, Repr

/-- The flag that asks for help. -/
def helpOption : OptionSpec := { name := "help", letter := some 'h' }

namespace SubcommandSpec

/-- All options. -/
def allOptions (c : SubcommandSpec) : List OptionSpec := helpOption :: c.options

/-- The option of a long name. -/
def named? (c : SubcommandSpec) (name : Text) : Option OptionSpec :=
  c.allOptions.find? fun o => o.name.toList == name

/-- The option of a letter. -/
def lettered? (c : SubcommandSpec) (letter : Char) : Option OptionSpec :=
  c.allOptions.find? fun o => o.letter == some letter

end SubcommandSpec

/-! ### Values -/

/-- The number that a value stands for. -/
def numberOf? (s : Text) : Option Nat :=
  let digits := if s.head? == some '+' then s.drop 1 else s
  (Text.number? 10 digits).filter (· < Nat.pow 2 64)

/-- Refuses a value that does not fit. -/
def ValueKind.check (kind : ValueKind) (s : Text) : Except UsageError Unit :=
  match kind with
  | .text => .ok ()
  | .path => if s.isEmpty then .error .invalidValue else .ok ()
  | .number => if (numberOf? s).isSome then .ok () else .error .valueValidation

/-- An option or a file whose value has yet to come or to be looked at. -/
structure PendingValue where
  name : String
  kind : ValueKind
  value : Option Text
  deriving DecidableEq, Repr

/-- What has been read of some arguments: the values given under the names of options, and the name
under which the file is kept. -/
structure Arguments where
  given : List (String × Text) := []
  pending : Option PendingValue := none
  hasFile : Bool := false
  onlyFiles : Bool := false
  deriving DecidableEq, Repr

namespace Arguments

/-- The name that the file is given under. -/
def fileName : String := "FILE"

/-- Whether an option or the file is given. -/
def contains (a : Arguments) (name : String) : Bool := (a.given.lookup name).isSome

/-- The value of an option or the file. -/
def value? (a : Arguments) (name : String) : Option String :=
  (a.given.lookup name).map String.ofList

/-- Adds a value; nothing is given twice. -/
def add (a : Arguments) (name : String) (value : Text) : Except UsageError Arguments :=
  if a.contains name then .error .argumentConflict
  else .ok { a with given := a.given ++ [(name, value)] }

/-- Looks at the pending value. -/
def resolve (a : Arguments) : Except UsageError Arguments :=
  match a.pending with
  | none => .ok a
  | some p =>
    match p.value with
    | none => .error .invalidValue
    | some value => do
      let a ← { a with pending := none }.add p.name value
      p.kind.check value
      return a

/-- Takes an option, with the value that is attached to it. -/
def takeOption (a : Arguments) (o : OptionSpec) (attached : Option Text) :
    Except UsageError Arguments :=
  match o.value, attached with
  | none, some _ => .error .tooManyValues
  | none, none => do
    let a ← a.resolve
    if o = helpOption then throw .displayHelp
    a.add o.name []
  | some kind, some value => do
    let a ← (← a.resolve).add o.name value
    kind.check value
    return a
  | some kind, none => do
    return { ← a.resolve with pending := some { name := o.name, kind, value := none } }

/-- Takes an argument after two dashes. -/
def takeLong (c : SubcommandSpec) (a : Arguments) (s : Text) : Except UsageError Arguments :=
  let name := s.takeWhile (· != '=')
  let attached := if name.length < s.length then some (s.drop (name.length + 1)) else none
  match c.named? name with
  | none => .error .unknownArgument
  | some o => a.takeOption o attached

/-- Takes letters after a dash. -/
def takeLetters (c : SubcommandSpec) (a : Arguments) : Text → Except UsageError Arguments
  | [] => .ok a
  | letter :: s =>
    match c.lettered? letter with
    | none => .error .unknownArgument
    | some o =>
      if o.value.isNone then do takeLetters c (← a.takeOption o none) s
      else if s.head? == some '=' then a.takeOption o (some (s.drop 1))
      else a.takeOption o (if s.isEmpty then none else some s)

/-- Takes an argument that is no option. -/
def takeFile (c : SubcommandSpec) (a : Arguments) (s : Text) : Except UsageError Arguments :=
  if c.takesFile && !a.hasFile then do
    let file : PendingValue := { name := fileName, kind := .path, value := some s }
    return { ← a.resolve with pending := some file, hasFile := true }
  else .error .unknownArgument

/-- Takes the next argument. -/
def take (c : SubcommandSpec) (a : Arguments) (arg : String) : Except UsageError Arguments :=
  let s := arg.toList
  if a.onlyFiles then a.takeFile c s
  else
    match s with
    | ['-', '-'] => .ok { a with onlyFiles := true }
    | '-' :: '-' :: name => a.takeLong c name
    | '-' :: letter :: letters => a.takeLetters c (letter :: letters)
    | _ =>
      match a.pending with
      | some { name, kind, value := none } =>
        .ok { a with pending := some { name, kind, value := some s } }
      | _ => a.takeFile c s

/-- Refuses options that exclude each other, and a missing file. -/
def validate (c : SubcommandSpec) (a : Arguments) : Except UsageError Unit := do
  if c.exclusive.any fun (x, y) => a.contains x && a.contains y then throw .argumentConflict
  if c.takesFile && !a.contains fileName then throw .missingRequiredArgument

/-- Reads the arguments of a subcommand. -/
def read (c : SubcommandSpec) (args : List String) : Except UsageError Arguments := do
  let a ← (← args.foldlM (take c) {}).resolve
  a.validate c
  return a

end Arguments

/-! ### Subcommands -/

/-- The form in which a compiled document is written. -/
inductive OutputForm
  | fragment
  | page
  | json
  deriving DecidableEq, Repr

/-- What is asked for on the command line. -/
inductive Invocation
  | compile (file : String) (out : Option String) (form : OutputForm)
  | create (contentRoot : String) (force : Bool)
  | widgets (templates : Bool)
  | watch (file : String) (out : Option String) (debounceMs : Option Nat)
  deriving DecidableEq, Repr

namespace Invocation

/-- The option for the file that is written. -/
def outOption : OptionSpec := { name := "out", letter := some 'o', value := some .path }

/-- The arguments of `compile`. -/
def compileSpec : SubcommandSpec where
  takesFile := true
  options := [outOption, { name := "json" }, { name := "page" }]
  exclusive := some ("json", "page")

/-- The arguments of `init`. -/
def createSpec : SubcommandSpec where
  options := [
    { name := "content-root", letter := some 'c', value := some .text },
    { name := "force", letter := some 'f' }]

/-- The arguments of `widgets`. -/
def widgetsSpec : SubcommandSpec where
  options := [{ name := "templates", letter := some 't' }]

/-- The arguments of `watch`. -/
def watchSpec : SubcommandSpec where
  takesFile := true
  options := [outOption, { name := "debounce-ms", value := some .number }]

/-- Reads the name of a subcommand and its arguments. -/
def read : List String → Except UsageError Invocation
  | "compile" :: args => do
    let a ← Arguments.read compileSpec args
    let form :=
      if a.contains "json" then .json else if a.contains "page" then .page else .fragment
    return .compile ((a.value? Arguments.fileName).getD "") (a.value? "out") form
  | "init" :: args => do
    let a ← Arguments.read createSpec args
    return .create ((a.value? "content-root").getD "content") (a.contains "force")
  | "widgets" :: args => do
    let a ← Arguments.read widgetsSpec args
    return .widgets (a.contains "templates")
  | "watch" :: args => do
    let a ← Arguments.read watchSpec args
    let debounce := (a.given.lookup "debounce-ms").bind numberOf?
    return .watch ((a.value? Arguments.fileName).getD "") (a.value? "out") debounce
  | "--help" :: _ => .error .displayHelp
  | "-h" :: _ => .error .displayHelp
  | _ => .error .invalidSubcommand

end Invocation
end Folio.Cli
