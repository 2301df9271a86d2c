import SecdLisp.Shell.Evaluate

/-!
# The command line

Options may stand anywhere among the files; after two dashes every argument is a file. An option
that takes a value may have it in the same argument or in the next one, which must not look like
an option.
-/

namespace SecdLisp

structure Options where
  files : List String
  expr : Option String
  showCode : Bool
  loadImage : Option String
  saveImage : Option String
  heapCells : Option Nat
  verbosity : Nat
  deriving DecidableEq, Repr, Inhabited

inductive UsageError where
  | help
  | unexpected (argument : String)
  | missingValue (option : String)
  | repeated (option : String)
  | invalid (value option : String)
  deriving DecidableEq, Repr, Inhabited

namespace UsageError

def usage : String :=
  "Usage: secd-lisp [OPTIONS] [FILES]...

Options:
  -e, --eval EXPR         Evaluate an expression and print its value
      --show-code         Print the compiled code of each form before running it
      --load-image PATH   Restore the global environment from an image first
      --save-image PATH   Save the global environment to an image at the end
      --heap-cells N      Maximum number of cons cells [default: 16000000]
  -v, --verbose           Show more of the log (-vv, -vvv)
  -h, --help              Print help
"

def message : UsageError → String
  | help => usage
  | unexpected argument => s!"error: unexpected argument '{argument}' found\n"
  | missingValue option => s!"error: a value is required for '{option}' but none was supplied\n"
  | repeated option => s!"error: the argument '{option}' cannot be used multiple times\n"
  | invalid value option => s!"error: invalid value '{value}' for '{option}'\n"

def exitCode : UsageError → UInt32
  | help => 0
  | _ => 2

end UsageError

namespace Options

def none : Options := ⟨[], .none, false, .none, .none, .none, 0⟩

inductive Valued where
  | expr
  | loadImage
  | saveImage
  | heapCells
  deriving DecidableEq, Repr

def Valued.name : Valued → String
  | expr => "--eval"
  | loadImage => "--load-image"
  | saveImage => "--save-image"
  | heapCells => "--heap-cells"

def Valued.ofName? (name : String) : Option Valued :=
  [expr, loadImage, saveImage, heapCells].find? (·.name == name)

/-- A number of cells: decimal digits, perhaps after a plus sign, within 64 bits. -/
def count? (s : String) : Option Nat :=
  let digits := if s.startsWith "+" then (s.drop 1).toString else s
  if digits.isEmpty || !digits.toList.all Char.isDigit then .none
  else
    let n := digits.toList.foldl (fun n d => 10 * n + (d.toNat - 48)) 0
    if n < UInt64.size then some n else .none

/-- Set an option that may be given once. -/
def once {α : Type} (option : String) (old : Option α) (new : α) :
    Except UsageError (Option α) :=
  if old.isSome then .error (.repeated option) else .ok (some new)

def path (option value : String) : Except UsageError String :=
  if value.isEmpty then .error (.missingValue option) else .ok value

def setValued (o : Options) (v : Valued) (value : String) : Except UsageError Options := do
  match v with
  | .expr => return { o with expr := ← once v.name o.expr value }
  | .loadImage =>
    return { o with loadImage := ← once v.name o.loadImage (← path v.name value) }
  | .saveImage =>
    return { o with saveImage := ← once v.name o.saveImage (← path v.name value) }
  | .heapCells =>
    match count? value with
    | some n => return { o with heapCells := ← once v.name o.heapCells n }
    | .none => .error (.invalid value v.name)

def setShowCode (o : Options) : Except UsageError Options :=
  if o.showCode then .error (.repeated "--show-code") else .ok { o with showCode := true }

def addFile (o : Options) (file : String) : Except UsageError Options := do
  return { o with files := o.files ++ [← path "[FILES]..." file] }

/-- Whether an argument looks like an option. A single dash does not. -/
def isOption (s : String) : Bool := s.startsWith "-" && s != "-"

/-- Split an argument at its first equals sign. -/
def splitValue (s : String) : String × Option String :=
  let (name, rest) := s.toList.span (· != '=')
  (String.ofList name, match rest with
    | [] => .none
    | _ :: value => some (String.ofList value))

/-- Take in the letters of a cluster of short options. The second part of the answer is an
option that still needs its value. -/
def short (o : Options) : List Char → Except UsageError (Options × Option Valued)
  | [] => .ok (o, .none)
  | 'v' :: letters => short { o with verbosity := o.verbosity + 1 } letters
  | 'h' :: _ => .error .help
  | 'e' :: [] => .ok (o, some .expr)
  | 'e' :: '=' :: value => do return (← o.setValued .expr (String.ofList value), .none)
  | 'e' :: value => do return (← o.setValued .expr (String.ofList value), .none)
  | c :: _ => .error (.unexpected ("-" ++ c.toString))

/-- Take in an argument that starts with two dashes. -/
def long (o : Options) (argument : String) : Except UsageError (Options × Option Valued) := do
  let (name, value) := splitValue argument
  match name, value with
  | "--show-code", .none => return (← o.setShowCode, .none)
  | "--verbose", .none => return ({ o with verbosity := o.verbosity + 1 }, .none)
  | "--help", .none => throw .help
  | _, _ =>
    match Valued.ofName? name, value with
    | some v, some value => return (← o.setValued v value, .none)
    | some v, .none => return (o, some v)
    | .none, _ => throw (.unexpected argument)

/-- Take in arguments. `due` is an option whose value comes next. -/
def parseFrom (o : Options) (due : Option Valued) : List String → Except UsageError Options
  | [] =>
    match due with
    | some v => .error (.missingValue v.name)
    | .none => .ok o
  | argument :: rest => do
    match due with
    | some v =>
      if isOption argument then throw (.missingValue v.name)
      parseFrom (← o.setValued v argument) .none rest
    | .none =>
      if argument = "--" then rest.foldlM addFile o
      else if argument.startsWith "--" then
        let (o, due) ← o.long argument
        parseFrom o due rest
      else if isOption argument then
        let (o, due) ← o.short (argument.toList.drop 1)
        parseFrom o due rest
      else parseFrom (← o.addFile argument) .none rest

def parse (arguments : List String) : Except UsageError Options :=
  parseFrom none .none arguments

end Options

/-- The log level that a setting names, letter case aside; it wins over the options. -/
def LogLevel.ofName? (name : String) : Option LogLevel :=
  match name.toLower with
  | "off" | "error" | "warn" | "info" => some .quiet
  | "debug" => some .debug
  | "trace" => some .trace
  | _ => none

def LogLevel.ofVerbosity (n : Nat) : LogLevel :=
  if n < 2 then .quiet else if n = 2 then .debug else .trace

namespace CommandLine

open Host

variable {m : Type → Type} [Monad m] [Host m]

/-- Load source files in order, up to the first one that fails. -/
def loadFiles (manner : Manner) : List String → Session → m (Option Session)
  | [], s => return some s
  | file :: files, s => do
    match ← Shell.loadFile manner s file with
    | some s => loadFiles manner files s
    | none => return none

/-- The session after the image and the files that were asked for; `none` if one failed. -/
def prepare (o : Options) (level : LogLevel) (manner : Manner) : m (Option Session) := do
  match Session.create (o.heapCells.getD Heap.defaultCapacity) level with
  | .error e =>
    warnLine ("Error: " ++ e.message)
    return none
  | .ok s =>
    match o.loadImage with
    | none => loadFiles manner o.files s
    | some path =>
      match ← Shell.loadImage path s with
      | (.ok (), s) => loadFiles manner o.files s
      | (.error e, _) =>
        warnLine s!"Error loading image {path}: {e.message}"
        return none

def finish (o : Options) (s : Session) : m UInt32 := do
  match o.saveImage with
  | none => return 0
  | some path =>
    match ← Shell.saveImage path s with
    | (.ok (), _) => return 0
    | (.error e, _) =>
      warnLine s!"Error saving image {path}: {e.message}"
      return 1

/-- Evaluate a whole input. Only an input that is not text fails. -/
def piped (manner : Manner) (input : m Bytes) (s : Session) : m (Option Session) := do
  match Utf8.decode (← input) with
  | .ok text => return some (← Shell.evalAndPrint manner text s).2
  | .error _ =>
    warnLine ("Error reading stdin: " ++ HostError.notUtf8.message)
    return none

/-- Carry out a request. Without files and without an expression, `converse` takes over the
session. The answer is the exit code. -/
def run (steps : Nat) (o : Options) (level : LogLevel)
    (converse : Manner → Session → m (Option Session)) : m UInt32 := do
  let manner : Manner := ⟨steps, o.showCode⟩
  match ← prepare o level manner with
  | none => return 1
  | some s =>
    match o.expr with
    | some expr =>
      let (ok, s) ← Shell.evalAndPrint manner expr s
      if ok then finish o s else return 1
    | none =>
      if !o.files.isEmpty then finish o s
      else
        match ← converse manner s with
        | some s => finish o s
        | none => return 1

/-- Carry out arguments. `setting` is the log level from the environment. -/
def start (steps : Nat) (arguments : List String) (setting : Option String)
    (converse : Manner → Session → m (Option Session)) : m UInt32 := do
  match Options.parse arguments with
  | .error .help =>
    put UsageError.help.message
    return UsageError.help.exitCode
  | .error e =>
    warn e.message
    return e.exitCode
  | .ok o =>
    let level := (setting.bind LogLevel.ofName?).getD (.ofVerbosity o.verbosity)
    run steps o level converse

end CommandLine

end SecdLisp
