import SecdLisp.Value
import SecdLisp.Text.Utf8

/-!
# Errors

Every failure is a cause with the data its text needs. `Error.message` is the one place where
causes become words.
-/

namespace SecdLisp

inductive ParseError where
  | integerOutOfRange (word : String)
  | nestedTooDeeply
  | unexpectedEnd
  | unexpectedClose
  | unexpectedAt
  | unterminatedList
  | unquoteOutsideTemplate
  | unquoteSplicing
  | malformedUnquote
  | improperTemplate
  | emptyInput
  | notBoundary (offset : Nat)
  deriving DecidableEq, Repr, Inhabited

def ParseError.message : ParseError → String
  | integerOutOfRange word => "integer out of range: " ++ word
  | nestedTooDeeply => "expression nested too deeply"
  | unexpectedEnd => "unexpected end of input"
  | unexpectedClose => "unexpected ')'"
  | unexpectedAt => "unexpected '@'"
  | unterminatedList => "unterminated list"
  | unquoteOutsideTemplate => "unquote outside backquote"
  | unquoteSplicing => "unquote-splicing is not supported"
  | malformedUnquote => "malformed unquote"
  | improperTemplate => "improper list under backquote"
  | emptyInput => "empty input"
  | notBoundary offset => s!"offset {offset} is not a character boundary in the input"

inductive Malformation where
  | nestedTooDeeply
  | expansionTooDeep
  | improperArguments
  | notCallable (got : Kind)
  | argumentCount (expected got : Nat)
  | functionShape
  | conditionalShape
  | quoteShape
  | assignmentShape
  | definitionShape
  | bindingShape
  | restAssignment (name : String)
  | reservedTarget (name : String)
  | targetNotName (got : Kind)
  | parametersNotList
  | restNotOneName
  | restNotLast
  | parameterNotName (got : Kind)
  | annotationShape
  | bindingNamesNotList
  | bindingValuesNotList
  | bindingCount (names values : Nat)
  | bindingNotName (got : Kind)
  deriving DecidableEq, Repr, Inhabited

def Malformation.message : Malformation → String
  | nestedTooDeeply => "nested too deeply"
  | expansionTooDeep => "macro expansion nested too deeply"
  | improperArguments => "improper argument list"
  | notCallable got => "cannot call " ++ got.name
  | argumentCount expected got => s!"expected {expected} argument(s), got {got}"
  | functionShape => "expected a parameter list and one body"
  | conditionalShape => "expected a test and one or two branches"
  | quoteShape => "expected exactly one argument"
  | assignmentShape => "expected a name and a value"
  | definitionShape => "expected a name, a parameter list and one body"
  | bindingShape => "expected (names) (values) body"
  | restAssignment name => s!"cannot assign rest parameter '{name}'"
  | reservedTarget name => s!"cannot redefine '{name}'"
  | targetNotName got => "target must be an identifier, got " ++ got.name
  | parametersNotList => "parameter list must be a list"
  | restNotOneName => "&rest must be followed by exactly one name"
  | restNotLast => "rest parameter must be last"
  | parameterNotName got => "parameter must be a name, got " ++ got.name
  | annotationShape => "annotated parameter must be (name &rest)"
  | bindingNamesNotList => "binding names must be a list"
  | bindingValuesNotList => "binding values must be a list"
  | bindingCount names values => s!"{names} name(s) but {values} value(s)"
  | bindingNotName got => "binding name must be an identifier, got " ++ got.name

inductive CompileError where
  | unknownIdentifier (name : String)
  /-- A parameter annotated with something other than the rest marker. -/
  | invalidFormal (name marker : String)
  | malformed (form : String) (reason : Malformation)
  deriving DecidableEq, Repr, Inhabited

def CompileError.message : CompileError → String
  | unknownIdentifier name => s!"unknown identifier '{name}'"
  | invalidFormal name marker =>
    s!"invalid formal parameter '{name}' (annotated with '{marker}')"
  | malformed form reason => s!"malformed {form}: " ++ reason.message

inductive Fault where
  | codeEnded
  | malformedCode (got : Kind)
  | notInstruction (got : Kind)
  | notBuiltin (name : String)
  | stackUnderflow
  | dumpUnderflow
  | notClosure (got : Kind)
  | malformedAddress
  | unbound (depth index : Nat)
  | emptyStore
  | noFrame (depth index : Nat)
  | noPlaceholder
  | notInteger (builtin : String) (got : Kind)
  | overflow (builtin : String)
  | divisionByZero
  | notPair (builtin : String) (got : Kind)
  | unknownBuiltin (name : String)
  deriving DecidableEq, Repr, Inhabited

def Fault.message : Fault → String
  | codeEnded => "code ended without HALT"
  | malformedCode got => "malformed code list: " ++ got.name
  | notInstruction got => "not an instruction: " ++ got.name
  | notBuiltin name => "not a builtin: " ++ name
  | stackUnderflow => "stack underflow"
  | dumpUnderflow => "dump underflow"
  | notClosure got => "cannot apply a non-closure: " ++ got.name
  | malformedAddress => "malformed address operand"
  | unbound depth index => s!"unbound variable at ({depth} . {index})"
  | emptyStore => "store from an empty stack"
  | noFrame depth index => s!"no frame at address ({depth} . {index})"
  | noPlaceholder => "recursive apply without a placeholder frame"
  | notInteger builtin got => s!"{builtin} expects integers, got " ++ got.name
  | overflow builtin => "integer overflow in " ++ builtin
  | divisionByZero => "division by zero"
  | notPair builtin got => s!"{builtin} of non-pair: " ++ got.name
  | unknownBuiltin name => "unknown builtin: " ++ name

inductive ImageError where
  /-- The input ends inside a number. -/
  | truncated
  /-- The input ends inside a name. -/
  | truncatedName
  | badTag (tag bound : Nat)
  | badName (fault : Utf8.Fault)
  | indexOutOfRange
  | cyclicEnvironment
  | malformedEnvironment
  deriving DecidableEq, Repr, Inhabited

def ImageError.message : ImageError → String
  | truncated => "io error: unexpected end of file"
  | truncatedName => "io error: "
  | badTag tag bound =>
    s!"invalid value: integer \x60{tag}\x60, expected variant index 0 <= i < {bound}"
  | badName fault => "string is not valid utf8: " ++ fault.message
  | indexOutOfRange => "cell or name index out of range"
  | cyclicEnvironment => "global environment is cyclic"
  | malformedEnvironment => "malformed global environment"

inductive HostError where
  | notFound
  | notDirectory
  | isDirectory
  | nameTooLong
  | nulInPath
  | notUtf8
  | other (text : String)
  deriving DecidableEq, Repr, Inhabited

def HostError.message : HostError → String
  | notFound => "No such file or directory (os error 2)"
  | notDirectory => "Not a directory (os error 20)"
  | isDirectory => "Is a directory (os error 21)"
  | nameTooLong => "File name too long (os error 36)"
  | nulInPath => "file name contained an unexpected NUL byte"
  | notUtf8 => "stream did not contain valid UTF-8"
  | other text => text

/-- The four registers of the machine: operand stack, environment, code still to run, and
dump of suspended work. All four are lists on the heap. -/
structure Registers where
  stack : Value
  env : Value
  code : Value
  dump : Value
  deriving DecidableEq, Repr, Inhabited

/-- All registers nil: what a fault outside the machine carries. -/
def Registers.empty : Registers := ⟨.nil, .nil, .nil, .nil⟩

inductive Error where
  | parse (cause : ParseError)
  | compile (cause : CompileError)
  /-- A fault of the machine, with the registers before the failing instruction. -/
  | runtime (fault : Fault) (registers : Registers)
  | heapFull
  | image (cause : ImageError)
  | host (cause : HostError)
  /-- A run was cut off after the steps it was allowed. -/
  | outOfSteps
  deriving DecidableEq, Repr, Inhabited

inductive ErrorKind where
  | parse
  | compile
  | runtime
  | other
  deriving DecidableEq, Repr, Inhabited

def ErrorKind.name : ErrorKind → String
  | parse => "Parse"
  | compile => "Compile"
  | runtime => "Runtime"
  | other => "Other"

namespace Error

def kind : Error → ErrorKind
  | parse _ => .parse
  | compile _ => .compile
  | runtime _ _ => .runtime
  | heapFull | image _ | host _ | outOfSteps => .other

def message : Error → String
  | parse cause => "Parse error: " ++ cause.message
  | compile cause => "Compile error: " ++ cause.message
  | runtime fault _ => "Runtime error: " ++ fault.message
  | heapFull => "Error: heap capacity exceeded"
  | image cause => "Image error: " ++ cause.message
  | host cause => "I/O error: " ++ cause.message
  | outOfSteps => "Error: step limit exceeded"

def fault (f : Fault) : Error := .runtime f .empty

def malformed (form : String) (reason : Malformation) : Error :=
  .compile (.malformed form reason)

/-- Put the machine's registers on a fault; other errors carry none. -/
def withRegisters (r : Registers) : Error → Error
  | runtime f _ => runtime f r
  | e => e

def registers? : Error → Option Registers
  | runtime _ r => some r
  | _ => none

end Error

end SecdLisp
