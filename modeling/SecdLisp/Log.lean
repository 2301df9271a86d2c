/-!
# Event log

What a session reports about its own work. Events are recorded as data and become text only
when a log is shown.
-/

namespace SecdLisp

inductive LogLevel where
  | quiet
  | debug
  | trace
  deriving DecidableEq, Repr, Inhabited

namespace LogLevel

def rank : LogLevel → Nat
  | quiet => 0
  | debug => 1
  | trace => 2

def name : LogLevel → String
  | quiet => "OFF"
  | debug => "DEBUG"
  | trace => "TRACE"

end LogLevel

inductive Event where
  /-- The machine is about to carry out an instruction on a stack of that depth. -/
  | instruction (name : String) (depth : Nat)
  | globalDefined (name : String) (slot : Nat)
  | macroDefined (name : String) (slot : Nat)
  | expanded (name : String)
  | evaluated (cells : Nat)
  | captured (cells functions macros : Nat)
  | restored (cells : Nat)
  deriving DecidableEq, Repr, Inhabited

namespace Event

def level : Event → LogLevel
  | instruction .. => .trace
  | _ => .debug

/-- The name of an instruction takes at least six columns. -/
def column (name : String) : String := name.pushn ' ' (6 - name.length)

def text : Event → String
  | instruction name depth => column name ++ s!" depth={depth}"
  | globalDefined name slot => s!"global '{name}' at slot {slot}"
  | macroDefined name slot => s!"macro '{name}' at slot {slot}"
  | expanded name => s!"expanded macro '{name}'"
  | evaluated cells => s!"evaluated form, heap at {cells} cells"
  | captured cells functions macros =>
    s!"captured image: {cells} cells, {functions} globals, {macros} macros"
  | restored cells => s!"restored image: {cells} cells"

def line (e : Event) : String := e.level.name ++ " " ++ e.text

end Event

structure Log where
  level : LogLevel
  events : Array Event
  deriving DecidableEq, Repr, Inhabited

namespace Log

def empty (level : LogLevel) : Log := ⟨level, #[]⟩

def records (log : Log) (level : LogLevel) : Bool := level.rank ≤ log.level.rank

def add (log : Log) (e : Event) : Log :=
  if log.records e.level then { log with events := log.events.push e } else log

@[simp] theorem add_quiet (events : Array Event) (e : Event) :
    Log.add ⟨.quiet, events⟩ e = ⟨.quiet, events⟩ := by
  cases e <;> rfl

end Log

end SecdLisp
