import SecdLisp.Compile.Formals
import SecdLisp.Globals
import SecdLisp.Machine.Run

/-!
# Compiling: what it works on

Code is generated from its end: each piece is put in front of a continuation, the code that is
to run after it. The lexical frames around an expression are known while it is compiled, and
below them lie the two global frames.
-/

namespace SecdLisp

namespace Compile

/-- Expressions nest at most this deep. -/
def maxNesting : Nat := 1024

/-- Expansions nest at most this deep. -/
def maxExpansions : Nat := 256

/-- How a compilation is put on record: its events, and the machine runs that it starts. What the
record is made of does not matter to the compiler. -/
structure Recorder (ω : Type) where
  event : Event → ω → ω
  /-- A run of `code` in an environment is about to start on a heap. -/
  run : (symbols : SymbolTable) → (steps : Nat) → (env code : Value) → Heap → ω → ω

structure Context (ω : Type) where
  symbols : SymbolTable
  /-- The steps that a macro may run for. -/
  steps : Nat
  recorder : Recorder ω
  /-- The lexical frames around it, innermost first. -/
  scopes : List Frame
  /-- How many expansions it came out of. -/
  expansions : Nat

structure State (ω : Type) where
  heap : Heap
  globals : Globals
  record : ω

end Compile

/-- Work of the compiler. A failure leaves the state where it stopped. -/
abbrev CompileM (ω : Type) := EStateM Error (Compile.State ω)

namespace Compile

variable {ω : Type}

@[inline] def onHeap {α : Type} (x : HeapM α) : CompileM ω α
  | ⟨heap, globals, record⟩ =>
    match x heap with
    | .ok a heap => .ok a ⟨heap, globals, record⟩
    | .error e heap => .error e ⟨heap, globals, record⟩

def fail {α : Type} (form : String) (reason : Malformation) : CompileM ω α :=
  throw (.malformed form reason)

@[inline] def examine {α : Type} (f : Heap → Except CompileError α) : CompileM ω α := fun s =>
  match f s.heap with
  | .ok a => .ok a s
  | .error cause => .error (.compile cause) s

def report (ctx : Context ω) (e : Event) : CompileM ω Unit := fun s =>
  .ok () { s with record := ctx.recorder.event e s.record }

/-- Put words in front of a continuation. -/
def emit (words : List Value) (k : Value) : CompileM ω Value :=
  onHeap (Heap.listWithTail words k)

/-- An address operand. -/
def address (depth index : Nat) : CompileM ω Value :=
  onHeap (Heap.cons (.int (Int64.ofNat depth)) (.int (Int64.ofNat index)))

def defineFunction (ctx : Context ω) (name : Symbol) : CompileM ω Nat := do
  let slot ← fun (s : State ω) =>
    let (slot, globals) := s.globals.defineFunction name
    .ok slot { s with globals }
  report ctx (.globalDefined (ctx.symbols.name name) slot)
  return slot

def defineMacro (ctx : Context ω) (name : Symbol) : CompileM ω Nat := do
  let slot ← fun (s : State ω) =>
    let (slot, globals) := s.globals.defineMacro name
    .ok slot { s with globals }
  report ctx (.macroDefined (ctx.symbols.name name) slot)
  return slot

@[inline] def inspect {α : Type} (f : Globals → α) : CompileM ω α := fun s => .ok (f s.globals) s

namespace Context

def name (ctx : Context ω) (s : Symbol) : String := ctx.symbols.name s

def locate? (ctx : Context ω) (name : Symbol) : Option Place := Frame.locate? ctx.scopes name

def within (ctx : Context ω) (frame : Frame) : Context ω :=
  { ctx with scopes := frame :: ctx.scopes }

def expanded (ctx : Context ω) : Context ω := { ctx with expansions := ctx.expansions + 1 }

/-- The depth of a global frame, seen from inside the lexical frames. -/
def globalDepth (ctx : Context ω) (depth : Nat) : Nat := ctx.scopes.length + depth

end Context

/-- Run code in the global environment while compiling. -/
def runNow (ctx : Context ω) (code : Value) : CompileM ω Value
  | ⟨heap, globals, record⟩ =>
    let record := ctx.recorder.run ctx.symbols ctx.steps globals.env code heap record
    match Machine.run ctx.symbols ctx.steps globals.env code heap with
    | .ok v heap => .ok v ⟨heap, globals, record⟩
    | .error e heap => .error e ⟨heap, globals, record⟩

end Compile

/-- A log as the record: runs leave their trace in it if it is asked for. -/
def Log.recorder : Compile.Recorder Log where
  event e log := log.add e
  run symbols steps env code heap log :=
    if log.records .trace then
      (Machine.trace symbols steps env code heap).foldl Log.add log
    else log

end SecdLisp
