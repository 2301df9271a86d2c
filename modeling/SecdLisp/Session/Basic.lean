import SecdLisp.Compile.Expression
import SecdLisp.Text.Form
import SecdLisp.Text.Print

/-!
# Sessions

A session is one independent interpreter: a heap, the interned names, the global state and a
log. Operations that fail leave it usable, with whatever they had done by then.
-/

namespace SecdLisp

structure Session where
  heap : Heap
  symbols : SymbolTable
  globals : Globals
  log : Log

/-- Work of a session. A failure leaves the session where it stopped. -/
abbrev SessionM := EStateM Error Session

namespace Session

/-- A session with room for that many cells, two of which the global environment takes. -/
def create (cells : Nat) (level : LogLevel) : Except Error Session :=
  match Globals.create (Heap.ofCapacity cells) with
  | .ok globals heap => .ok ⟨heap, SymbolTable.initial, globals, Log.empty level⟩
  | .error e _ => .error e

@[inline] def onHeap {α : Type} (x : HeapM α) : SessionM α
  | ⟨heap, symbols, globals, log⟩ =>
    match x heap with
    | .ok a heap => .ok a ⟨heap, symbols, globals, log⟩
    | .error e heap => .error e ⟨heap, symbols, globals, log⟩

/-- Read from a text into a session. The answer comes with the rest of the text. -/
@[inline] def onReader {α : Type} (x : ReadM α) (source : Source) : SessionM (α × Source)
  | ⟨heap, symbols, globals, log⟩ =>
    match x ⟨source, heap, symbols⟩ with
    | .ok a ⟨source, heap, symbols⟩ => .ok (a, source) ⟨heap, symbols, globals, log⟩
    | .error e ⟨_, heap, symbols⟩ => .error e ⟨heap, symbols, globals, log⟩

def report (e : Event) : SessionM Unit := fun s =>
  .ok () { s with log := s.log.add e }

def intern (name : String) : SessionM Symbol
  | ⟨heap, symbols, globals, log⟩ =>
    let (symbol, symbols) := symbols.intern name
    .ok symbol ⟨heap, symbols, globals, log⟩

def defineFunction (name : String) : SessionM Nat := do
  let symbol ← intern name
  fun s =>
    let (slot, globals) := s.globals.defineFunction symbol
    .ok slot { s with globals }

def defineMacro (name : String) : SessionM Nat := do
  let symbol ← intern name
  fun s =>
    let (slot, globals) := s.globals.defineMacro symbol
    .ok slot { s with globals }

def read (text : String) : SessionM Value := do
  return (← onReader Reading.form (.ofString text)).1

/-- Compile a form. Its macro calls are expanded, and each may run for that many steps. -/
def compile (steps : Nat) (expr : Value) : SessionM Value
  | ⟨heap, symbols, globals, log⟩ =>
    match Compile.toplevel Log.recorder symbols steps expr ⟨heap, globals, log⟩ with
    | .ok code ⟨heap, globals, log⟩ => .ok code ⟨heap, symbols, globals, log⟩
    | .error e ⟨heap, globals, log⟩ => .error e ⟨heap, symbols, globals, log⟩

/-- Run a code list in the global environment, for at most that many steps. -/
def run (steps : Nat) (code : Value) : SessionM Value
  | ⟨heap, symbols, globals, log⟩ =>
    let log := Log.recorder.run symbols steps globals.env code heap log
    match Machine.run symbols steps globals.env code heap with
    | .ok v heap => .ok v ⟨heap, symbols, globals, log⟩
    | .error e heap => .error e ⟨heap, symbols, globals, log⟩

def print (s : Session) (v : Value) : String := v.print s.heap s.symbols

/-- The text of an error. A fault of the machine shows its stack, code and dump. -/
def describe (s : Session) (e : Error) : String :=
  match e.registers? with
  | some r =>
    s!"{e.message}\n  S: {s.print r.stack}\n  C: {s.print r.code}\n  D: {s.print r.dump}"
  | none => e.message

end Session

end SecdLisp
