import SecdLisp.Machine.Step
import SecdLisp.Log

/-!
# Machine runs

A run repeats single instructions up to HALT. It is given a number of steps; a run that is not
done by then ends in an error of its own, so every run is total.
-/

namespace SecdLisp

namespace Machine

def start (env code : Value) : Registers := ⟨.nil, env, code, .nil⟩

/-- Run from these registers for at most that many instructions. The result is the top of the
stack at HALT, or nil if the stack is empty. -/
def runFrom (symbols : SymbolTable) : (steps : Nat) → Registers → HeapM Value
  | 0, _ => throw .outOfSteps
  | n + 1, r => do
    match ← step symbols r with
    | .running r => runFrom symbols n r
    | .halted r => Heap.read fun h => (h.carOf? r.stack).getD .nil

def run (symbols : SymbolTable) (steps : Nat) (env code : Value) : HeapM Value :=
  runFrom symbols steps (start env code)

def instructionName (symbols : SymbolTable) : Value → String
  | .op o => o.name
  | .ident name => symbols.name name
  | _ => "?"

/-- The event that announces the next instruction; none where the code gives no instruction. -/
def announce? (symbols : SymbolTable) (r : Registers) (h : Heap) : Option Event :=
  (h.carOf? r.code).map fun instruction =>
    .instruction (instructionName symbols instruction) (h.chainLength r.stack)

/-- The events of a run: one for every instruction that is fetched. -/
def traceFrom (symbols : SymbolTable) :
    (steps : Nat) → Registers → Heap → Array Event → Array Event
  | 0, _, _, events => events
  | n + 1, r, h, events =>
    match announce? symbols r h with
    | none => events
    | some e =>
      match step symbols r h with
      | .ok (.running r) h => traceFrom symbols n r h (events.push e)
      | _ => events.push e

def trace (symbols : SymbolTable) (steps : Nat) (env code : Value) (h : Heap) : Array Event :=
  traceFrom symbols steps (start env code) h #[]

end Machine

end SecdLisp
