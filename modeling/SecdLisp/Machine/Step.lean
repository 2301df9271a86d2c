import SecdLisp.Builtin
import SecdLisp.Environment

/-!
# One machine instruction

The machine has four registers, all lists on the heap: the operand stack, the environment, the
code still to run and the dump. A closure is the pair of a code list and an environment. A call
saves stack, environment and code on the dump as three entries; a branch saves only the code.
-/

namespace SecdLisp

namespace Machine

inductive Outcome where
  | running (r : Registers)
  | halted (r : Registers)
  deriving DecidableEq, Repr

/-- Split a pair into car and cdr; anything else is the given fault. -/
@[inline] def split (v : Value) (fault : Fault) : HeapM (Value × Value) :=
  match v with
  | .pair a => Heap.read fun h => let c := h.cell a; (c.car, c.cdr)
  | _ => throw (.fault fault)

@[inline] def fetch (code : Value) : HeapM (Value × Value) :=
  split code (if code.isNil then .codeEnded else .malformedCode code.kind)

@[inline] def push (v : Value) (r : Registers) : HeapM Registers := do
  return { r with stack := ← Heap.cons v r.stack }

@[inline] def pop (r : Registers) : HeapM (Value × Registers) := do
  let (v, stack) ← split r.stack .stackUnderflow
  return (v, { r with stack })

@[inline] def popDump (r : Registers) : HeapM (Value × Registers) := do
  let (v, dump) ← split r.dump .dumpUnderflow
  return (v, { r with dump })

@[inline] def operand (r : Registers) : HeapM (Value × Registers) := do
  let (v, code) ← fetch r.code
  return (v, { r with code })

/-- The depth and index that an address operand spells: a pair of positive integers. -/
def address? (h : Heap) (v : Value) : Option (Nat × Nat) :=
  match h.carOf? v, h.cdrOf? v with
  | some (.int depth), some (.int index) =>
    if 0 < depth ∧ 0 < index then some (depth.toInt.toNat, index.toInt.toNat) else none
  | _, _ => none

def addressOperand (r : Registers) : HeapM ((Nat × Nat) × Registers) := do
  let (v, r) ← operand r
  match ← Heap.read (address? · v) with
  | some address => return (address, r)
  | none => throw (.fault .malformedAddress)

/-- Pop a closure: its body, its environment, and the registers without it. A pair counts as a
closure if its car is a pair. -/
def popClosure (r : Registers) : HeapM ((Value × Value) × Registers) := do
  let (f, r) ← pop r
  let (body, env) ← split f (.notClosure f.kind)
  if body.isPair then return ((body, env), r)
  else throw (.fault (.notClosure f.kind))

def load (find : Heap → Value → Nat → Nat → Option Value) (r : Registers) :
    HeapM Registers := do
  let ((depth, index), r) ← addressOperand r
  match ← Heap.read (find · r.env depth index) with
  | some v => push v r
  | none => throw (.fault (.unbound depth index))

/-- Store the top of the stack, which stays there, at an address operand. -/
def store (r : Registers) : HeapM Registers := do
  let ((depth, index), r) ← addressOperand r
  let (v, _) ← split r.stack .emptyStore
  if ← Heap.store r.env depth index v then return r
  else throw (.fault (.noFrame depth index))

/-- Enter a closure body, with the caller's stack, environment and code on the dump. -/
def enter (body env callerEnv : Value) (r : Registers) : HeapM Registers := do
  let dump ← Heap.listWithTail [r.stack, callerEnv, r.code] r.dump
  return { stack := .nil, env, code := body, dump }

def apply (r : Registers) : HeapM Registers := do
  let ((body, closureEnv), r) ← popClosure r
  let (arguments, r) ← pop r
  let r' ← enter body closureEnv r.env r
  return { r' with env := ← Heap.cons arguments closureEnv }

/-- Apply a closure whose environment starts with a placeholder frame. The values being bound
have captured that frame, so it is filled in place; the caller resumes outside of it. -/
def applyRecursive (r : Registers) : HeapM Registers := do
  let ((body, closureEnv), r) ← popClosure r
  let (arguments, r) ← pop r
  match closureEnv with
  | .pair placeholder =>
    Heap.setCar placeholder arguments
    enter body closureEnv (← Heap.read (·.cdr placeholder)) r
  | _ => throw (.fault .noPlaceholder)

/-- Leave a closure body: its result goes on the caller's stack. -/
def leave (r : Registers) : HeapM Registers := do
  let (result, r) ← pop r
  let (stack, r) ← popDump r
  let (env, r) ← popDump r
  let (code, r) ← popDump r
  push result { r with stack, env, code }

/-- Run one of two branches, with the code after them on the dump. -/
def select (r : Registers) : HeapM Registers := do
  let (test, r) ← pop r
  let (consequent, r) ← operand r
  let (alternative, r) ← operand r
  let dump ← Heap.cons r.code r.dump
  return { r with dump, code := if test.isTruthy then consequent else alternative }

def execute (r : Registers) : Opcode → HeapM Registers
  | .nil => push .nil r
  | .ldc => do
    let (v, r) ← operand r
    push v r
  | .ld => load Heap.lookup? r
  | .ldr => load Heap.lookupRest? r
  | .st => store r
  | .cons => do
    let (car, r) ← pop r
    let (cdr, r) ← pop r
    push (← Heap.cons car cdr) r
  | .sel => select r
  | .join => do
    let (code, r) ← popDump r
    return { r with code }
  | .ldf => do
    let (body, r) ← operand r
    push (← Heap.cons body r.env) r
  | .ap => apply r
  | .rtn => leave r
  | .dum => do
    return { r with env := ← Heap.cons .nil r.env }
  | .rap => applyRecursive r
  | .halt => pure r

def applyBuiltin (symbols : SymbolTable) (name : Symbol) (r : Registers) : HeapM Registers := do
  match Builtin.ofSymbol? name with
  | none => throw (.fault (.notBuiltin (symbols.name name)))
  | some b =>
    let (x, r) ← pop r
    let (y, r) ← if b.arity = 2 then pop r else pure (.nil, r)
    push (← b.apply x y) r

def dispatch (symbols : SymbolTable) (r : Registers) : Value → HeapM Outcome
  | .op .halt => return .halted r
  | .op o => return .running (← execute r o)
  | .ident name => return .running (← applyBuiltin symbols name r)
  | v => throw (.fault (.notInstruction v.kind))

/-- Fetch and carry out one instruction. A fault carries the registers from before it. -/
def step (symbols : SymbolTable) (r : Registers) : HeapM Outcome := fun h =>
  match (operand r >>= fun (instruction, r') => dispatch symbols r' instruction) h with
  | .ok outcome h => .ok outcome h
  | .error e h => .error (e.withRegisters r) h

end Machine

end SecdLisp
