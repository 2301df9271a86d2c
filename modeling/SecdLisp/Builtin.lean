import SecdLisp.Heap
import SecdLisp.SymbolTable

/-!
# Builtins

The twelve operations that compiled code names instead of calling. They take their operands
from the stack, the first one on top.
-/

namespace SecdLisp

inductive Builtin where
  | add
  | sub
  | mul
  | div
  | car
  | cdr
  | cons
  | eq
  | lt
  | gt
  | le
  | ge
  deriving DecidableEq, Repr, Inhabited

namespace Builtin

def all : List Builtin := [.add, .sub, .mul, .div, .car, .cdr, .cons, .eq, .lt, .gt, .le, .ge]

def name : Builtin → String
  | add => "+"
  | sub => "-"
  | mul => "*"
  | div => "/"
  | car => "car"
  | cdr => "cdr"
  | cons => "cons"
  | eq => "eq"
  | lt => "<"
  | gt => ">"
  | le => "<="
  | ge => ">="

def arity : Builtin → Nat
  | car | cdr => 1
  | _ => 2

/-- The number that every symbol table gives its name. -/
def symbol (b : Builtin) : Symbol := 8 + all.idxOf b

def ofSymbol? (s : Symbol) : Option Builtin := if s < 8 then none else all[s - 8]?

@[simp] theorem ofSymbol?_symbol (b : Builtin) : ofSymbol? b.symbol = some b := by
  cases b <;> rfl

/-- The operands as integers. The first one that is none is at fault. -/
def integers (b : Builtin) : Value → Value → HeapM (Int64 × Int64)
  | .int m, .int n => pure (m, n)
  | .int _, v => throw (.fault (.notInteger b.name v.kind))
  | v, _ => throw (.fault (.notInteger b.name v.kind))

def word (b : Builtin) (n : Int) : HeapM Value :=
  match word? n with
  | some w => pure (.int w)
  | none => throw (.fault (.overflow b.name))

def arithmetic (b : Builtin) (f : Int → Int → Int) (x y : Value) : HeapM Value := do
  let (m, n) ← b.integers x y
  b.word (f m.toInt n.toInt)

/-- Division rounds toward zero. -/
def quotient (x y : Value) : HeapM Value := do
  let (m, n) ← div.integers x y
  if n = 0 then throw (.fault .divisionByZero)
  div.word (m.toInt.tdiv n.toInt)

def comparison (b : Builtin) (f : Int64 → Int64 → Bool) (x y : Value) : HeapM Value := do
  let (m, n) ← b.integers x y
  return .ofBool (f m n)

def half (b : Builtin) (f : Heap → Value → Option Value) (v : Value) : HeapM Value := do
  match ← Heap.read (f · v) with
  | some w => return w
  | none => throw (.fault (.notPair b.name v.kind))

/-- Apply a builtin; `x` is the first operand. One-operand builtins ignore `y`. Atoms are equal
by value and pairs by address. -/
def apply (b : Builtin) (x y : Value) : HeapM Value :=
  match b with
  | add => arithmetic b (· + ·) x y
  | sub => arithmetic b (· - ·) x y
  | mul => arithmetic b (· * ·) x y
  | div => quotient x y
  | car => half b Heap.carOf? x
  | cdr => half b Heap.cdrOf? x
  | cons => Heap.cons x y
  | eq => pure (.ofBool (x == y))
  | lt => comparison b (fun m n => m < n) x y
  | gt => comparison b (fun m n => n < m) x y
  | le => comparison b (fun m n => m ≤ n) x y
  | ge => comparison b (fun m n => n ≤ m) x y

def call (symbols : SymbolTable) (name : Symbol) (x y : Value) : HeapM Value :=
  match ofSymbol? name with
  | some b => b.apply x y
  | none => throw (.fault (.unknownBuiltin (symbols.name name)))

end Builtin

end SecdLisp
