/-!
# Machine instructions

The fourteen operation codes, in the fixed order that images number them by.
-/

namespace SecdLisp

inductive Opcode where
  /-- Push nil. -/
  | nil
  /-- Push the constant that follows. -/
  | ldc
  /-- Push the value at the address that follows. -/
  | ld
  /-- Push the rest of a frame, from the address that follows. -/
  | ldr
  /-- Store the top of the stack at the address that follows. -/
  | st
  /-- Pop a car and a cdr, push their pair. -/
  | cons
  /-- Pop a test and run one of the two code lists that follow. -/
  | sel
  /-- Return from a branch. -/
  | join
  /-- Push a closure of the code list that follows. -/
  | ldf
  /-- Apply a closure to an argument list. -/
  | ap
  /-- Return from a closure. -/
  | rtn
  /-- Push a placeholder frame on the environment. -/
  | dum
  /-- Apply a closure, filling the placeholder frame with its arguments. -/
  | rap
  /-- Stop. -/
  | halt
  deriving DecidableEq, Repr, Inhabited

namespace Opcode

/-- Every operation code, in image order. -/
def all : List Opcode :=
  [.nil, .ldc, .ld, .ldr, .st, .cons, .sel, .join, .ldf, .ap, .rtn, .dum, .rap, .halt]

def name : Opcode → String
  | nil => "NIL"
  | ldc => "LDC"
  | ld => "LD"
  | ldr => "LDR"
  | st => "ST"
  | cons => "CONS"
  | sel => "SEL"
  | join => "JOIN"
  | ldf => "LDF"
  | ap => "AP"
  | rtn => "RTN"
  | dum => "DUM"
  | rap => "RAP"
  | halt => "HALT"

def ofName? (s : String) : Option Opcode := all.find? (·.name == s)

def index (o : Opcode) : Nat := all.idxOf o

def ofIndex? (n : Nat) : Option Opcode := all[n]?

@[simp] theorem ofIndex?_index (o : Opcode) : ofIndex? o.index = some o := by
  cases o <;> rfl

theorem index_lt (o : Opcode) : o.index < 14 := by cases o <;> decide

end Opcode

end SecdLisp
