import SecdLisp.Opcode

/-!
# Values

A value is an atom or the address of a cons cell. Identifiers are numbers that a symbol
table gives out; addresses are positions in a heap.
-/

namespace SecdLisp

/-- The number of an interned name. -/
abbrev Symbol := Nat

/-- The position of a cons cell in a heap. -/
abbrev Addr := Nat

/-- The 64-bit word of an integer, if it has one. -/
def word? (n : Int) : Option Int64 :=
  if Int64.minValue.toInt ≤ n ∧ n ≤ Int64.maxValue.toInt then some (Int64.ofInt n) else none

theorem word?_eq_some_iff {n : Int} {w : Int64} : word? n = some w ↔ w.toInt = n := by
  unfold word?
  split
  next h =>
    rw [Option.some.injEq]
    constructor
    · rintro rfl
      rw [Int64.toInt_minValue, Int64.toInt_maxValue] at h
      exact Int64.toInt_ofInt_of_le h.1 (by omega)
    · rintro rfl
      exact Int64.ofInt_toInt w
  next h =>
    simp only [reduceCtorEq, false_iff]
    rintro rfl
    exact h ⟨w.minValue_le_toInt, w.toInt_le⟩

/-- A Lisp value, one machine word. -/
inductive Value where
  | nil
  /-- The true atom, written `t`. -/
  | truth
  | int (n : Int64)
  | ident (name : Symbol)
  | op (code : Opcode)
  | pair (cell : Addr)
  deriving DecidableEq, Repr, Inhabited

/-- What sort of value it is, as error texts name it. -/
inductive Kind where
  | nil
  | truth
  | integer
  | identifier
  | opcode
  | pair
  deriving DecidableEq, Repr, Inhabited

def Kind.name : Kind → String
  | nil => "nil"
  | truth => "true"
  | integer => "integer"
  | identifier => "identifier"
  | opcode => "opcode"
  | pair => "pair"

namespace Value

def kind : Value → Kind
  | nil => .nil
  | truth => .truth
  | int _ => .integer
  | ident _ => .identifier
  | op _ => .opcode
  | pair _ => .pair

def isNil : Value → Bool
  | nil => true
  | _ => false

def isPair : Value → Bool
  | pair _ => true
  | _ => false

/-- Everything but nil counts as true. -/
def isTruthy (v : Value) : Bool := !v.isNil

def addr? : Value → Option Addr
  | pair a => some a
  | _ => none

def int? : Value → Option Int64
  | int n => some n
  | _ => none

/-- The truth value of a test: the true atom or nil. -/
def ofBool : Bool → Value
  | true => truth
  | false => nil

end Value

end SecdLisp
