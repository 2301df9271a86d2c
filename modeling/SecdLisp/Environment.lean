import SecdLisp.Heap

/-!
# Environments

An environment is a list of frames and a frame is a list of values. A variable is addressed by
the depth of its frame and its index there, both counted from one.
-/

namespace SecdLisp

namespace Heap

/-- The cell of the environment that holds the frame at `depth`. -/
def frameHolder? (h : Heap) (env : Value) (depth : Nat) : Option Addr :=
  if depth = 0 then none else h.nthCell? env depth

def lookup? (h : Heap) (env : Value) (depth index : Nat) : Option Value :=
  if index = 0 then none
  else (h.frameHolder? env depth).bind fun holder =>
    (h.nthCell? (h.car holder) index).map h.car

def dropCells? (h : Heap) : (steps : Nat) → Value → Option Value
  | 0, v => some v
  | n + 1, .pair a => dropCells? h n (h.cdr a)
  | _ + 1, _ => none

/-- The rest of the frame from an address on. A frame that ends just before the address has
the rest nil. -/
def lookupRest? (h : Heap) (env : Value) (depth index : Nat) : Option Value :=
  if index = 0 then none
  else (h.frameHolder? env depth).bind fun holder =>
    h.dropCells? (index - 1) (h.car holder)

/-- The cell that a link leads to. A nil link is first made to lead to a fresh cell; a link to
any other atom leads nowhere. -/
def follow (link : Value) (relink : Value → HeapM Unit) : HeapM (Option Addr) :=
  match link with
  | .pair a => pure (some a)
  | .nil => do
    let a ← alloc .nil .nil
    relink (.pair a)
    return some a
  | _ => pure none

/-- The cell that many steps along cdr, with cells added past the end. -/
def extendTo : (steps : Nat) → Addr → HeapM (Option Addr)
  | 0, a => pure (some a)
  | n + 1, a => do
    match ← follow (← read (·.cdr a)) (setCdr a) with
    | some b => extendTo n b
    | none => return none

/-- Store a value at an address, in place. A frame too short for the index grows by cells of
nil. The answer is whether there is such a frame. -/
def store (env : Value) (depth index : Nat) (v : Value) : HeapM Bool := do
  if index = 0 then return false
  let some holder ← read (·.frameHolder? env depth) | return false
  let some first ← follow (← read (·.car holder)) (setCar holder) | return false
  let some target ← extendTo (index - 1) first | return false
  setCar target v
  return true

end Heap

end SecdLisp
