import SecdLisp.Error

/-!
# The heap

Cons cells live in one growing array. A cell is never freed or moved, so an address stays good
for ever; the only failure is running out of room.
-/

namespace SecdLisp

structure Cell where
  car : Value
  cdr : Value
  deriving DecidableEq, Repr, Inhabited

/-- Addresses have 32 bits. -/
def Heap.maxCells : Nat := UInt32.size - 1

def Heap.defaultCapacity : Nat := 16000000

structure Heap where
  cells : Array Cell
  capacity : Nat
  size_le : cells.size ≤ capacity
  capacity_le : capacity ≤ Heap.maxCells

/-- Work on a heap. A failure leaves the heap as it was at that moment. -/
abbrev HeapM := EStateM Error Heap

namespace Heap

/-- An empty heap with room for that many cells, as far as addresses reach. -/
def ofCapacity (cells : Nat) : Heap :=
  ⟨#[], min cells maxCells, Nat.zero_le _, Nat.min_le_right ..⟩

instance : Inhabited Heap := ⟨ofCapacity 0⟩

def size (h : Heap) : Nat := h.cells.size

/-- The cell at an address; a cell of two nils where there is none. -/
@[inline] def cell (h : Heap) (a : Addr) : Cell := h.cells[a]?.getD ⟨.nil, .nil⟩

@[inline] def car (h : Heap) (a : Addr) : Value := (h.cell a).car

@[inline] def cdr (h : Heap) (a : Addr) : Value := (h.cell a).cdr

/-- The car of a value, if it is a pair. -/
def carOf? (h : Heap) (v : Value) : Option Value := v.addr?.map h.car

/-- The cdr of a value, if it is a pair. -/
def cdrOf? (h : Heap) (v : Value) : Option Value := v.addr?.map h.cdr

@[inline] def read {α : Type} (f : Heap → α) : HeapM α := fun h => .ok (f h) h

def alloc (car cdr : Value) : HeapM Addr := fun h =>
  if room : h.cells.size < h.capacity then
    .ok h.cells.size
      ⟨h.cells.push ⟨car, cdr⟩, h.capacity, by rw [Array.size_push]; exact room, h.capacity_le⟩
  else
    .error .heapFull h

@[inline] def cons (car cdr : Value) : HeapM Value := do
  return .pair (← alloc car cdr)

def update (a : Addr) (f : Cell → Cell) : HeapM Unit := fun h =>
  .ok () ⟨h.cells.modify a f, h.capacity, by simpa using h.size_le, h.capacity_le⟩

def setCar (a : Addr) (v : Value) : HeapM Unit := update a fun c => { c with car := v }

def setCdr (a : Addr) (v : Value) : HeapM Unit := update a fun c => { c with cdr := v }

def listWithTail (vs : List Value) (tail : Value) : HeapM Value := vs.foldrM cons tail

def list (vs : List Value) : HeapM Value := listWithTail vs .nil

/-- Walk along cdr over at most `fuel` cells, collecting cars, up to nil. -/
def collect (h : Heap) : (fuel : Nat) → Value → List Value → Option (List Value)
  | _, .nil, acc => some acc.reverse
  | fuel + 1, .pair a, acc => collect h fuel (h.cdr a) (h.car a :: acc)
  | _, _, _ => none

/-- The elements of a proper list. A walk that ends meets no cell twice, so the number of cells
bounds it; a cyclic list has no elements to give. -/
def toList? (h : Heap) (v : Value) : Option (List Value) := h.collect h.size v []

def isProperList (h : Heap) (v : Value) : Bool := (h.toList? v).isSome

/-- Count the pairs along cdr, up to `fuel`. -/
def countFrom (h : Heap) : (fuel : Nat) → Value → Nat → Nat
  | fuel + 1, .pair a, n => countFrom h fuel (h.cdr a) (n + 1)
  | _, _, n => n

/-- How many pairs a chain has, whatever it ends in. -/
def chainLength (h : Heap) (v : Value) : Nat := h.countFrom h.size v 0

def cellAfter? (h : Heap) : (steps : Nat) → Addr → Option Addr
  | 0, a => some a
  | n + 1, a =>
    match h.cdr a with
    | .pair b => cellAfter? h n b
    | _ => none

/-- The `n`-th cell of a list, counting from one; zero is taken as one. -/
def nthCell? (h : Heap) (list : Value) (n : Nat) : Option Addr :=
  list.addr?.bind (h.cellAfter? (n - 1))

@[simp] theorem capacity_ofCapacity (n : Nat) :
    (ofCapacity n).capacity = min n maxCells := rfl

theorem size_le_capacity (h : Heap) : h.size ≤ h.capacity := h.size_le

/-- A push leaves the cells before it alone. -/
theorem cell_of_push {h h' : Heap} {c : Cell} (hp : h'.cells = h.cells.push c) (a : Addr) :
    h'.cell a = if a = h.size then c else h.cell a := by
  by_cases ha : a = h.cells.size <;> simp [cell, hp, size, Array.getElem?_push, ha]

end Heap

end SecdLisp
