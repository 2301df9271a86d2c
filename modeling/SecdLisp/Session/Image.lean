import SecdLisp.Image.Bytes
import SecdLisp.Image.Capture
import SecdLisp.Session.Basic

/-!
# Saving and restoring sessions

A session is saved as the image of its global state. Restoring an image adds its cells and names
to a session and then makes them the session's global state; everything the session had stays
where it was.
-/

namespace SecdLisp

namespace Session

def image (s : Session) : Image := Image.capture s.heap s.symbols s.globals

def capture : SessionM Image := fun s =>
  let image := s.image
  (do
    report (.captured image.cells.size image.functions.length image.macros.length)
    return image) s

def internAll : List String → SessionM (List Symbol)
  | [] => return []
  | name :: names => do
    let symbol ← intern name
    return symbol :: (← internAll names)

def allocBlank : Nat → HeapM Unit
  | 0 => return
  | n + 1 => do
    let _ ← Heap.alloc .nil .nil
    allocBlank n

/-- A slot as a value, for an image whose names have these numbers and whose cells start at
`base`. -/
def slotValue (names : Array Symbol) (base : Addr) : Slot → Value
  | .nil => .nil
  | .truth => .truth
  | .int n => .int n
  | .ident i => .ident (names[i.toNat]?.getD default)
  | .op o => .op o
  | .pair i => .pair (base + i.toNat)

def fillCells (value : Slot → Value) : Addr → List ImageCell → HeapM Unit
  | _, [] => return
  | a, c :: cells => do
    Heap.update a fun _ => ⟨value c.car, value c.cdr⟩
    fillCells value (a + 1) cells

/-- Install an image, replacing the global environment and both tables of names. An image that
is not valid changes nothing. -/
def restore (image : Image) : SessionM Unit := do
  match image.validate with
  | .error cause => throw (.image cause)
  | .ok () =>
    let names ← internAll image.names.toList
    let base ← onHeap (Heap.read Heap.size)
    onHeap (allocBlank image.cells.size)
    let value := slotValue names.toArray base
    onHeap (fillCells value base image.cells.toList)
    let functions ← internAll image.functions
    let macros ← internAll image.macros
    fun s => .ok () { s with globals := ⟨value image.root, functions, macros⟩ }
    report (.restored image.cells.size)

end Session

end SecdLisp
