import SecdLisp.Error

/-!
# Images

An image is a snapshot of a global environment with everything that can be reached from it, and
of the two tables of global names. Its cells are numbered from zero, and it refers to names by
their position in a list of its own, so it does not depend on where it was taken.
-/

namespace SecdLisp

/-- Half of an image cell: an atom, or the position of a name or of a cell in the image. -/
inductive Slot where
  | nil
  | truth
  | int (n : Int64)
  | ident (name : UInt32)
  | op (code : Opcode)
  | pair (cell : UInt32)
  deriving DecidableEq, Repr, Inhabited

structure ImageCell where
  car : Slot
  cdr : Slot
  deriving DecidableEq, Repr, Inhabited

structure Image where
  names : Array String
  cells : Array ImageCell
  root : Slot
  functions : List String
  macros : List String
  deriving DecidableEq, Repr, Inhabited

namespace Image

def inRange (image : Image) : Slot → Bool
  | .ident i => i.toNat < image.names.size
  | .pair i => i.toNat < image.cells.size
  | _ => true

/-- Walk from a slot along cdr over at most that many cells. The answer is the number of cells
and the atom behind them, or `none` if the walk is not over by then. -/
def walk (image : Image) : (fuel : Nat) → Slot → Nat → Option (Nat × Slot)
  | 0, .pair _, _ => none
  | fuel + 1, .pair i, n => walk image fuel (image.cells[i.toNat]?.getD default).cdr (n + 1)
  | _, atom, n => some (n, atom)

/-- Check that an image can be installed: every reference is in range, and the root is a chain
of at least two frames that ends in nil. A walk over more cells than there are is in a cycle. -/
def validate (image : Image) : Except ImageError Unit :=
  if !(image.cells.all fun c => image.inRange c.car && image.inRange c.cdr)
      || !image.inRange image.root then
    .error .indexOutOfRange
  else
    match image.walk image.cells.size image.root 0 with
    | none => .error .cyclicEnvironment
    | some (frames, last) =>
      if frames < 2 ∨ last ≠ .nil then .error .malformedEnvironment else .ok ()

end Image

end SecdLisp
