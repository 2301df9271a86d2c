import SecdLisp.Globals
import SecdLisp.Image.Basic
import SecdLisp.SymbolTable
import Std.Data.TreeMap

/-!
# Taking an image

Cells are numbered when they are first seen: the root first, then for every numbered cell in
turn its car and its cdr. Names are numbered in the same way. Sharing and cycles so stay what
they are.
-/

namespace SecdLisp

/-- Numbers given to keys in order of first use. -/
structure Numbering where
  keys : Array Nat
  index : Std.TreeMap Nat Nat

namespace Numbering

def empty : Numbering := ⟨#[], ∅⟩

def number (n : Numbering) (key : Nat) : Nat × Numbering :=
  match n.index[key]? with
  | some i => (i, n)
  | none => (n.keys.size, ⟨n.keys.push key, n.index.insert key n.keys.size⟩)

end Numbering

namespace Image

structure Survey where
  cells : Numbering
  names : Numbering

def Survey.slot (s : Survey) : Value → Slot × Survey
  | .nil => (.nil, s)
  | .truth => (.truth, s)
  | .int n => (.int n, s)
  | .op o => (.op o, s)
  | .ident name =>
    let (i, names) := s.names.number name
    (.ident (UInt32.ofNat i), { s with names })
  | .pair a =>
    let (i, cells) := s.cells.number a
    (.pair (UInt32.ofNat i), { s with cells })

/-- Encode the numbered cells from the first one that is not encoded yet, until none is left. A
cell is numbered once, so the size of the heap bounds how many there are. -/
def encodeCells (h : Heap) :
    (fuel : Nat) → Array ImageCell → Survey → Array ImageCell × Survey
  | 0, cells, s => (cells, s)
  | fuel + 1, cells, s =>
    match s.cells.keys[cells.size]? with
    | none => (cells, s)
    | some a =>
      let (car, s) := s.slot (h.car a)
      let (cdr, s) := s.slot (h.cdr a)
      encodeCells h fuel (cells.push ⟨car, cdr⟩) s

def capture (h : Heap) (symbols : SymbolTable) (g : Globals) : Image :=
  let (root, s) := Survey.slot ⟨.empty, .empty⟩ g.env
  let (cells, s) := encodeCells h h.size #[] s
  { names := s.names.keys.map symbols.name
    cells
    root
    functions := g.functions.map symbols.name
    macros := g.macros.map symbols.name }

end Image

end SecdLisp
