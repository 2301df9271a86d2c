import SecdLisp.Heap
import SecdLisp.SymbolTable

/-!
# Templates

A backquoted form is a template. It is expanded when it is read, into an expression that builds
the form with the unquoted parts filled in. Until then an unquoted expression `x` is kept as the
list of the unquote mark and `x`.
-/

namespace SecdLisp

namespace Template

def quoted (v : Value) : HeapM Value := Heap.list [.ident .quote, v]

def unquoted (v : Value) : HeapM Value := do
  Heap.cons (.ident .unquote) (← Heap.cons v .nil)

/-- Expand a template that nests at most `height` deep: an atom is quoted, an unquoted
expression stands for itself, and a list becomes a chain of `cons` from its last element on. -/
def expandWithin : (height : Nat) → Value → HeapM Value
  | 0, _ => throw (.parse .improperTemplate)
  | height + 1, .pair a => do
    if (← Heap.read (·.car a)) = .ident .unquote then
      match ← Heap.read fun h => h.carOf? (h.cdr a) with
      | some v => return v
      | none => throw (.parse .malformedUnquote)
    else
      match ← Heap.read (·.toList? (.pair a)) with
      | none => throw (.parse .improperTemplate)
      | some items =>
        items.foldrM (fun item built => do
          Heap.list [.ident .cons, ← expandWithin height item, built]) .nil
  | _ + 1, v => quoted v

/-- Expand a template. What was read has no cycles, so it nests no deeper than there are cells. -/
def expand (v : Value) : HeapM Value := do
  expandWithin ((← Heap.read Heap.size) + 1) v

end Template

end SecdLisp
