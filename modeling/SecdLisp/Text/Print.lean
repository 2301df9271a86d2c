import SecdLisp.Heap
import SecdLisp.SymbolTable
import Std.Data.TreeSet

/-!
# Printing

Lists print in parentheses, pairs with a dot before the tail, operation codes in brackets. Three
dots stand for a pair that is being printed already, for what nests too deep, and for what is
left once enough has been printed; so printing ends on every heap.
-/

namespace SecdLisp

namespace Print

/-- Values nested deeper than this are left out. -/
def maxDepth : Nat := 200

/-- At most this many values are printed. A shared cell counts at every reference. -/
def maxNodes : Nat := 100000

/-- The pairs that are being printed. -/
abbrev Path := Std.TreeSet Addr

/-- What is printed so far, and how many more values may be. -/
structure Output where
  text : String
  budget : Nat

def Output.put (o : Output) (s : String) : Output := { o with text := o.text ++ s }

def Output.spend (o : Output) : Output := { o with budget := o.budget - 1 }

def atom (symbols : SymbolTable) : Value → String
  | .nil => "nil"
  | .truth => "t"
  | .int n => toString n.toInt
  | .ident name => symbols.name name
  | .op o => "[IS:" ++ o.name ++ "]"
  | .pair _ => "..."

/-- Print what follows the first element of a list. No cell is entered twice, so the number of
cells bounds the walk. -/
def tail (h : Heap) (item : Path → Value → Output → Output) :
    (fuel : Nat) → Path → Value → Output → Output
  | _, _, .nil, o => o
  | 0, _, .pair _, o => o.put " ..."
  | fuel + 1, path, .pair a, o =>
    if o.budget = 0 || path.contains a then o.put " ..."
    else
      let path := path.insert a
      tail h item fuel path (h.cdr a) (item path (h.car a) (o.put " "))
  | _, path, v, o => item path v (o.put " . ")

/-- Print a value with room for that many nested levels. -/
def value (h : Heap) (symbols : SymbolTable) : (room : Nat) → Path → Value → Output → Output
  | 0, _, _, o => o.put "..."
  | room + 1, path, v, o =>
    if o.budget = 0 then o.put "..."
    else
      match v with
      | .pair a =>
        if path.contains a then o.spend.put "..."
        else
          let path := path.insert a
          let o := value h symbols room path (h.car a) (o.spend.put "(")
          (tail h (value h symbols room) h.size path (h.cdr a) o).put ")"
      | v => o.spend.put (atom symbols v)

end Print

def Value.print (h : Heap) (symbols : SymbolTable) (v : Value) : String :=
  (Print.value h symbols (Print.maxDepth + 1) ∅ v ⟨"", Print.maxNodes⟩).text

end SecdLisp
