import SecdLisp.Environment

/-!
# Globals

The global environment has two frames, one for values and one for macros, and each has a table
of names. The position of a name in its table is its slot in the frame. Compiled code refers to
slots, so the tables only grow at the end.
-/

namespace SecdLisp

/-- Depth of the value frame, counted from the global environment. -/
def Globals.functionDepth : Nat := 1

/-- Depth of the macro frame, counted from the global environment. -/
def Globals.macroDepth : Nat := 2

structure Globals where
  env : Value
  functions : List Symbol
  macros : List Symbol
  deriving DecidableEq, Repr, Inhabited

namespace Globals

def create : HeapM Globals := do
  return ⟨← Heap.list [.nil, .nil], [], []⟩

/-- The slot of a name in a table, counting from one. -/
def slotIn? (table : List Symbol) (name : Symbol) : Option Nat :=
  (table.idxOf? name).map (· + 1)

/-- The slot of a name and the table, with the name added at the end if it is new. -/
def defineIn (table : List Symbol) (name : Symbol) : Nat × List Symbol :=
  match slotIn? table name with
  | some slot => (slot, table)
  | none => (table.length + 1, table ++ [name])

def functionSlot? (g : Globals) (name : Symbol) : Option Nat := slotIn? g.functions name

def macroSlot? (g : Globals) (name : Symbol) : Option Nat := slotIn? g.macros name

def isMacro (g : Globals) (name : Symbol) : Bool := (g.macroSlot? name).isSome

def defineFunction (g : Globals) (name : Symbol) : Nat × Globals :=
  let (slot, functions) := defineIn g.functions name
  (slot, { g with functions })

def defineMacro (g : Globals) (name : Symbol) : Nat × Globals :=
  let (slot, macros) := defineIn g.macros name
  (slot, { g with macros })

def truncate (g : Globals) (functions macros : Nat) : Globals :=
  { g with functions := g.functions.take functions, macros := g.macros.take macros }

theorem slotIn?_defineIn (table : List Symbol) (name : Symbol) :
    slotIn? (defineIn table name).2 name = some (defineIn table name).1 := by
  unfold defineIn
  split
  next slot h => exact h
  next h =>
    have fresh : name ∉ table := by simpa [slotIn?] using h
    have : (table ++ [name]).idxOf? name = some table.length := by
      rw [List.idxOf?_eq_some_iff]
      refine ⟨by simp, by simp, fun j hj => ?_⟩
      rw [List.getElem_append_left hj]
      exact fun he => fresh (he ▸ List.getElem_mem hj)
    simp [slotIn?, this]

/-- Defining never takes a name away or moves one. -/
theorem le_defineIn (table : List Symbol) (name : Symbol) :
    table <+: (defineIn table name).2 := by
  unfold defineIn
  split
  · exact List.prefix_rfl
  · exact List.prefix_append ..

end Globals

end SecdLisp
