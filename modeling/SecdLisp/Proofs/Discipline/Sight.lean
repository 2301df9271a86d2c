import SecdLisp.Proofs.Discipline.History
import SecdLisp.Proofs.Linking.Code

/-!
# What a history has shown

A program comes across pairs that were made for it: by the builtin, as lists of values, and as the
rest of an argument list. It also runs code and keeps closures. From the moment on in which such a pair
is first there for it, the pair is to stay what it is.
-/

namespace SecdLisp

namespace Linking

/-- The cells of the first instruction of a code list: those of its words, and that of an address. The
closure of a recursive binding is one with the instruction that enters it. -/
def instructionCells (h : Heap) (code : Value) : List Addr :=
  let rest := tail h code
  let words := match head h code with
    | .op .ldc => [code, rest]
    | .op .ld | .op .ldr | .op .st => [code, rest, head h rest]
    | .op .sel | .op .ldf => [code, rest, tail h rest]
    | _ => [code]
  words.filterMap Value.addr?

/-- A cell of the code that one walks through; a constant in it is none. -/
def CodeCell (h : Heap) (code : Value) (a : Addr) : Prop :=
  ∃ frames frames' v, Leads h (frames, code) (frames', v) ∧ a ∈ instructionCells h v

end Linking

namespace Machine

namespace Moment

/-- The heap that the instruction leaves. -/
def after (m : Moment) : Heap :=
  match m.outcome with
  | .ok _ h | .error _ h => h

/-- The value that the instruction leaves on top of the stack, unless the run is over. -/
def left? (m : Moment) : Option Value :=
  match m.outcome with
  | .ok (.running r) h => h.carOf? r.stack
  | _ => none

/-- The instruction calls a closure on an argument list with that cell. -/
def Calls (m : Moment) (a : Addr) : Prop :=
  ∃ list ∈ arguments? m.heap m.registers, m.heap.InList list a

/-- The instruction puts that cell in front of a list. -/
def Links (m : Moment) (a : Addr) : Prop :=
  m.instruction? = some (.op .cons) ∧ m.left? = some (.pair a)

/-- The instruction finds a value of the program on the stack, and works with it. -/
inductive Takes (m : Moment) (v : Value) : Prop where
  | operand {o} (instruction : m.instruction? = some (.op o))
    (works : o ∈ [.cons, .sel, .st, .ap, .rtn, .halt])
    (top : m.heap.carOf? m.registers.stack = some v)
  | first {b : Builtin} (instruction : m.instruction? = some (.ident b.symbol))
    (top : m.heap.carOf? m.registers.stack = some v)
  | second {b : Builtin} (instruction : m.instruction? = some (.ident b.symbol)) (two : b.arity = 2)
    (below : second? m.heap m.registers = some v)

end Moment

/-- A pair is there for the program, or is part of what runs, and this is what it holds. -/
inductive Shows (before : List Moment) (m : Moment) : Addr → Cell → Prop where
  /-- A pair that the builtin makes. -/
  | cons {a} (builtin : m.instruction? = some (.ident Builtin.cons.symbol))
    (left : m.left? = some (.pair a)) : Shows before m a (m.after.cell a)
  /-- A pair of a list of values that the program gets to work with: it was put in front of the list,
  and no call has taken it with its arguments. -/
  | list {v a} (takes : m.Takes v) (inside : m.heap.InList v a) (linked : ∃ d ∈ before, d.Links a)
    (apart : ∀ d ∈ before, ¬d.Calls a) : Shows before m a (m.heap.cell a)
  /-- A pair of the list that a rest parameter stands for. -/
  | rest {v a} (load : m.instruction? = some (.op .ldr)) (left : m.left? = some v)
    (inside : m.after.InList v a) : Shows before m a (m.after.cell a)
  | closure {a} (made : a ∈ m.made?) : Shows before m a (m.after.cell a)
  | code {a} (inside : Linking.CodeCell m.heap m.registers.code a) :
    Shows before m a (m.heap.cell a)

/-- The history has shown that pair, with that in it. -/
def Showed (history : List Moment) (a : Addr) (c : Cell) : Prop :=
  ∃ before m rest, history = before ++ m :: rest ∧ Shows before m a c

theorem Showed.snoc {history : List Moment} {m : Moment} {a : Addr} {c : Cell}
    (showed : Showed (history ++ [m]) a c) :
    Showed history a c ∨ Shows history m a c := by
  obtain ⟨before, m', rest, split, shows⟩ := showed
  rcases List.eq_nil_or_concat rest with rfl | ⟨rest, last, rfl⟩
  · obtain ⟨rfl, same⟩ := List.append_inj' split rfl
    cases same
    exact .inr shows
  · rw [List.concat_eq_append, ← List.cons_append, ← List.append_assoc] at split
    exact .inl ⟨before, m', rest, (List.append_inj' split rfl).1, shows⟩

end Machine

end SecdLisp
