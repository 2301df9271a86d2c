import SecdLisp.Proofs.Reference.Syntax

/-!
# The code of an expression

What the compiler makes of an expression, as a relation: the shape of the code for every form,
on cells that hold code for good. Whatever compiles and spells an expression is compiled to code
of that expression, by adding cells to the heap and names to the table of global values.
-/

namespace SecdLisp

namespace Reference

open Compile

/-- What code is read against: the cells that hold it, the data that its literals stand for, and
the slots of the global names. -/
structure Program where
  code : Addr → Option Cell
  means : Value → Datum → Prop
  table : List Symbol

/-- The code `c` is these words in front of the code `k`. -/
inductive Words (code : Addr → Option Cell) : List Value → Value → Value → Prop where
  | nil {k : Value} : Words code [] k k
  | cons {a : Addr} {w c k : Value} {ws : List Value} (here : code a = some ⟨w, c⟩)
    (rest : Words code ws k c) : Words code (w :: ws) k (.pair a)

def Address (code : Addr → Option Cell) (depth index : Nat) (v : Value) : Prop :=
  ∃ a, v = .pair a ∧ code a = some ⟨.int (Int64.ofNat depth), .int (Int64.ofNat index)⟩

/-- The operand that stands for a name in these scopes. -/
inductive Placed (P : Program) (scopes : List Frame) (name : Symbol) : Formal → Value → Prop where
  | inner {place : Place} {v : Value} (found : Frame.locate? scopes name = some place)
    (address : Address P.code place.depth place.index v) :
    Placed P scopes name place.formal v
  | outer {slot : Nat} {v : Value} (missing : Frame.locate? scopes name = none)
    (found : Globals.slotIn? P.table name = some slot)
    (address : Address P.code (scopes.length + 1) slot v) :
    Placed P scopes name (.plain name) v

def loadCode : Formal → Opcode
  | .plain _ => .ld
  | .rest _ => .ldr

/-- What code can be of: one expression, an argument list, the part of an argument list that
adds elements to it, or the operands of a builtin. -/
inductive Phrase where
  | expr (e : Expr)
  | arguments (es : List Expr)
  | conses (es : List Expr)
  | operands (es : List Expr)

/-- The code `c` is that of a phrase in these scopes, in front of the code `k`. -/
inductive Code (P : Program) : List Frame → Phrase → Value → Value → Prop where
  | nil {scopes : List Frame} {k c : Value} (words : Words P.code [.op .nil] k c) :
    Code P scopes (.expr .nil) k c
  | quote {scopes : List Frame} {d : Datum} {v k c : Value} (literal : P.means v d)
    (words : Words P.code [.op .ldc, v] k c) : Code P scopes (.expr (.quote d)) k c
  | ident {scopes : List Frame} {name : Symbol} {formal : Formal} {v k c : Value}
    (placed : Placed P scopes name formal v)
    (words : Words P.code [.op (loadCode formal), v] k c) :
    Code P scopes (.expr (.ident name)) k c
  | cond {scopes : List Frame} {test consequent alternative : Expr} {c₁ c₂ c₃ j₁ j₂ k c : Value}
    (join₁ : Words P.code [.op .join] .nil j₁) (second : Code P scopes (.expr consequent) j₁ c₁)
    (join₂ : Words P.code [.op .join] .nil j₂) (third : Code P scopes (.expr alternative) j₂ c₂)
    (words : Words P.code [.op .sel, c₁, c₂] k c₃) (first : Code P scopes (.expr test) c₃ c) :
    Code P scopes (.expr (.cond test consequent alternative)) k c
  | function {scopes : List Frame} {params : Frame} {body : Expr} {r b k c : Value}
    (few : params.length < 2 ^ 63) (rtn : Words P.code [.op .rtn] .nil r)
    (inner : Code P (params :: scopes) (.expr body) r b) (words : Words P.code [.op .ldf, b] k c) :
    Code P scopes (.expr (.function params body)) k c
  | bind {scopes : List Frame} {params : Frame} {values : List Expr} {body : Expr}
    {r b c₁ k c : Value} (few : params.length < 2 ^ 63) (rtn : Words P.code [.op .rtn] .nil r)
    (inner : Code P (params :: scopes) (.expr body) r b)
    (words : Words P.code [.op .ldf, b, .op .ap] k c₁)
    (outer : Code P scopes (.arguments values) c₁ c) :
    Code P scopes (.expr (.bind params values body)) k c
  | recursive {scopes : List Frame} {params : Frame} {values : List Expr} {body : Expr}
    {r b c₁ c₂ k c : Value} (few : params.length < 2 ^ 63) (rtn : Words P.code [.op .rtn] .nil r)
    (inner : Code P (params :: scopes) (.expr body) r b)
    (words : Words P.code [.op .ldf, b, .op .rap] k c₁)
    (within : Code P (params :: scopes) (.arguments values) c₁ c₂)
    (dum : Words P.code [.op .dum] c₂ c) :
    Code P scopes (.expr (.recursive params values body)) k c
  | assign {scopes : List Frame} {name slot : Symbol} {value : Expr} {v c₁ k c : Value}
    (placed : Placed P scopes name (.plain slot) v) (words : Words P.code [.op .st, v] k c₁)
    (inner : Code P scopes (.expr value) c₁ c) :
    Code P scopes (.expr (.assign name value)) k c
  | list {scopes : List Frame} {args : List Expr} {k c : Value}
    (inner : Code P scopes (.arguments args) k c) : Code P scopes (.expr (.list args)) k c
  | builtin {scopes : List Frame} {b : Builtin} {args : List Expr} {c₁ k c : Value}
    (count : args.length = b.arity) (words : Words P.code [.ident b.symbol] k c₁)
    (inner : Code P scopes (.operands args) c₁ c) :
    Code P scopes (.expr (.builtin b args)) k c
  | apply {scopes : List Frame} {operator : Expr} {args : List Expr} {c₁ c₂ k c : Value}
    (words : Words P.code [.op .ap] k c₁) (first : Code P scopes (.expr operator) c₁ c₂)
    (inner : Code P scopes (.arguments args) c₂ c) :
    Code P scopes (.expr (.apply operator args)) k c
  | arguments {scopes : List Frame} {es : List Expr} {c₁ k c : Value}
    (inner : Code P scopes (.conses es) k c₁) (words : Words P.code [.op .nil] c₁ c) :
    Code P scopes (.arguments es) k c
  | noConses {scopes : List Frame} {k : Value} : Code P scopes (.conses []) k k
  | conses {scopes : List Frame} {e : Expr} {es : List Expr} {c₁ c₂ k c : Value}
    (words : Words P.code [.op .cons] k c₁) (first : Code P scopes (.expr e) c₁ c₂)
    (others : Code P scopes (.conses es) c₂ c) : Code P scopes (.conses (e :: es)) k c
  | noOperands {scopes : List Frame} {k : Value} : Code P scopes (.operands []) k k
  | operands {scopes : List Frame} {e : Expr} {es : List Expr} {c₁ k c : Value}
    (first : Code P scopes (.expr e) k c₁) (others : Code P scopes (.operands es) c₁ c) :
    Code P scopes (.operands (e :: es)) k c

variable {ω α : Type}

/-- Compiling only adds: cells to the heap, and names to the table of values. -/
structure Adds (s s' : State ω) : Prop where
  heap : s.heap.Grows s'.heap
  functions : s.globals.functions <+: s'.globals.functions
  macros : s'.globals.macros = s.globals.macros

theorem Adds.refl (s : State ω) : Adds s s := ⟨.refl _, List.prefix_rfl, rfl⟩

theorem Adds.trans {s₁ s₂ s₃ : State ω} (first : Adds s₁ s₂) (second : Adds s₂ s₃) :
    Adds s₁ s₃ :=
  ⟨first.heap.trans second.heap, first.functions.trans second.functions,
    second.macros.trans first.macros⟩

/-- What was added between two states is part of the program. -/
structure Program.Covers (P : Program) (s s' : State ω) : Prop where
  cells : ∀ a, s.heap.size ≤ a → a < s'.heap.size → P.code a = some (s'.heap.cell a)
  table : s'.globals.functions <+: P.table

theorem Program.Covers.before {P : Program} {s₁ s₂ s₃ : State ω} (covers : P.Covers s₁ s₃)
    (second : Adds s₂ s₃) : P.Covers s₁ s₂ := by
  refine ⟨fun a le lt => ?_, second.functions.trans covers.table⟩
  rw [covers.cells a le (Nat.lt_of_lt_of_le lt second.heap.size_le), second.heap.cell a lt]

theorem Program.Covers.after {P : Program} {s₁ s₂ s₃ : State ω} (covers : P.Covers s₁ s₃)
    (first : Adds s₁ s₂) : P.Covers s₂ s₃ :=
  ⟨fun a le lt => covers.cells a (Nat.le_trans first.heap.size_le le) lt, covers.table⟩

/-- Compiling leads from one state to another, and every program with what was added, in which
literals mean at least what `means` says, satisfies `p`. -/
def Emits (means : Value → Datum → Prop) (s s' : State ω) (p : Program → Prop) : Prop :=
  Adds s s' ∧ ∀ P : Program, (∀ v d, means v d → P.means v d) → P.Covers s s' → p P

variable {means : Value → Datum → Prop}

theorem Emits.bind {s₁ s₂ s₃ : State ω} {p q r : Program → Prop} (first : Emits means s₁ s₂ p)
    (second : Emits means s₂ s₃ q) (both : ∀ P, p P → q P → r P) : Emits means s₁ s₃ r := by
  refine ⟨first.1.trans second.1, fun P means covers => ?_⟩
  have before := first.2 P means (covers.before second.1)
  have after := second.2 P means (covers.after first.1)
  exact both P before after

theorem Emits.mono {s s' : State ω} {p q : Program → Prop} (emits : Emits means s s' p)
    (imp : ∀ P, p P → q P) : Emits means s s' q :=
  ⟨emits.1, fun P means covers => imp P (emits.2 P means covers)⟩

theorem listWithTail_words {words : List Value} {k c : Value} {h h' : Heap}
    (run : Heap.listWithTail words k h = .ok c h') :
    h.Grows h' ∧ ∀ code : Addr → Option Cell,
      (∀ a, h.size ≤ a → a < h'.size → code a = some (h'.cell a)) → Words code words k c := by
  induction words generalizing c h' with
  | nil =>
    simp only [Heap.listWithTail, List.foldrM_nil, pure_eq_ok] at run
    obtain ⟨rfl, rfl⟩ := run
    exact ⟨.refl _, fun _ _ => .nil⟩
  | cons w words ih =>
    simp only [Heap.listWithTail, List.foldrM_cons, bind_eq_ok] at run
    obtain ⟨rest, h₁, before, run⟩ := run
    obtain ⟨grows₁, code₁⟩ := ih before
    obtain ⟨grows₂, rfl, room, cell⟩ := Heap.cons_grows run
    refine ⟨grows₁.trans grows₂, fun code covered => .cons ?_ (code₁ code fun a le lt => ?_)⟩
    · rw [covered h₁.size grows₁.size_le room, cell]
    · rw [covered a le (Nat.lt_trans lt room), grows₂.cell a lt]

theorem onHeap_eq_ok {x : HeapM α} {s s' : State ω} {a : α} :
    onHeap x s = .ok a s' ↔ ∃ h, x s.heap = .ok a h ∧ s' = ⟨h, s.globals, s.record⟩ := by
  obtain ⟨heap, globals, record⟩ := s
  unfold onHeap
  cases run : x heap <;> simp [run, eq_comm]

theorem adds_of_grows {s : State ω} {h : Heap} (grows : s.heap.Grows h) :
    Adds s ⟨h, s.globals, s.record⟩ := ⟨grows, List.prefix_rfl, rfl⟩

theorem emit_words (means : Value → Datum → Prop) {words : List Value} {k c : Value} {s s' : State ω}
    (run : emit words k s = .ok c s') : Emits means s s' fun P => Words P.code words k c := by
  obtain ⟨h, added, rfl⟩ := onHeap_eq_ok.mp run
  obtain ⟨grows, words⟩ := listWithTail_words added
  exact ⟨adds_of_grows grows, fun P _ covers => words P.code covers.cells⟩

theorem address_address (means : Value → Datum → Prop) {depth index : Nat} {v : Value} {s s' : State ω}
    (run : address depth index s = .ok v s') :
    Emits means s s' fun P => Address P.code depth index v := by
  obtain ⟨h, added, rfl⟩ := onHeap_eq_ok.mp run
  obtain ⟨grows, rfl, room, cell⟩ := Heap.cons_grows added
  refine ⟨adds_of_grows grows, fun P _ covers => ⟨_, rfl, ?_⟩⟩
  rw [covers.cells _ (Nat.le_refl _) room, cell]

end Reference

end SecdLisp
