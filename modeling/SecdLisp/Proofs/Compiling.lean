import SecdLisp.Compile.Expression
import SecdLisp.Proofs.Addressing
import SecdLisp.Proofs.Contract

/-!
# What compiling keeps

Code is put together from its end, phrase by phrase. So compiling keeps every contract that putting
one phrase in front of code keeps, and that giving a slot to a name and expanding a macro keep; and
the code has every property that a phrase hands on from what follows it.
-/

namespace SecdLisp

open Contract

inductive Table where
  | functions
  | macros
  deriving DecidableEq

def Table.depth : Table → Nat
  | functions => Globals.functionDepth
  | macros => Globals.macroDepth

def Globals.table (g : Globals) : Table → List Symbol
  | .functions => g.functions
  | .macros => g.macros

def Globals.defineAt (g : Globals) : Table → Symbol → Nat × Globals
  | .functions => g.defineFunction
  | .macros => g.defineMacro

def Table.defined : Table → String → Nat → Event
  | functions => .globalDefined
  | macros => .macroDefined

namespace Globals

variable (g : Globals) (table : Table) (name : Symbol)

theorem slot_defineAt :
    (g.defineAt table name).1 = (Globals.defineIn (g.table table) name).1 := by
  cases table <;> rfl

theorem env_defineAt : (g.defineAt table name).2.env = g.env := by
  cases table <;> rfl

theorem table_defineAt (t : Table) : (g.defineAt table name).2.table t =
    if t = table then (Globals.defineIn (g.table table) name).2 else g.table t := by
  cases table <;> cases t <;> rfl

end Globals

theorem Globals.slotIn?_bounds {names : List Symbol} {name : Symbol} {slot : Nat}
    (found : slotIn? names name = some slot) : 0 < slot ∧ slot ≤ names.length := by
  obtain ⟨i, here, rfl⟩ := Option.map_eq_some_iff.mp found
  have lt : i < names.length := (List.idxOf?_eq_some_iff.mp here).1
  exact ⟨Nat.succ_pos i, lt⟩

namespace Compile

variable {ω : Type}

theorem ends_onHeap {α : Type} {s : State ω} {x : HeapM α} {p : α → State ω → Prop}
    {q : Error → State ω → Prop} : Ends (onHeap x) s p q ↔
      Ends x s.heap (fun a h => p a { s with heap := h }) fun e h => q e { s with heap := h } := by
  unfold onHeap Ends
  dsimp only
  cases x s.heap <;> rfl

theorem runNow_eq (ctx : Context ω) (v : Value) (s : State ω) :
    runNow ctx v s = onHeap (Machine.run ctx.symbols ctx.steps s.globals.env v)
      { s with
        record := ctx.recorder.run ctx.symbols ctx.steps s.globals.env v s.heap s.record } := by
  unfold runNow onHeap
  dsimp only
  cases Machine.run ctx.symbols ctx.steps s.globals.env v s.heap <;> rfl

theorem ends_runNow {ctx : Context ω} {v : Value} {s : State ω} {p : Value → State ω → Prop}
    {q : Error → State ω → Prop} : Ends (runNow ctx v) s p q ↔
      Ends (Machine.run ctx.symbols ctx.steps s.globals.env v) s.heap
        (fun a h => p a ⟨h, s.globals,
          ctx.recorder.run ctx.symbols ctx.steps s.globals.env v s.heap s.record⟩)
        fun e h => q e ⟨h, s.globals,
          ctx.recorder.run ctx.symbols ctx.steps s.globals.env v s.heap s.record⟩ := by
  unfold Ends
  rw [runNow_eq]
  exact ends_onHeap

def define : Table → Context ω → Symbol → CompileM ω Nat
  | .functions => defineFunction
  | .macros => defineMacro

theorem define_eq (table : Table) (ctx : Context ω) (name : Symbol) (s : State ω) :
    define table ctx name s = .ok (s.globals.defineAt table name).1
      ⟨s.heap, (s.globals.defineAt table name).2, ctx.recorder.event
        (table.defined (ctx.symbols.name name) (s.globals.defineAt table name).1) s.record⟩ := by
  cases table <;> rfl

theorem ends_define {table : Table} {ctx : Context ω} {name : Symbol} {s : State ω}
    {p : Nat → State ω → Prop} {q : Error → State ω → Prop} : Ends (define table ctx name) s p q ↔
      p (s.globals.defineAt table name).1 ⟨s.heap, (s.globals.defineAt table name).2,
        ctx.recorder.event (table.defined (ctx.symbols.name name)
          (s.globals.defineAt table name).1) s.record⟩ := by
  rw [Ends, define_eq]

/-- What an operand on the stack is for: a value of the program, or a list that is put together. -/
inductive Slot where
  | value
  | list

/-- What code leads up to. It ends with nothing on the dump, or in a caller, or in code that goes on
among the same frames with operands on the stack; or it makes the values of a recursive binding, whose
body is entered next; or nothing is known of what it is put in front of. -/
inductive Pending where
  | nothing
  | call
  | join (scopes : List Frame) (operands : List Slot) (rest : Pending)
  | recursion (frame : Frame) (scopes : List Frame) (operands : List Slot) (rest : Pending)
  | given

/-- What code finds when it runs: the lexical frames around it, the operands on the stack, the top one
first, and what it leads up to. -/
structure Shape where
  scopes : List Frame
  operands : List Slot
  due : Pending

/-- What an address operand leads to. -/
inductive Spot where
  | own (place : Place)
  | global (table : Table)

inductive Spot.Loads : Spot → Opcode → Prop where
  | plain {depth index name} : Loads (.own ⟨depth, index, .plain name⟩) .ld
  | rest {depth index name} : Loads (.own ⟨depth, index, .rest name⟩) .ldr
  | global {table} : Loads (.global table) .ld

inductive Spot.Assigns : Spot → Prop where
  | plain {depth index name} : Assigns (.own ⟨depth, index, .plain name⟩)
  | global {table} : Assigns (.global table)

/-- Words that are put in front of code of the second shape, and make code of the first one. -/
inductive Phrase (Code : Shape → Value → Prop) (Address : List Frame → Spot → Value → Prop)
    (Data : Value → Prop) : List Value → Shape → Shape → Prop where
  | nil {sc s ops due} : Phrase Code Address Data [.op .nil] ⟨sc, ops, due⟩ ⟨sc, s :: ops, due⟩
  | ldc {sc ops due v} (data : Data v) :
    Phrase Code Address Data [.op .ldc, v] ⟨sc, ops, due⟩ ⟨sc, .value :: ops, due⟩
  | load {sc ops due u} {spot : Spot} {o : Opcode} (loads : spot.Loads o)
    (value : spot ≠ .global .macros) (place : Address sc spot u) :
    Phrase Code Address Data [.op o, u] ⟨sc, ops, due⟩ ⟨sc, .value :: ops, due⟩
  | st {sc ops due u} {spot : Spot} (assigns : spot.Assigns) (place : Address sc spot u) :
    Phrase Code Address Data [.op .st, u] ⟨sc, .value :: ops, due⟩ ⟨sc, .value :: ops, due⟩
  | cons {sc s ops due} :
    Phrase Code Address Data [.op .cons] ⟨sc, .value :: .list :: ops, due⟩ ⟨sc, s :: ops, due⟩
  | builtin {sc ops due} (b : Builtin) : Phrase Code Address Data [.ident b.symbol]
    ⟨sc, List.replicate b.arity .value ++ ops, due⟩ ⟨sc, .value :: ops, due⟩
  | sel {sc ops due c d} (first : Code ⟨sc, ops, .join sc (.value :: ops) due⟩ c)
    (second : Code ⟨sc, ops, .join sc (.value :: ops) due⟩ d) : Phrase Code Address Data
    [.op .sel, c, d] ⟨sc, .value :: ops, due⟩ ⟨sc, .value :: ops, due⟩
  | ldf {sc frame ops due c} (body : Code ⟨frame :: sc, [], .call⟩ c) :
    Phrase Code Address Data [.op .ldf, c] ⟨sc, ops, due⟩ ⟨sc, .value :: ops, due⟩
  | ap {sc ops due} :
    Phrase Code Address Data [.op .ap] ⟨sc, .value :: .list :: ops, due⟩ ⟨sc, .value :: ops, due⟩
  /-- A closure that is applied at once. -/
  | binding {sc frame ops due c} (body : Code ⟨frame :: sc, [], .call⟩ c) : Phrase Code Address Data
    [.op .ldf, c, .op .ap] ⟨sc, .list :: ops, due⟩ ⟨sc, .value :: ops, due⟩
  | dum {sc frame ops due} : Phrase Code Address Data [.op .dum] ⟨sc, ops, due⟩
    ⟨frame :: sc, ops, .recursion frame sc ops due⟩
  /-- A closure that is entered in the environment that its arguments were made in. -/
  | rap {sc frame ops due c} (body : Code ⟨frame :: sc, [], .call⟩ c) : Phrase Code Address Data
    [.op .ldf, c, .op .rap] ⟨frame :: sc, .list :: ops, .recursion frame sc ops due⟩
    ⟨sc, .value :: ops, due⟩
  /-- A closure that is stored at once. -/
  | definition {sc frame ops due c u} (body : Code ⟨frame :: sc, [], .call⟩ c) {spot : Spot}
    (assigns : spot.Assigns) (place : Address sc spot u) : Phrase Code Address Data
    [.op .ldf, c, .op .st, u] ⟨sc, ops, due⟩ ⟨sc, .value :: ops, due⟩

theorem Phrase.mono {Code Code' : Shape → Value → Prop}
    {Address Address' : List Frame → Spot → Value → Prop} {Data Data' : Value → Prop}
    {words : List Value} {before after : Shape}
    (phrase : Phrase Code Address Data words before after)
    (code : ∀ shape v, Code shape v → Code' shape v)
    (address : ∀ scopes spot v, Address scopes spot v → Address' scopes spot v)
    (data : ∀ v, Data v → Data' v) : Phrase Code' Address' Data' words before after := by
  cases phrase with
  | nil => exact .nil
  | ldc literal => exact .ldc (data _ literal)
  | load loads value place => exact .load loads value (address _ _ _ place)
  | st assigns place => exact .st assigns (address _ _ _ place)
  | cons => exact .cons
  | builtin b => exact .builtin b
  | sel first second => exact .sel (code _ _ first) (code _ _ second)
  | ldf body => exact .ldf (code _ _ body)
  | ap => exact .ap
  | binding body => exact .binding (code _ _ body)
  | dum => exact .dum
  | rap body => exact .rap (code _ _ body)
  | definition body assigns place => exact .definition (code _ _ body) assigns (address _ _ _ place)

inductive Ending : Opcode → Shape → Prop where
  | rtn {sc} : Ending .rtn ⟨sc, [.value], .call⟩
  | join {sc ops due} : Ending .join ⟨sc, ops, .join sc ops due⟩
  | halt : Ending .halt ⟨[], [.value], .nothing⟩

/-- A frame whose slots have a word, with no parameter behind a rest parameter. -/
structure Lawful (frame : Frame) : Prop where
  few : frame.length < 2 ^ 63
  last : frame.RestLast

/-- Lawful frames whose depths have a word. -/
structure Spelled (scopes : List Frame) : Prop where
  depth : scopes.length + 2 < 2 ^ 63
  frames : ∀ frame ∈ scopes, Lawful frame

def callMacro (ctx : Context ω) (slot : Nat) (args : List Value) : CompileM ω Value := do
  let args ← onHeap (Heap.list args)
  let place ← address Globals.macroDepth slot
  let code ← onHeap (Heap.list [.op .ldc, args, .op .ld, place, .op .ap, .op .halt])
  runNow ctx code

/-- What makes a contract one of compiling, with a property of data, one of code of each shape, one
of address operands, and one of slots. -/
structure Takes {W : Type} (C : Contract W (State ω)) (recorder : Recorder ω)
    (P : W → Value → Prop) (Q : W → Shape → Value → Prop)
    (A : W → List Frame → Spot → Value → Prop) (G : W → Table → Nat → Prop) : Prop where
  later : ∀ {w w' v}, C.le w w' → P w v → P w' v
  laterCode : ∀ {w w' shape v}, C.le w w' → Q w shape v → Q w' shape v
  laterSlot : ∀ {w w' table slot}, C.le w w' → G w table slot → G w' table slot
  refuse : ∀ w cause, C.error w (.compile cause)
  nil : ∀ w, P w .nil
  halves : ∀ {w s a}, C.holds w s → P w (.pair a) → P w (s.heap.car a) ∧ P w (s.heap.cdr a)
  event : ∀ {w} {ctx : Context ω}, ctx.recorder = recorder → ∀ e,
    C.Keeps w (fun _ _ => True) (report ctx e)
  slot : ∀ {w s table name slot}, C.holds w s →
    Globals.slotIn? (s.globals.table table) name = some slot → G w table slot
  own : ∀ {w scopes name place}, Spelled scopes → Frame.locate? scopes name = some place →
    C.Keeps w (fun w => A w scopes (.own place)) (address place.depth place.index)
  global : ∀ {w scopes table slot}, Spelled scopes → G w table slot →
    C.Keeps w (fun w => A w scopes (.global table)) (address (scopes.length + table.depth) slot)
  naming : ∀ {w name} {ctx : Context ω} table, ctx.recorder = recorder → Spelled ctx.scopes →
    P w (.ident name) → C.Keeps w (fun w => A w ctx.scopes (.global table))
      (define table ctx name >>= address (ctx.scopes.length + table.depth))
  phrase : ∀ {w words before after k}, Phrase (Q w) (A w) (P w) words before after → Q w after k →
    C.Keeps w (fun w => Q w before) (emit words k)
  ending : ∀ {w o shape}, Ending o shape → C.Keeps w (fun w => Q w shape) (emit [.op o] .nil)
  call : ∀ {w slot args} {ctx : Context ω}, ctx.recorder = recorder → G w .macros slot →
    (∀ v ∈ args, P w v) → C.Keeps w P (callMacro ctx slot args)
  /-- The names that a form had given slots may be taken back. -/
  reset : ∀ {w w' s s' e}, C.holds w s → C.le w w' → C.holds w' s' → C.error w' e →
    ∃ w'', C.le w w'' ∧ C.holds w'' { s' with globals :=
      { s'.globals with functions := s.globals.functions, macros := s.globals.macros } } ∧
    C.error w'' e

namespace Takes

variable {W α : Type} {C : Contract W (State ω)} {recorder : Recorder ω} {P : W → Value → Prop}
  {Q : W → Shape → Value → Prop} {A : W → List Frame → Spot → Value → Prop}
  {G : W → Table → Nat → Prop}

/-- A context that leaves room for that many nested levels. -/
structure Fine (recorder : Recorder ω) (room : Nat) (ctx : Context ω) : Prop where
  recorder : ctx.recorder = recorder
  depth : ctx.scopes.length + room + 2 < 2 ^ 63
  frames : ∀ frame ∈ ctx.scopes, Lawful frame

/-- A part of an expression is compiled to code that leaves its value on the stack for the
continuation. -/
def KeepsPart (C : Contract W (State ω)) (recorder : Recorder ω) (P : W → Value → Prop)
    (Q : W → Shape → Value → Prop) (room : Nat) (part : Part ω) : Prop :=
  ∀ w ctx v k ops due, Fine recorder room ctx → P w v → Q w ⟨ctx.scopes, .value :: ops, due⟩ k →
    C.Keeps w (fun w => Q w ⟨ctx.scopes, ops, due⟩) (part ctx v k)

variable {room : Nat} {part : Part ω} {w w' : W} {ctx : Context ω} {args : List Value} {v k : Value}
  {s : Slot} {ops : List Slot} {due : Pending} {frame : Frame} {p : W → α → Prop}

theorem Fine.within (fine : Fine recorder (room + 1) ctx) (lawful : Lawful frame) :
    Fine recorder room (ctx.within frame) where
  recorder := fine.recorder
  depth := by
    have depth := fine.depth
    simp only [Context.within, List.length_cons]
    omega
  frames := List.forall_mem_cons.mpr ⟨lawful, fine.frames⟩

theorem Fine.mono (fine : Fine recorder (room + 1) ctx) : Fine recorder room ctx :=
  ⟨fine.recorder, Nat.lt_of_succ_lt fine.depth, fine.frames⟩

theorem Fine.spelled (fine : Fine recorder room ctx) : Spelled ctx.scopes :=
  ⟨by have := fine.depth; omega, fine.frames⟩

theorem lt_of_le_size {h : Heap} {n : Nat} (le : n ≤ h.size) : n < 2 ^ 63 := by
  have size := h.size_lt_word
  have word : UInt32.size < 2 ^ 63 := by decide
  omega

theorem lawful_ofParameters {h : Heap} {symbols : SymbolTable} {form : String} {parameters : Value}
    (taken : Frame.ofParameters h symbols form parameters = .ok frame) : Lawful frame :=
  ⟨lt_of_le_size (length_ofParameters_le taken), restLast_ofParameters taken⟩

variable (takes : Takes C recorder P Q A G)

include takes

theorem forall_later {vs : List Value} (le : C.le w w') (known : ∀ v ∈ vs, P w v) :
    ∀ v ∈ vs, P w' v := fun v mem => takes.later le (known v mem)

theorem keeps_fail (form : String) (reason : Malformation) :
    C.Keeps w p (fail form reason : CompileM ω α) := keeps_throw (takes.refuse w _)

theorem keeps_examine {f : Heap → Except CompileError α}
    (value : ∀ s, C.holds w s → ∀ a, f s.heap = .ok a → p w a) :
    C.Keeps w p (examine f : CompileM ω α) := by
  intro s holds
  unfold examine Ends
  dsimp only
  cases found : f s.heap with
  | ok a => exact ⟨w, C.refl w, holds, value s holds a found⟩
  | error cause => exact ⟨w, C.refl w, holds, takes.refuse w cause⟩

omit takes in
theorem keeps_inspect {f : Globals → α} (value : ∀ s, C.holds w s → p w (f s.globals)) :
    C.Keeps w p (inspect f : CompileM ω α) := fun s holds => ⟨w, C.refl w, holds, value s holds⟩

theorem keeps_slot (table : Table) (name : Symbol) :
    C.Keeps w (fun w found => ∀ slot, found = some slot → G w table slot)
      (inspect fun g => Globals.slotIn? (g.table table) name) :=
  keeps_inspect fun _ holds _ found => takes.slot holds found

section Forms

variable (parts : KeepsPart C recorder P Q room part) (fine : Fine recorder room ctx)
  (items : ∀ v ∈ args, P w v)

include parts fine items

/-- The argument list that is put together can become a frame, so it will do for any operand. -/
theorem keeps_arguments (next : Q w ⟨ctx.scopes, s :: ops, due⟩ k) :
    C.Keeps w (fun w => Q w ⟨ctx.scopes, ops, due⟩) (arguments part ctx args k) := by
  have conses : C.Keeps w (fun w code => ∃ s, Q w ⟨ctx.scopes, s :: ops, due⟩ code)
      (args.foldlM (fun code arg => do part ctx arg (← emit [.op .cons] code)) k) := by
    refine keeps_foldlM (p := P) items (fun _ _ => takes.later) ⟨s, next⟩ ?_
    rintro w₁ code arg _ ⟨s, next⟩ known
    refine (takes.phrase .cons next).bind fun w₂ code le pair => ?_
    exact (parts w₂ ctx arg code _ _ fine (takes.later le known) pair).mono
      fun _ _ _ code => ⟨.list, code⟩
  exact conses.bind fun w₁ code _ ⟨s, next⟩ => takes.phrase .nil next

theorem keeps_operands (next : Q w ⟨ctx.scopes, List.replicate args.length .value ++ ops, due⟩ k) :
    C.Keeps w (fun w => Q w ⟨ctx.scopes, ops, due⟩)
      (args.foldlM (fun code arg => part ctx arg code) k) := by
  induction args generalizing w k with
  | nil => exact keeps_pure next
  | cons arg args ih =>
    rw [List.forall_mem_cons] at items
    rw [List.foldlM_cons]
    refine (parts w ctx arg k _ _ fine items.1 next).bind fun w₁ code le code' => ?_
    exact ih (takes.forall_later le items.2) code'

variable (next : Q w ⟨ctx.scopes, .value :: ops, due⟩ k)

include next

theorem keeps_builtin (b : Builtin) :
    C.Keeps w (fun w => Q w ⟨ctx.scopes, ops, due⟩) (builtin part ctx b args k) := by
  unfold builtin
  split
  · exact takes.keeps_fail _ _
  next count =>
    have count : args.length = b.arity := by simpa using count
    refine (takes.phrase (.builtin b) next).bind fun w₁ code le name => ?_
    exact takes.keeps_operands parts fine (takes.forall_later le items) (count ▸ name)

theorem keeps_application (head : P w v) :
    C.Keeps w (fun w => Q w ⟨ctx.scopes, ops, due⟩) (application part ctx v args k) := by
  refine (takes.phrase .ap next).bind fun w₁ code le₁ call => ?_
  refine (parts w₁ ctx v code _ _ fine (takes.later le₁ head) call).bind fun w₂ code le₂ code' => ?_
  exact takes.keeps_arguments parts fine (takes.forall_later le₂ (takes.forall_later le₁ items)) code'

end Forms

section Forms

variable (parts : KeepsPart C recorder P Q room part) (fine : Fine recorder (room + 1) ctx)

include parts fine

theorem keeps_body (lawful : Lawful frame) (expr : P w v) :
    C.Keeps w (fun w => Q w ⟨frame :: ctx.scopes, [], .call⟩) (body part ctx frame v) :=
  (takes.ending .rtn).bind fun w₁ code le last =>
    parts w₁ (ctx.within frame) v code _ _ (fine.within lawful) (takes.later le expr) last

theorem keeps_branch (ops : List Slot) (due : Pending) (expr : P w v) :
    C.Keeps w (fun w => Q w ⟨ctx.scopes, ops, .join ctx.scopes (.value :: ops) due⟩)
      (branch part ctx v) :=
  (takes.ending .join).bind fun w₁ code le last =>
    parts w₁ ctx v code _ _ fine.mono (takes.later le expr) last

variable (items : ∀ v ∈ args, P w v) (next : Q w ⟨ctx.scopes, .value :: ops, due⟩ k)

include items next

theorem keeps_function :
    C.Keeps w (fun w => Q w ⟨ctx.scopes, ops, due⟩) (function part ctx args k) := by
  unfold function
  split
  next parameters expr =>
    simp only [List.forall_mem_cons] at items
    refine (takes.keeps_examine (p := fun _ frame => Lawful frame)
      fun s _ frame taken => lawful_ofParameters taken).bind fun w₁ frame le₁ lawful => ?_
    refine (takes.keeps_body parts fine lawful (takes.later le₁ items.2.1)).bind
      fun w₂ c le₂ code => ?_
    exact takes.phrase (.ldf code) (takes.laterCode le₂ (takes.laterCode le₁ next))
  next => exact takes.keeps_fail _ _

theorem keeps_conditional :
    C.Keeps w (fun w => Q w ⟨ctx.scopes, ops, due⟩) (conditional part ctx args k) := by
  have whole {x y z : Value} (test : P w x) (consequent : P w y) (alternative : P w z) :
      C.Keeps w (fun w => Q w ⟨ctx.scopes, ops, due⟩) (conditional part ctx [x, y, z] k) := by
    refine (takes.keeps_branch parts fine ops due consequent).bind fun w₁ c₁ le₁ first => ?_
    refine (takes.keeps_branch parts fine ops due (takes.later le₁ alternative)).bind
      fun w₂ c₂ le₂ second => ?_
    have next := takes.laterCode le₂ (takes.laterCode le₁ next)
    refine (takes.phrase (.sel (takes.laterCode le₂ first) second) next).bind
      fun w₃ c le₃ choice => ?_
    exact parts w₃ ctx x c _ _ fine.mono
      (takes.later le₃ (takes.later le₂ (takes.later le₁ test))) choice
  rcases args with _ | ⟨test, _ | ⟨consequent, _ | ⟨alternative, _ | ⟨_, _⟩⟩⟩⟩
  · exact takes.keeps_fail _ _
  · exact takes.keeps_fail _ _
  · simp only [List.forall_mem_cons] at items
    exact whole items.1 items.2.1 (takes.nil w)
  · simp only [List.forall_mem_cons] at items
    exact whole items.1 items.2.1 items.2.2.1
  · exact takes.keeps_fail _ _

omit parts fine next in
theorem keeps_bindings (form : String) :
    C.Keeps w (fun w p => Lawful p.1 ∧ (∀ v ∈ p.2.1, P w v) ∧ P w p.2.2)
      (examine (Frame.ofBindings · form args) : CompileM ω _) := by
  refine takes.keeps_examine fun s holds p taken => ?_
  obtain ⟨body, ⟨list, mem, values⟩, le, last⟩ := ofBindings_parts taken
  exact ⟨⟨lt_of_le_size le, last⟩,
    Heap.forall_toList? (fun a => takes.halves holds) (items list mem) values, items _ body⟩

theorem keeps_binding :
    C.Keeps w (fun w => Q w ⟨ctx.scopes, ops, due⟩) (binding part ctx args k) := by
  refine (takes.keeps_bindings items "let").bind fun w₁ p le₁ ⟨lawful, values, expr⟩ => ?_
  refine (takes.keeps_body parts fine lawful expr).bind fun w₂ c le₂ code => ?_
  refine (takes.phrase (.binding code) (takes.laterCode le₂ (takes.laterCode le₁ next))).bind
    fun w₃ c le₃ call => ?_
  exact takes.keeps_arguments parts fine.mono
    (takes.forall_later le₃ (takes.forall_later le₂ values)) call

theorem keeps_recursiveBinding :
    C.Keeps w (fun w => Q w ⟨ctx.scopes, ops, due⟩) (recursiveBinding part ctx args k) := by
  refine (takes.keeps_bindings items "letrec").bind fun w₁ p le₁ ⟨lawful, values, expr⟩ => ?_
  refine (takes.keeps_body parts fine lawful expr).bind fun w₂ c le₂ code => ?_
  -- The values are compiled among the new frame too, and so is the code that follows them.
  refine (takes.phrase (.rap code) (takes.laterCode le₂ (takes.laterCode le₁ next))).bind
    fun w₃ c le₃ call => ?_
  have inner : Fine recorder room (ctx.within p.1) := fine.within lawful
  refine (takes.keeps_arguments parts inner
    (takes.forall_later le₃ (takes.forall_later le₂ values)) call).bind fun w₄ c le₄ code => ?_
  exact takes.phrase .dum code

omit parts fine in
theorem keeps_quotation :
    C.Keeps w (fun w => Q w ⟨ctx.scopes, ops, due⟩) (quotation args k : CompileM ω Value) := by
  unfold quotation
  split
  next literal =>
    simp only [List.forall_mem_cons] at items
    exact takes.phrase (.ldc items.1) next
  next => exact takes.keeps_fail _ _

end Forms

theorem keeps_target (form : String) (known : P w v) :
    C.Keeps w (fun w name => P w (.ident name)) (target ctx form v) := by
  cases v with
  | ident name =>
    unfold target
    dsimp only
    split
    · exact takes.keeps_fail _ _
    · exact keeps_pure known
  | _ => exact takes.keeps_fail _ _

theorem keeps_identifier (fine : Fine recorder room ctx) (name : Symbol)
    (next : Q w ⟨ctx.scopes, .value :: ops, due⟩ k) :
    C.Keeps w (fun w => Q w ⟨ctx.scopes, ops, due⟩) (identifier ctx name k) := by
  have load {w₁ : W} {spot : Spot} {o : Opcode} (loads : spot.Loads o)
      (value : spot ≠ .global .macros) {placed : CompileM ω Value} (le : C.le w w₁)
      (keeps : C.Keeps w₁ (fun w => A w ctx.scopes spot) placed) :
      C.Keeps w₁ (fun w => Q w ⟨ctx.scopes, ops, due⟩) (do emit [.op o, ← placed] k) :=
    keeps.bind fun w₂ u le₁ place =>
      takes.phrase (.load loads value place) (takes.laterCode le₁ (takes.laterCode le next))
  unfold identifier
  split
  next found => exact load .plain nofun (C.refl w) (takes.own fine.spelled found)
  next found => exact load .rest nofun (C.refl w) (takes.own fine.spelled found)
  · refine (takes.keeps_slot .functions name).bind fun w₁ slot le known => ?_
    split
    next slot =>
      have value : Spot.global .functions ≠ .global .macros := nofun
      exact load .global value le (takes.global fine.spelled (known slot rfl))
    · exact keeps_throw (takes.refuse w₁ _)

section Forms

variable (parts : KeepsPart C recorder P Q room part) (fine : Fine recorder (room + 1) ctx)
  (items : ∀ v ∈ args, P w v) (next : Q w ⟨ctx.scopes, .value :: ops, due⟩ k)

include parts fine items next

theorem keeps_assignment :
    C.Keeps w (fun w => Q w ⟨ctx.scopes, ops, due⟩) (assignment part ctx args k) := by
  unfold assignment
  split
  next name expr =>
    simp only [List.forall_mem_cons] at items
    refine (takes.keeps_target "set" items.1).bind fun w₁ name le₁ named => ?_
    have next := takes.laterCode le₁ next
    have known := takes.later le₁ items.2.1
    have finish {spot : Spot} (assigns : spot.Assigns) (w₂ : W) (place : Value)
        (le₂ : C.le w₁ w₂) (placed : A w₂ ctx.scopes spot place) :
        C.Keeps w₂ (fun w => Q w ⟨ctx.scopes, ops, due⟩)
          (do part ctx expr (← emit [.op .st, place] k)) :=
      (takes.phrase (.st assigns placed) (takes.laterCode le₂ next)).bind fun w₃ c le₃ store =>
        parts w₃ ctx expr c _ _ fine.mono (takes.later le₃ (takes.later le₂ known)) store
    split
    · exact (takes.keeps_fail (p := fun w => A w ctx.scopes (.global .functions)) _ _).bind
        (finish .global)
    next found => exact (takes.own fine.spelled found).bind (finish .plain)
    · rw [← bind_assoc]
      exact (takes.naming .functions fine.recorder fine.spelled named).bind (finish .global)
  next => exact takes.keeps_fail _ _

theorem keeps_definition :
    C.Keeps w (fun w => Q w ⟨ctx.scopes, ops, due⟩) (definition part ctx args k) := by
  unfold definition
  split
  next name parameters expr =>
    simp only [List.forall_mem_cons] at items
    refine (takes.keeps_target "defm" items.1).bind fun w₁ name le₁ named => ?_
    refine (takes.keeps_examine (p := fun _ frame => Lawful frame)
      fun s _ frame taken => lawful_ofParameters taken).bind fun w₂ frame le₂ lawful => ?_
    refine (takes.keeps_body parts fine lawful
      (takes.later le₂ (takes.later le₁ items.2.2.1))).bind fun w₃ c le₃ code => ?_
    have named := takes.later le₃ (takes.later le₂ named)
    have next := takes.laterCode le₃ (takes.laterCode le₂ (takes.laterCode le₁ next))
    rw [← bind_assoc]
    refine (takes.naming .macros fine.recorder fine.spelled named).bind fun w₄ u le₄ place => ?_
    exact takes.phrase (.definition (takes.laterCode le₄ code) .global place)
      (takes.laterCode le₄ next)
  next => exact takes.keeps_fail _ _

theorem keeps_expansion (name : Symbol) {slot : Nat} (known : G w .macros slot) :
    C.Keeps w (fun w => Q w ⟨ctx.scopes, ops, due⟩) (expansion part ctx name slot args k) := by
  have work : C.Keeps w (fun w => Q w ⟨ctx.scopes, ops, due⟩) (do
      let result ← callMacro ctx slot args
      report ctx (.expanded (ctx.name name))
      part ctx.expanded result k) := by
    refine (takes.call fine.recorder known items).bind fun w₁ result le₁ shown => ?_
    refine (takes.event fine.recorder _).bind fun w₂ _ le₂ _ => ?_
    exact parts w₂ ctx.expanded result k _ _ ⟨fine.recorder, fine.mono.depth, fine.frames⟩
      (takes.later le₂ shown) (takes.laterCode le₂ (takes.laterCode le₁ next))
  simp only [callMacro, bind_assoc] at work
  unfold expansion
  split
  · exact takes.keeps_fail _ _
  · exact work

theorem keeps_named {name : Symbol} (known : P w (.ident name)) :
    C.Keeps w (fun w => Q w ⟨ctx.scopes, ops, due⟩) (named part ctx name args k) := by
  unfold named
  split
  · exact takes.keeps_function parts fine items next
  · exact takes.keeps_conditional parts fine items next
  · exact takes.keeps_binding parts fine items next
  · exact takes.keeps_recursiveBinding parts fine items next
  · exact takes.keeps_quotation items next
  · exact takes.keeps_assignment parts fine items next
  · exact takes.keeps_definition parts fine items next
  · split
    · exact takes.keeps_arguments parts fine.mono items next
    · split
      · exact takes.keeps_builtin parts fine.mono items next _
      · refine (takes.keeps_slot .macros name).bind fun w₁ found le slot => ?_
        have items := takes.forall_later le items
        have next := takes.laterCode le next
        split
        · exact takes.keeps_expansion parts fine items next name (slot _ rfl)
        · exact takes.keeps_application parts fine.mono items next (takes.later le known)

end Forms

theorem keeps_whole (parts : KeepsPart C recorder P Q room part) :
    KeepsPart C recorder P Q (room + 1) (whole part) := by
  intro w ctx v k ops due fine expr next
  cases v with
  | nil => exact takes.phrase .nil next
  | ident name => exact takes.keeps_identifier fine name next
  | pair a =>
    have opened : C.Keeps w (fun w (p : Value × Option (List Value)) =>
          P w p.1 ∧ ∀ args, p.2 = some args → ∀ v ∈ args, P w v)
        (onHeap (Heap.read fun h => (h.car a, h.toList? (h.cdr a))) : CompileM ω _) := by
      intro s holds
      have halves := takes.halves holds expr
      exact ⟨w, C.refl w, holds, halves.1, fun args found =>
        Heap.forall_toList? (fun a => takes.halves holds) halves.2 found⟩
    refine opened.bind fun w₁ p le known => ?_
    obtain ⟨head, args⟩ := p
    have next := takes.laterCode le next
    cases args with
    | none => exact takes.keeps_fail _ _
    | some args =>
      have items := known.2 args rfl
      cases head with
      | ident name => exact takes.keeps_named parts fine items next known.1
      | pair b => exact takes.keeps_application parts fine.mono items next known.1
      | _ => exact takes.keeps_fail _ _
  | _ => exact takes.phrase (.ldc expr) next

theorem keeps_expression (room : Nat) : KeepsPart C recorder P Q room (expression room) := by
  induction room with
  | zero => exact fun _ _ _ _ _ _ _ _ _ => takes.keeps_fail _ _
  | succ room ih => exact takes.keeps_whole ih

end Takes

end Compile

end SecdLisp
