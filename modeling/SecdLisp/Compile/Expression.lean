import SecdLisp.Compile.Context

/-!
# Compiling expressions

Each special form has a code shape, given with its function below. Arguments are compiled so
that the last one runs first; a builtin then finds its first operand on top of the stack. Macro
calls are expanded by running the macro on its argument list and compiling what it returns.
-/

namespace SecdLisp

namespace Compile

variable {ω : Type}

/-- How a part of an expression is compiled: in its context, in front of a continuation. -/
abbrev Part (ω : Type) := Context ω → Value → Value → CompileM ω Value

inductive Special where
  | function
  | conditional
  | binding
  | recursiveBinding
  | quotation
  | assignment
  | definition
  deriving DecidableEq, Repr

/-- The special form that a well-known name stands for; functions have two names. -/
def Special.ofSymbol? : Symbol → Option Special
  | 0 | 1 => some .function
  | 2 => some .conditional
  | 3 => some .binding
  | 4 => some .recursiveBinding
  | 5 => some .quotation
  | 6 => some .assignment
  | 7 => some .definition
  | _ => none

/-- An argument list: `NIL aₙ CONS … a₁ CONS`. -/
def arguments (part : Part ω) (ctx : Context ω) (args : List Value) (k : Value) :
    CompileM ω Value := do
  let code ← args.foldlM (fun code arg => do
    part ctx arg (← emit [.op .cons] code)) k
  emit [.op .nil] code

/-- A builtin: `aₙ … a₁ name`. -/
def builtin (part : Part ω) (ctx : Context ω) (b : Builtin) (args : List Value) (k : Value) :
    CompileM ω Value := do
  if args.length != b.arity then
    fail (ctx.name b.symbol) (.argumentCount b.arity args.length)
  let code ← emit [.ident b.symbol] k
  args.foldlM (fun code arg => part ctx arg code) code

/-- An application: the argument list, the operator, `AP`. -/
def application (part : Part ω) (ctx : Context ω) (head : Value) (args : List Value)
    (k : Value) : CompileM ω Value := do
  let code ← part ctx head (← emit [.op .ap] k)
  arguments part ctx args code

/-- The body of a closure: the code of the expression in a new frame, then `RTN`. -/
def body (part : Part ω) (ctx : Context ω) (frame : Frame) (expr : Value) :
    CompileM ω Value := do
  part (ctx.within frame) expr (← emit [.op .rtn] .nil)

/-- `(fn params body)` is `LDF (body RTN)`. -/
def function (part : Part ω) (ctx : Context ω) (args : List Value) (k : Value) :
    CompileM ω Value := do
  match args with
  | [parameters, expr] =>
    let frame ← examine (Frame.ofParameters · ctx.symbols "fn" parameters)
    emit [.op .ldf, ← body part ctx frame expr] k
  | _ => fail "fn" .functionShape

/-- One branch of a conditional: its code, then `JOIN`. -/
def branch (part : Part ω) (ctx : Context ω) (expr : Value) : CompileM ω Value := do
  part ctx expr (← emit [.op .join] .nil)

/-- `(if test then else)` is the test, then `SEL (then JOIN) (else JOIN)`. -/
def conditional (part : Part ω) (ctx : Context ω) (args : List Value) (k : Value) :
    CompileM ω Value := do
  let (test, consequent, alternative) ← match args with
    | [test, consequent] => pure (test, consequent, .nil)
    | [test, consequent, alternative] => pure (test, consequent, alternative)
    | _ => fail "if" .conditionalShape
  let consequent ← branch part ctx consequent
  let alternative ← branch part ctx alternative
  part ctx test (← emit [.op .sel, consequent, alternative] k)

/-- `(let (names) (values) body)` is the values, then `LDF (body RTN) AP`. -/
def binding (part : Part ω) (ctx : Context ω) (args : List Value) (k : Value) :
    CompileM ω Value := do
  let (frame, values, expr) ← examine (Frame.ofBindings · "let" args)
  let code ← body part ctx frame expr
  arguments part ctx values (← emit [.op .ldf, code, .op .ap] k)

/-- `(letrec (names) (values) body)` is `DUM`, the values inside the new frame, then
`LDF (body RTN) RAP`. -/
def recursiveBinding (part : Part ω) (ctx : Context ω) (args : List Value) (k : Value) :
    CompileM ω Value := do
  let (frame, values, expr) ← examine (Frame.ofBindings · "letrec" args)
  let code ← body part ctx frame expr
  let k ← emit [.op .ldf, code, .op .rap] k
  emit [.op .dum] (← arguments part (ctx.within frame) values k)

/-- `(quote x)` is `LDC x`. -/
def quotation (args : List Value) (k : Value) : CompileM ω Value :=
  match args with
  | [literal] => emit [.op .ldc, literal] k
  | _ => fail "quote" .quoteShape

def target (ctx : Context ω) (form : String) : Value → CompileM ω Symbol
  | .ident name =>
    if name.isReserved then fail form (.reservedTarget (ctx.name name)) else pure name
  | v => fail form (.targetNotName v.kind)

/-- `(set name value)` is the value, then `ST address`. A name that is not local is a global and
gets its slot before the value is compiled, so that the value can refer to it. A rest parameter
has no slot that holds its whole value, so it cannot be assigned. -/
def assignment (part : Part ω) (ctx : Context ω) (args : List Value) (k : Value) :
    CompileM ω Value := do
  match args with
  | [name, expr] =>
    let name ← target ctx "set" name
    let place ← match ctx.locate? name with
      | some ⟨_, _, .rest _⟩ => fail "set" (.restAssignment (ctx.name name))
      | some ⟨depth, index, .plain _⟩ => address depth index
      | none => address (ctx.globalDepth Globals.functionDepth) (← defineFunction ctx name)
    part ctx expr (← emit [.op .st, place] k)
  | _ => fail "set" .assignmentShape

/-- `(defm name params body)` is `LDF (body RTN) ST address`. The name becomes a macro only
after its body is compiled, so calls in the body do not expand. -/
def definition (part : Part ω) (ctx : Context ω) (args : List Value) (k : Value) :
    CompileM ω Value := do
  match args with
  | [name, parameters, expr] =>
    let name ← target ctx "defm" name
    let frame ← examine (Frame.ofParameters · ctx.symbols "defm" parameters)
    let code ← body part ctx frame expr
    let slot ← defineMacro ctx name
    let place ← address (ctx.globalDepth Globals.macroDepth) slot
    emit [.op .ldf, code, .op .st, place] k
  | _ => fail "defm" .definitionShape

/-- A macro call. The macro is applied to the unevaluated arguments in the global environment,
whatever the lexical frames are, and the result is compiled in place of the call. -/
def expansion (part : Part ω) (ctx : Context ω) (name : Symbol) (slot : Nat)
    (args : List Value) (k : Value) : CompileM ω Value := do
  if maxExpansions ≤ ctx.expansions then fail (ctx.name name) .expansionTooDeep
  let args ← onHeap (Heap.list args)
  let place ← address Globals.macroDepth slot
  let code ← onHeap (Heap.list [.op .ldc, args, .op .ld, place, .op .ap, .op .halt])
  let result ← runNow ctx code
  report ctx (.expanded (ctx.name name))
  part ctx.expanded result k

/-- A form whose head is a name. Special forms, `list` and builtins come before macros, and a
local name hides a macro. -/
def named (part : Part ω) (ctx : Context ω) (name : Symbol) (args : List Value) (k : Value) :
    CompileM ω Value := do
  match Special.ofSymbol? name with
  | some .function => function part ctx args k
  | some .conditional => conditional part ctx args k
  | some .binding => binding part ctx args k
  | some .recursiveBinding => recursiveBinding part ctx args k
  | some .quotation => quotation args k
  | some .assignment => assignment part ctx args k
  | some .definition => definition part ctx args k
  | none =>
    if name = .list then arguments part ctx args k
    else
      match Builtin.ofSymbol? name with
      | some b => builtin part ctx b args k
      | none =>
        match ctx.locate? name, ← inspect (·.macroSlot? name) with
        | none, some slot => expansion part ctx name slot args k
        | _, _ => application part ctx (.ident name) args k

/-- An identifier: `LD address`, or `LDR address` for a rest parameter. -/
def identifier (ctx : Context ω) (name : Symbol) (k : Value) : CompileM ω Value := do
  match ctx.locate? name with
  | some ⟨depth, index, .plain _⟩ => emit [.op .ld, ← address depth index] k
  | some ⟨depth, index, .rest _⟩ => emit [.op .ldr, ← address depth index] k
  | none =>
    match ← inspect (·.functionSlot? name) with
    | some slot =>
      emit [.op .ld, ← address (ctx.globalDepth Globals.functionDepth) slot] k
    | none => throw (.compile (.unknownIdentifier (ctx.name name)))

/-- An expression whose parts are compiled by `part`. -/
def whole (part : Part ω) : Part ω := fun ctx expr k => do
  match expr with
  | .nil => emit [.op .nil] k
  | .ident name => identifier ctx name k
  | .pair a =>
    match ← onHeap (Heap.read fun h => (h.car a, h.toList? (h.cdr a))) with
    | (_, none) => fail "application" .improperArguments
    | (.ident name, some args) => named part ctx name args k
    | (.pair b, some args) => application part ctx (.pair b) args k
    | (head, some _) => fail "application" (.notCallable head.kind)
  | literal => emit [.op .ldc, literal] k

def expression : (room : Nat) → Part ω
  | 0 => fun _ _ _ => fail "expression" .nestedTooDeeply
  | room + 1 => whole (expression room)

def program (recorder : Recorder ω) (symbols : SymbolTable) (steps : Nat) (expr : Value) :
    CompileM ω Value := do
  expression maxNesting ⟨symbols, steps, recorder, [], 0⟩ expr (← emit [.op .halt] .nil)

/-- Compile a top-level form. If that fails, the tables of names are cut to the lengths that they
had: the names that the form gave slots lose them again, since no code refers to them. -/
def toplevel (recorder : Recorder ω) (symbols : SymbolTable) (steps : Nat) (expr : Value) :
    CompileM ω Value := fun s =>
  let ⟨_, functions, macros⟩ := s.globals
  match program recorder symbols steps expr s with
  | .ok code s => .ok code s
  | .error e s =>
    .error e { s with globals := s.globals.truncate functions.length macros.length }

end Compile

end SecdLisp
