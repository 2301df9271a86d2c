import SecdLisp.Proofs.Compiling

/-!
# The parts of a form

Compiling a form is work of its own between the compilations of its parts. Taken apart in this way,
it is said once and for all in which order the parts are compiled, in which frames, and in front of
what; and that nothing else depends on how a part is compiled.
-/

namespace SecdLisp

namespace Compile

variable {ω : Type}

/-- How a form is compiled. -/
inductive Script (ω : Type) : Type 1 where
  | done (code : Value)
  /-- The form does work of its own. -/
  | work {α : Type} (x : CompileM ω α) (next : α → Script ω)
  /-- A part is compiled in front of a continuation, in a new frame if there is one. -/
  | part (frame? : Option Frame) (expr k : Value) (next : Value → Script ω)
  /-- The form is a macro call. -/
  | call (name : Symbol) (slot : Nat) (args : List Value) (k : Value)

def Context.inside (ctx : Context ω) : Option Frame → Context ω
  | none => ctx
  | some frame => ctx.within frame

namespace Script

def run (part : Part ω) (ctx : Context ω) : Script ω → CompileM ω Value
  | done code => pure code
  | work x next => do (next (← x)).run part ctx
  | .part frame? expr k next => do (next (← part (ctx.inside frame?) expr k)).run part ctx
  | call name slot args k => expansion part ctx name slot args k

def refuse (form : String) (reason : Malformation) : Script ω := work (fail form reason) done

/-- Arguments in their order, each in front of words of its own. -/
def operands (frame? : Option Frame) (words : List Value) (finish : Value → Script ω) :
    List Value → Value → Script ω
  | [], code => finish code
  | arg :: args, code =>
    work (emit words code) fun k => .part frame? arg k (operands frame? words finish args)

def arguments (frame? : Option Frame) (args : List Value) (k : Value)
    (finish : Value → Script ω) : Script ω :=
  operands frame? [.op .cons] (fun code => work (emit [.op .nil] code) finish) args k

def builtin (ctx : Context ω) (b : Builtin) (args : List Value) (k : Value) : Script ω :=
  if args.length != b.arity then
    refuse (ctx.name b.symbol) (.argumentCount b.arity args.length)
  else
    work (emit [.ident b.symbol] k) (operands none [] done args)

def application (head : Value) (args : List Value) (k : Value) : Script ω :=
  work (emit [.op .ap] k) fun k =>
    .part none head k fun code => arguments none args code done

def body (frame : Frame) (expr : Value) (next : Value → Script ω) : Script ω :=
  work (emit [.op .rtn] .nil) fun k => .part (some frame) expr k next

def function (ctx : Context ω) (args : List Value) (k : Value) : Script ω :=
  match args with
  | [parameters, expr] =>
    work (examine (Frame.ofParameters · ctx.symbols "fn" parameters)) fun frame =>
      body frame expr fun code => work (emit [.op .ldf, code] k) done
  | _ => refuse "fn" .functionShape

def branch (expr : Value) (next : Value → Script ω) : Script ω :=
  work (emit [.op .join] .nil) fun k => .part none expr k next

def branches (test consequent alternative k : Value) : Script ω :=
  branch consequent fun c => branch alternative fun d =>
    work (emit [.op .sel, c, d] k) fun k => .part none test k done

def conditional (args : List Value) (k : Value) : Script ω :=
  match args with
  | [test, consequent] => branches test consequent .nil k
  | [test, consequent, alternative] => branches test consequent alternative k
  | _ => refuse "if" .conditionalShape

/-- An expression in a new frame that is entered with values, which are compiled in that frame too if
it is recursive. -/
def scope (o : Opcode) (inner? : Option Frame) (finish : Value → Script ω) (frame : Frame)
    (values : List Value) (expr k : Value) : Script ω :=
  body frame expr fun code =>
    work (emit [.op .ldf, code, .op o] k) fun k => arguments inner? values k finish

/-- A form that binds names to values for its body. -/
def bindings (form : String) (o : Opcode) (inner : Frame → Option Frame)
    (finish : Value → Script ω) (args : List Value) (k : Value) : Script ω :=
  work (examine (Frame.ofBindings · form args)) fun (frame, values, expr) =>
    scope o (inner frame) finish frame values expr k

def binding (args : List Value) (k : Value) : Script ω :=
  bindings "let" .ap (fun _ => none) done args k

def recursiveBinding (args : List Value) (k : Value) : Script ω :=
  bindings "letrec" .rap some (fun code => work (emit [.op .dum] code) done) args k

/-- The address that an assignment stores at. A new name is given a slot. -/
def place (ctx : Context ω) (name : Symbol) : CompileM ω Value :=
  match ctx.locate? name with
  | some ⟨_, _, .rest _⟩ => fail "set" (.restAssignment (ctx.name name))
  | some ⟨depth, index, .plain _⟩ => address depth index
  | none => do address (ctx.globalDepth Globals.functionDepth) (← defineFunction ctx name)

def assignment (ctx : Context ω) (args : List Value) (k : Value) : Script ω :=
  match args with
  | [name, expr] =>
    work (target ctx "set" name) fun name => work (place ctx name) fun place =>
      work (emit [.op .st, place] k) fun k => .part none expr k done
  | _ => refuse "set" .assignmentShape

def definition (ctx : Context ω) (args : List Value) (k : Value) : Script ω :=
  match args with
  | [name, parameters, expr] =>
    work (target ctx "defm" name) fun name =>
      work (examine (Frame.ofParameters · ctx.symbols "defm" parameters)) fun frame =>
        body frame expr fun code => work (defineMacro ctx name) fun slot =>
          work (address (ctx.globalDepth Globals.macroDepth) slot) fun place =>
            work (emit [.op .ldf, code, .op .st, place] k) done
  | _ => refuse "defm" .definitionShape

def special (ctx : Context ω) (args : List Value) (k : Value) : Special → Script ω
  | .function => function ctx args k
  | .conditional => conditional args k
  | .binding => binding args k
  | .recursiveBinding => recursiveBinding args k
  | .quotation => work (quotation args k) done
  | .assignment => assignment ctx args k
  | .definition => definition ctx args k

/-- A form whose head is a name that is neither reserved nor that of a builtin. -/
def applied (ctx : Context ω) (name : Symbol) (args : List Value) (k : Value) : Script ω :=
  work (inspect (·.macroSlot? name)) fun slot? =>
    match ctx.locate? name, slot? with
    | none, some slot => call name slot args k
    | _, _ => application (.ident name) args k

def named (ctx : Context ω) (name : Symbol) (args : List Value) (k : Value) : Script ω :=
  match Special.ofSymbol? name with
  | some form => special ctx args k form
  | none =>
    if name = .list then arguments none args k done
    else
      match Builtin.ofSymbol? name with
      | some b => builtin ctx b args k
      | none => applied ctx name args k

/-- A form, from its head and its other elements. -/
def compound (ctx : Context ω) (head : Value) (args : List Value) (k : Value) : Script ω :=
  match head with
  | .ident name => named ctx name args k
  | .pair b => application (.pair b) args k
  | head => refuse "application" (.notCallable head.kind)

def expression (ctx : Context ω) (expr k : Value) : Script ω :=
  match expr with
  | .nil => work (emit [.op .nil] k) done
  | .ident name => work (identifier ctx name k) done
  | .pair a =>
    work (onHeap (Heap.read fun h => (h.car a, h.toList? (h.cdr a)))) fun (head, args?) =>
      match args? with
      | none => refuse "application" .improperArguments
      | some args => compound ctx head args k
  | literal => work (emit [.op .ldc, literal] k) done

section Run

variable {part : Part ω} {ctx : Context ω} {args : List Value} {v k : Value}

theorem run_done (code : Value) : (done code : Script ω).run part ctx = pure code := rfl

theorem run_work {α : Type} (x : CompileM ω α) (next : α → Script ω) :
    (work x next).run part ctx = x >>= fun a => (next a).run part ctx := rfl

theorem run_part (frame? : Option Frame) (expr k : Value) (next : Value → Script ω) :
    (Script.part frame? expr k next).run part ctx =
      part (ctx.inside frame?) expr k >>= fun code => (next code).run part ctx := rfl

theorem run_refuse (form : String) (reason : Malformation) :
    (refuse form reason).run part ctx = fail form reason := bind_pure _

theorem run_operands (frame? : Option Frame) (words : List Value) (finish : Value → Script ω) :
    (operands frame? words finish args k).run part ctx =
      args.foldlM (fun code arg => do part (ctx.inside frame?) arg (← emit words code)) k >>=
        fun code => (finish code).run part ctx := by
  induction args generalizing k with
  | nil => rfl
  | cons arg args ih =>
    rw [operands, List.foldlM_cons, run_work, bind_assoc, bind_assoc]
    congr 1
    funext k
    rw [run_part]
    congr 1
    funext code
    exact ih

theorem run_arguments (frame? : Option Frame) (finish : Value → Script ω) :
    (arguments frame? args k finish).run part ctx =
      Compile.arguments part (ctx.inside frame?) args k >>= fun code => (finish code).run part ctx := by
  rw [arguments, run_operands, Compile.arguments, bind_assoc]
  rfl

theorem run_arguments_done (frame? : Option Frame) :
    (arguments frame? args k done).run part ctx =
      Compile.arguments part (ctx.inside frame?) args k := by
  rw [run_arguments]
  exact bind_pure _

theorem run_body (frame : Frame) (next : Value → Script ω) :
    (body frame v next).run part ctx =
      Compile.body part ctx frame v >>= fun code => (next code).run part ctx := by
  rw [Compile.body, bind_assoc]
  rfl

theorem run_branch (next : Value → Script ω) :
    (branch v next).run part ctx =
      Compile.branch part ctx v >>= fun code => (next code).run part ctx := by
  rw [Compile.branch, bind_assoc]
  rfl

theorem run_builtin (b : Builtin) :
    (builtin ctx b args k).run part ctx = Compile.builtin part ctx b args k := by
  unfold builtin Compile.builtin
  split
  · exact run_refuse _ _
  · rw [run_work]
    congr 1
    funext code
    rw [run_operands]
    exact bind_pure _

theorem run_application (head : Value) :
    (application head args k).run part ctx = Compile.application part ctx head args k := by
  unfold application Compile.application
  simp only [run_work, run_part, run_arguments_done]
  rfl

theorem run_function :
    (function ctx args k).run part ctx = Compile.function part ctx args k := by
  unfold function Compile.function
  rcases args with _ | ⟨parameters, _ | ⟨expr, _ | ⟨_, _⟩⟩⟩
  · exact run_refuse _ _
  · exact run_refuse _ _
  · simp only [run_work, run_body, run_done, bind_pure]
  · exact run_refuse _ _

theorem run_branches (test consequent alternative : Value) :
    (branches test consequent alternative k).run part ctx = (do
      let consequent ← Compile.branch part ctx consequent
      let alternative ← Compile.branch part ctx alternative
      part ctx test (← emit [.op .sel, consequent, alternative] k)) := by
  unfold branches
  simp only [run_branch, run_work, run_part, run_done, bind_pure]
  rfl

theorem run_conditional :
    (conditional args k).run part ctx = Compile.conditional part ctx args k := by
  unfold conditional Compile.conditional
  rcases args with _ | ⟨test, _ | ⟨consequent, _ | ⟨alternative, _ | ⟨_, _⟩⟩⟩⟩
  · exact run_refuse _ _
  · exact run_refuse _ _
  · exact run_branches _ _ _
  · exact run_branches _ _ _
  · exact run_refuse _ _

theorem run_binding :
    (binding args k).run part ctx = Compile.binding part ctx args k := by
  unfold binding bindings Compile.binding
  simp only [run_work, scope, run_body, run_arguments_done]
  rfl

theorem run_recursiveBinding :
    (recursiveBinding args k).run part ctx = Compile.recursiveBinding part ctx args k := by
  unfold recursiveBinding bindings Compile.recursiveBinding
  simp only [run_work, scope, run_body, run_arguments, run_done, bind_pure]
  rfl

theorem run_assignment :
    (assignment ctx args k).run part ctx = Compile.assignment part ctx args k := by
  unfold assignment Compile.assignment
  rcases args with _ | ⟨name, _ | ⟨expr, _ | ⟨_, _⟩⟩⟩
  · exact run_refuse _ _
  · exact run_refuse _ _
  · dsimp only
    simp only [run_work, run_part, run_done, bind_pure, place]
    congr 1
    funext name
    rcases ctx.locate? name with _ | ⟨depth, index, _ | _⟩
    · exact bind_assoc _ _ _
    · rfl
    · rfl
  · exact run_refuse _ _

theorem run_definition :
    (definition ctx args k).run part ctx = Compile.definition part ctx args k := by
  unfold definition Compile.definition
  rcases args with _ | ⟨name, _ | ⟨parameters, _ | ⟨expr, _ | ⟨_, _⟩⟩⟩⟩
  · exact run_refuse _ _
  · exact run_refuse _ _
  · exact run_refuse _ _
  · simp only [run_work, run_body, run_done, bind_pure]
  · exact run_refuse _ _

theorem run_special (form : Special) :
    (special ctx args k form).run part ctx = match form with
      | .function => Compile.function part ctx args k
      | .conditional => Compile.conditional part ctx args k
      | .binding => Compile.binding part ctx args k
      | .recursiveBinding => Compile.recursiveBinding part ctx args k
      | .quotation => quotation args k
      | .assignment => Compile.assignment part ctx args k
      | .definition => Compile.definition part ctx args k := by
  cases form with
  | function => exact run_function
  | conditional => exact run_conditional
  | binding => exact run_binding
  | recursiveBinding => exact run_recursiveBinding
  | quotation => exact bind_pure _
  | assignment => exact run_assignment
  | definition => exact run_definition

theorem run_applied (name : Symbol) :
    (applied ctx name args k).run part ctx = (do
      match ctx.locate? name, ← inspect (·.macroSlot? name) with
      | none, some slot => expansion part ctx name slot args k
      | _, _ => Compile.application part ctx (.ident name) args k) := by
  unfold applied
  rw [run_work]
  congr 1
  funext slot?
  split
  · rfl
  · exact run_application _

theorem run_named (name : Symbol) :
    (named ctx name args k).run part ctx = Compile.named part ctx name args k := by
  unfold named Compile.named
  cases Special.ofSymbol? name with
  | some form =>
    dsimp only
    rw [run_special]
    cases form <;> rfl
  | none =>
    dsimp only
    by_cases list : name = .list
    · rw [if_pos list, if_pos list]
      exact run_arguments_done none
    · rw [if_neg list, if_neg list]
      cases Builtin.ofSymbol? name with
      | some b => exact run_builtin b
      | none => exact run_applied name

/-- An expression is compiled as its script says. -/
theorem run_expression :
    (expression ctx v k).run part ctx = whole part ctx v k := by
  unfold expression whole
  cases v with
  | pair a =>
    dsimp only
    rw [run_work]
    congr 1
    funext p
    obtain ⟨head, args⟩ := p
    cases args with
    | none => exact run_refuse _ _
    | some args =>
      cases head with
      | ident name => exact run_named name
      | pair b => exact run_application _
      | _ => exact run_refuse _ _
  | _ => exact bind_pure _

end Run

end Script

end Compile

end SecdLisp
