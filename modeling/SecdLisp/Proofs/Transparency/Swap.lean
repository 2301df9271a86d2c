import SecdLisp.Proofs.Transparency.Besides
import SecdLisp.Proofs.Transparency.Limits

/-!
# One part in place of another

Two forms that differ in one of their parts are compiled side by side: step by step up to that part,
and from there on if the two parts are.
-/

namespace SecdLisp

namespace Compile

variable {ω : Type}

/-- Where the compiler is: an expression, with room for so many nested levels, in its context, in
front of a continuation. -/
structure Point (ω : Type) where
  room : Nat
  context : Context ω
  expr : Value
  rest : Value
  state : State ω

def Point.compile (p : Point ω) : EStateM.Result Error (State ω) Value :=
  expression p.room p.context p.expr p.rest p.state

/-- Carrying out a script leads to one of its parts, counted from zero in the order in which they are
compiled. -/
inductive Script.Arrives (room : Nat) (ctx : Context ω) :
    Script ω → State ω → Nat → Point ω → Prop where
  | part {frame? : Option Frame} {expr k : Value} {next : Value → Script ω} {s : State ω} :
    Arrives room ctx (.part frame? expr k next) s 0 ⟨room, ctx.inside frame?, expr, k, s⟩
  | later {frame? : Option Frame} {expr k code : Value} {next : Value → Script ω} {s s' : State ω}
    {i : Nat} {q : Point ω} (run : Compile.expression room (ctx.inside frame?) expr k s = .ok code s')
    (rest : Arrives room ctx (next code) s' i q) :
    Arrives room ctx (.part frame? expr k next) s (i + 1) q
  | work {α : Type} {x : CompileM ω α} {next : α → Script ω} {s s' : State ω} {a : α} {i : Nat}
    {q : Point ω} (run : x s = .ok a s') (rest : Arrives room ctx (next a) s' i q) :
    Arrives room ctx (.work x next) s i q

/-- A name that is neither that of a special form nor of a builtin: a form with that head is a macro
call or an application. -/
structure Plain (name : Symbol) : Prop where
  special : Special.ofSymbol? name = none
  list : name ≠ .list
  builtin : Builtin.ofSymbol? name = none

/-- Which of the arguments of a special form is evaluated in the scopes of the form or in those of a
function, from how many arguments come before it and after it; and which of the parts it is, in the
order in which they are compiled. Binding forms are a case of their own. -/
inductive Special.Evaluates : (form : Special) → (before after i : Nat) → Prop where
  | test {m : Nat} : Evaluates .conditional 0 m 2
  | consequent {m : Nat} : Evaluates .conditional 1 m 0
  | alternative : Evaluates .conditional 2 0 1
  | functionBody : Evaluates .function 1 0 0
  | assigned : Evaluates .assignment 1 0 0
  | macroBody : Evaluates .definition 2 0 0

/-- Which of the arguments of a form is evaluated, from the head of the form. -/
inductive Evaluated : (head : Value) → (before after i : Nat) → Prop where
  | item {n m : Nat} : Evaluated (.ident .list) n m n
  | operand {n m : Nat} (b : Builtin) : Evaluated (.ident b.symbol) n m n
  | argument {name : Symbol} {n m : Nat} (plain : Plain name) : Evaluated (.ident name) n m (n + 1)
  | applied {a : Addr} {n m : Nat} : Evaluated (.pair a) n m (n + 1)
  | special {name : Symbol} {form : Special} {n m i : Nat}
    (named : Special.ofSymbol? name = some form) (evaluates : form.Evaluates n m i) :
    Evaluated (.ident name) n m i

end Compile

namespace Parallel

open World Compile

variable {ω : Type} {symbols : SymbolTable} {aside : Addr → Prop} {base : Heap} {w w' : World}
  {room : Nat} {ctx ctx' : Context ω} {e e' v v' k k' : Value} {args args' : List Value}
  {frame? frame'? : Option Frame}

structure World.Inner (w : World) (frame? frame'? : Option Frame) : Prop where
  frames : Option.Rel w.Frames frame? frame'?
  lawful : ∀ frame ∈ frame'?, Lawful frame

theorem World.Inner.mono (inner : w.Inner frame? frame'?) (le : w.Within w') :
    w'.Inner frame? frame'? := by
  refine ⟨?_, inner.lawful⟩
  cases inner.frames with
  | none => exact .none
  | some frames => exact .some (World.Frames.mono frames le)

theorem Contexts.inside (contexts : Contexts symbols symbols w ctx ctx')
    (inner : w.Inner frame? frame'?) :
    Contexts symbols symbols w (ctx.inside frame?) (ctx'.inside frame'?) := by
  cases inner.frames with
  | none => exact contexts
  | some frames => exact contexts.within frames

theorem World.Inner.fine {recorder : Recorder ω} (inner : w.Inner frame? frame'?)
    (fine : Takes.Fine recorder (room + 1) ctx') : Takes.Fine recorder room (ctx'.inside frame'?) := by
  cases frame'? with
  | none => exact fine.mono
  | some frame => exact fine.within (inner.lawful frame rfl)

/-- The two scripts come to corresponding code. -/
def Runs (symbols : SymbolTable) (room : Nat) (ctx ctx' : Context ω) (w : World)
    (script script' : Script ω) : Prop :=
  Sim (OnStates symbols symbols) w World.Values (script.run (expression room) ctx)
    (script'.run (expression room) ctx')

section Parts

variable (contexts : Contexts symbols symbols w ctx ctx')

include contexts

end Parts

/-- The scripts are in step up to a part, which is one expression in the first and another in the
second, and what is left behind it comes to corresponding code. -/
inductive Swap (symbols : SymbolTable) (aside : Addr → Prop) (base : Heap) (room : Nat)
    (ctx ctx' : Context ω) (e e' : Value) : World → Nat → Script ω → Script ω → Prop where
  | work {w : World} {i : Nat} {α β : Type} {x : CompileM ω α} {y : CompileM ω β}
    {next : α → Script ω} {next' : β → Script ω} (Q : World → α → β → Prop)
    (sim : Sim (Besides symbols aside base) w Q x y)
    (rest : ∀ w' a b, w.Within w' → Q w' a b →
      Swap symbols aside base room ctx ctx' e e' w' i (next a) (next' b)) :
    Swap symbols aside base room ctx ctx' e e' w i (.work x next) (.work y next')
  | part {w : World} {i : Nat} {frame? frame'? : Option Frame} {v v' k k' : Value}
    {next next' : Value → Script ω} (inner : w.Inner frame? frame'?) (values : w.Values v v')
    (conts : w.Values k k') (rest : ∀ w' c c', w.Within w' → w'.Values c c' →
      Swap symbols aside base room ctx ctx' e e' w' i (next c) (next' c')) :
    Swap symbols aside base room ctx ctx' e e' w (i + 1) (.part frame? v k next)
      (.part frame'? v' k' next')
  | here {w : World} {frame? frame'? : Option Frame} {k k' : Value} {next next' : Value → Script ω}
    (inner : w.Inner frame? frame'?) (conts : w.Values k k')
    (rest : ∀ w' c c', w.Within w' → w'.Values c c' →
      Runs symbols room ctx ctx' w' (next c) (next' c')) :
    Swap symbols aside base room ctx ctx' e e' w 0 (.part frame? e k next)
      (.part frame'? e' k' next')
  /-- The first script leads to no part. -/
  | never {w : World} {i : Nat} {script script' : Script ω}
    (never : ∀ s q, ¬script.Arrives room ctx s i q) :
    Swap symbols aside base room ctx ctx' e e' w i script script'

/-- Unless one of them meets a limit, the outcomes correspond. -/
def Concur (symbols : SymbolTable) (w : World) (r r' : EStateM.Result Error (State ω) Value) : Prop :=
  Limited r ∨ Limited r' ∨ Agree (OnStates symbols symbols) w World.Values r r'

theorem Concur.of_within {r r' : EStateM.Result Error (State ω) Value}
    (concur : Concur symbols w' r r') (le : w.Within w') : Concur symbols w r r' :=
  concur.imp_right (Or.imp_right fun agree => agree.of_within le)

theorem Concur.bind {x y : CompileM ω Value} {f g : Value → CompileM ω Value} {s s' : State ω}
    (concur : Concur symbols w (x s) (y s'))
    (next : ∀ w' c c', w.Within w' → w'.Values c c' →
      Sim (OnStates symbols symbols) w' World.Values (f c) (g c')) :
    Concur symbols w ((x >>= f) s) ((y >>= g) s') := by
  obtain limited | limited | agree := concur
  · exact .inl limited.bind
  · exact .inr (.inl limited.bind)
  · refine .inr (.inr ?_)
    cases run : x s <;> cases run' : y s' <;> rw [run, run'] at agree
    · rw [bind_of_eq_ok run, bind_of_eq_ok run']
      cases agree with
      | ok le states values => exact (next _ _ _ le values _ _ states).of_within le
    · rw [bind_of_eq_error run']
      cases agree with
      | rightFull loose => exact .rightFull loose
    · rw [bind_of_eq_error run]
      cases agree with
      | leftFull loose => exact .leftFull loose
    · rw [bind_of_eq_error run, bind_of_eq_error run']
      cases agree with
      | error le states errors => exact .error le states errors
      | leftFull loose => exact .leftFull loose
      | rightFull loose => exact .rightFull loose

/-- Where work of the first side leads, the work of the second side leads too, unless its heap is
full. -/
theorem Sim.follow {α β : Type} {Q : World → α → β → Prop} {x : CompileM ω α} {y : CompileM ω β}
    {f : α → CompileM ω Value} {g : β → CompileM ω Value} {s s' t : State ω} {a : α}
    (sim : Sim (Besides symbols aside base) w Q x y) (besides : Besides symbols aside base w s s')
    (run : x s = .ok a t)
    (next : ∀ w' b t', w.Within w' → Besides symbols aside base w' t t' → Q w' a b →
      Concur symbols w' (f a t) (g b t')) : Concur symbols w ((x >>= f) s) ((y >>= g) s') := by
  have agree := sim s s' besides
  rw [bind_of_eq_ok run]
  rw [run] at agree
  cases run' : y s' with
  | ok b t' =>
    rw [run'] at agree
    rw [bind_of_eq_ok run']
    cases agree with
    | ok le states values => exact (next _ b t' le states values).of_within le
  | error cause t' =>
    rw [run'] at agree
    rw [bind_of_eq_error run']
    cases agree with
    | rightFull loose => exact .inr (.inl ⟨_, _, rfl, .heap⟩)

/-- Wherever the second side is when the first side is at the point, compiling the expression there
concurs with compiling the one at the point. -/
def Concurs (symbols : SymbolTable) (aside : Addr → Prop) (base : Heap) (recorder : Recorder ω)
    (w : World) (q : Point ω) (v : Value) : Prop :=
  ∀ w₁ ctx k s, w.Within w₁ → Besides symbols aside base w₁ q.state s →
    Contexts symbols symbols w₁ q.context ctx → Takes.Fine recorder q.room ctx →
    w₁.Values q.rest k → Concur symbols w₁ q.compile (expression q.room ctx v k s)

variable {recorder : Recorder ω} {q : Point ω}

theorem Concurs.mono (concurs : Concurs symbols aside base recorder w q v) (le : w.Within w') :
    Concurs symbols aside base recorder w' q v :=
  fun w₁ ctx k s le₁ => concurs w₁ ctx k s (le.trans le₁)

/-- The outcomes correspond if they do for the two parts. -/
theorem Swap.concur {i : Nat} {script script' : Script ω} {s s' : State ω}
    (swap : Swap symbols aside base room ctx ctx' e e' w i script script')
    (arrives : script.Arrives room ctx s i q) (contexts : Contexts symbols symbols w ctx ctx')
    (fine : Takes.Fine recorder (room + 1) ctx') (besides : Besides symbols aside base w s s')
    (parts : Concurs symbols aside base recorder w q e') :
    Concur symbols w (script.run (expression room) ctx s)
      (script'.run (expression room) ctx' s') := by
  -- The first side comes to the part, so none of its work before it fails; that of the second side
  -- can fail for lack of room only.
  induction swap generalizing s s' with
  | work Q sim _ ih =>
    cases arrives with
    | work run rest =>
      refine sim.follow besides run fun w₁ b t' le besides both => ?_
      exact ih w₁ _ b le both rest (contexts.mono le) besides (parts.mono le)
  | part inner values conts _ ih =>
    cases arrives with
    | later run rest =>
      refine Sim.follow (besides_expression (contexts.inside inner) (inner.fine fine) values conts)
        besides run fun w₁ c' t' le besides codes => ?_
      exact ih w₁ _ c' le codes rest (contexts.mono le) besides (parts.mono le)
  | here inner conts rest =>
    cases arrives with
    | part =>
      exact (parts _ _ _ s' (.refl _) besides (contexts.inside inner) (inner.fine fine) conts).bind
        rest
  | never never => exact (never s q arrives).elim

end Parallel

end SecdLisp
