import SecdLisp.Builtin
import SecdLisp.Compile.Formals
import SecdLisp.Globals

/-!
# What expressions mean

An evaluator for the language without macros. It works on expressions, not on code: frames are
mutable lists of slots that have names, closures are opaque, and every pair and closure has an
identity. It has no result where a program takes a closure apart, applies what is no closure, or
fails, and none if it is not given enough fuel.
-/

namespace SecdLisp

namespace Reference

/-- What an expression evaluates to. Pairs and closures are objects, and known by number. -/
inductive Datum where
  | nil
  | truth
  | int (n : Int64)
  | ident (name : Symbol)
  | op (code : Opcode)
  | object (id : Nat)
  deriving DecidableEq, Repr, Inhabited

def Datum.ofBool : Bool → Datum
  | true => truth
  | false => nil

inductive Expr where
  | nil
  | quote (d : Datum)
  | ident (name : Symbol)
  | cond (test consequent alternative : Expr)
  | function (params : Frame) (body : Expr)
  | bind (params : Frame) (values : List Expr) (body : Expr)
  | recursive (params : Frame) (values : List Expr) (body : Expr)
  | assign (name : Symbol) (value : Expr)
  | list (args : List Expr)
  | builtin (b : Builtin) (args : List Expr)
  | apply (operator : Expr) (args : List Expr)
  deriving Inhabited

/-- The frames around an expression, innermost first, each by its parameters and its number. -/
abbrev Locals := List (Frame × Nat)

inductive Object where
  | pair (car cdr : Datum)
  | closure (params : Frame) (body : Expr) (locals : Locals)
  deriving Inhabited

/-- The contents of a frame: the values of its plain parameters, and that of its rest parameter,
which is nil where it has none. -/
structure Slots where
  values : List Datum
  rest : Datum
  deriving DecidableEq, Repr, Inhabited

structure Store where
  objects : List Object
  frames : List Slots
  deriving Inhabited

def Store.addObject (σ : Store) (o : Object) : Store := { σ with objects := σ.objects ++ [o] }

def Store.addFrame (σ : Store) (slots : Slots) : Store := { σ with frames := σ.frames ++ [slots] }

def Store.setFrame (σ : Store) (f : Nat) (slots : Slots) : Store :=
  { σ with frames := σ.frames.set f slots }

/-- Evaluation changes the store, and may have no result. -/
abbrev EvalM := StateT Store Option

/-- Where an expression is evaluated. The global names have their slots in one frame. -/
structure Env where
  locals : Locals
  table : List Symbol
  globals : Nat
  deriving DecidableEq, Repr, Inhabited

namespace Env

def within (env : Env) (params : Frame) (frame : Nat) : Env :=
  { env with locals := (params, frame) :: env.locals }

end Env

/-- Where a name is bound: the number of a frame, a slot, counting from one, and the parameter. -/
structure Binding where
  frame : Nat
  index : Nat
  formal : Formal
  deriving DecidableEq, Repr, Inhabited

def Locals.find? : Locals → Symbol → Option Binding
  | [], _ => none
  | (params, frame) :: locals, name =>
    match params.find? name with
    | some (index, formal) => some ⟨frame, index, formal⟩
    | none => find? locals name

/-- A name that is not local is global. -/
def Env.find? (env : Env) (name : Symbol) : Option Binding :=
  match Locals.find? env.locals name with
  | some b => some b
  | none => (Globals.slotIn? env.table name).map fun slot => ⟨env.globals, slot, .plain name⟩

namespace Slots

def empty : Slots := ⟨[], .nil⟩

def get? (slots : Slots) (index : Nat) : Option Datum := slots.values[index - 1]?

/-- The rest of a frame is only there once all slots before it are. -/
def rest? (slots : Slots) (index : Nat) : Option Datum :=
  if slots.values.length = index - 1 then some slots.rest else none

/-- Set a slot. A frame that is too short grows by slots of nil. -/
def set? (slots : Slots) (index : Nat) (d : Datum) : Option Slots :=
  if index ≤ slots.values.length then some { slots with values := slots.values.set (index - 1) d }
  else if slots.rest = .nil then
    let missing := index - 1 - slots.values.length
    some { slots with values := slots.values ++ List.replicate missing .nil ++ [d] }
  else none

end Slots

namespace EvalM

variable {α β : Type}

def undefined : EvalM α := fun _ => none

def ofOption : Option α → EvalM α
  | some a => pure a
  | none => undefined

def create (o : Object) : EvalM Datum := fun σ =>
  some (.object σ.objects.length, σ.addObject o)

def object (id : Nat) : EvalM Object := fun σ => σ.objects[id]?.map fun o => (o, σ)

def newFrame (slots : Slots) : EvalM Nat := fun σ =>
  some (σ.frames.length, σ.addFrame slots)

def frame (f : Nat) : EvalM Slots := fun σ => σ.frames[f]?.map fun slots => (slots, σ)

def setFrame (f : Nat) (slots : Slots) : EvalM Unit := fun σ =>
  some ((), σ.setFrame f slots)

theorem bind_eq_some {x : EvalM α} {f : α → EvalM β} {σ : Store} {r : β × Store} :
    (x >>= f) σ = some r ↔ ∃ a σ₁, x σ = some (a, σ₁) ∧ f a σ₁ = some r := by
  simp [bind, StateT.bind, Option.bind_eq_some_iff]

theorem pure_eq_some {a : α} {σ : Store} {r : α × Store} :
    (pure a : EvalM α) σ = some r ↔ r = (a, σ) := by
  show some (a, σ) = some r ↔ r = (a, σ)
  rw [Option.some.injEq]
  exact eq_comm

theorem object_eq_some {id : Nat} {σ : Store} {r : Object × Store} :
    object id σ = some r ↔ ∃ o, σ.objects[id]? = some o ∧ r = (o, σ) := by
  rw [object, Option.map_eq_some_iff]
  exact exists_congr fun o => and_congr_right fun _ => eq_comm

theorem newFrame_eq_some {slots : Slots} {σ : Store} {r : Nat × Store} :
    newFrame slots σ = some r ↔ r = (σ.frames.length, σ.addFrame slots) := by
  rw [newFrame, Option.some.injEq]
  exact eq_comm

theorem frame_eq_some {f : Nat} {σ : Store} {r : Slots × Store} :
    frame f σ = some r ↔ ∃ slots, σ.frames[f]? = some slots ∧ r = (slots, σ) := by
  rw [frame, Option.map_eq_some_iff]
  exact exists_congr fun slots => and_congr_right fun _ => eq_comm

theorem ofOption_eq_some {x : Option α} {σ : Store} {r : α × Store} :
    ofOption x σ = some r ↔ ∃ a, x = some a ∧ r = (a, σ) := by
  cases x with
  | none => simp [ofOption, undefined]
  | some a => simp [ofOption, pure_eq_some]

end EvalM

open EvalM

/-- A proper list of new pairs. -/
def makeList : List Datum → EvalM Datum
  | [] => pure .nil
  | d :: ds => do create (.pair d (← makeList ds))

def isRest : Formal → Bool
  | .plain _ => false
  | .rest _ => true

/-- The contents of a frame that is made for arguments. A rest parameter takes those from its
slot on as a list. -/
def bindArguments (params : Frame) (args : List Datum) : EvalM Slots :=
  match params.findIdx? isRest with
  | none => pure ⟨args, .nil⟩
  | some before => do return ⟨args.take before, ← makeList (args.drop before)⟩

def lookup (env : Env) (name : Symbol) : EvalM Datum := do
  let b ← ofOption (env.find? name)
  let slots ← frame b.frame
  match b.formal with
  | .plain _ => ofOption (slots.get? b.index)
  | .rest _ => ofOption (slots.rest? b.index)

def assign (env : Env) (name : Symbol) (d : Datum) : EvalM Unit := do
  let b ← ofOption (env.find? name)
  match b.formal with
  | .plain _ => setFrame b.frame (← ofOption ((← frame b.frame).set? b.index d))
  | .rest _ => undefined

/-- An integer, if it fits the 64-bit word. -/
def integer (n : Int) : EvalM Datum := ofOption ((word? n).map .int)

def integers : Datum → Datum → EvalM (Int64 × Int64)
  | .int m, .int n => pure (m, n)
  | _, _ => undefined

def arithmetic (f : Int → Int → Int) (x y : Datum) : EvalM Datum := do
  let (m, n) ← integers x y
  integer (f m.toInt n.toInt)

def quotient (x y : Datum) : EvalM Datum := do
  let (m, n) ← integers x y
  if n = 0 then undefined else integer (m.toInt.tdiv n.toInt)

def comparison (f : Int → Int → Bool) (x y : Datum) : EvalM Datum := do
  let (m, n) ← integers x y
  return .ofBool (f m.toInt n.toInt)

/-- The car and the cdr of a pair; a closure has none. -/
def halves : Datum → EvalM (Datum × Datum)
  | .object id => do
    let .pair car cdr ← object id | undefined
    return (car, cdr)
  | _ => undefined

/-- Apply a builtin to its operands. Equality of objects is identity. -/
def applyBuiltin : Builtin → List Datum → EvalM Datum
  | .add, [x, y] => arithmetic (· + ·) x y
  | .sub, [x, y] => arithmetic (· - ·) x y
  | .mul, [x, y] => arithmetic (· * ·) x y
  | .div, [x, y] => quotient x y
  | .lt, [x, y] => comparison (fun m n => m < n) x y
  | .gt, [x, y] => comparison (fun m n => m > n) x y
  | .le, [x, y] => comparison (fun m n => m ≤ n) x y
  | .ge, [x, y] => comparison (fun m n => m ≥ n) x y
  | .eq, [x, y] => pure (.ofBool (x = y))
  | .cons, [x, y] => create (.pair x y)
  | .car, [x] => do return (← halves x).1
  | .cdr, [x] => do return (← halves x).2
  | _, _ => undefined

/-- The values of arguments, of which the last is evaluated first. -/
def evalArguments (sub : Expr → EvalM Datum) : List Expr → EvalM (List Datum)
  | [] => pure []
  | e :: es => do
    let ds ← evalArguments sub es
    return (← sub e) :: ds

/-- The value of an expression whose parts, and the bodies of closures, are evaluated by `sub`. -/
def evalWith (sub : Env → Expr → EvalM Datum) (env : Env) : Expr → EvalM Datum
  | .nil => pure .nil
  | .quote d => pure d
  | .ident name => lookup env name
  | .cond test consequent alternative => do
    let d ← sub env test
    sub env (if d = .nil then alternative else consequent)
  | .function params body => create (.closure params body env.locals)
  | .bind params values body => do
    let args ← evalArguments (sub env) values
    let f ← newFrame (← bindArguments params args)
    sub (env.within params f) body
  | .recursive params values body => do
    let f ← newFrame .empty
    let args ← evalArguments (sub (env.within params f)) values
    setFrame f (← bindArguments params args)
    sub (env.within params f) body
  | .assign name value => do
    let d ← sub env value
    assign env name d
    return d
  | .list args => do makeList (← evalArguments (sub env) args)
  | .builtin b args => do applyBuiltin b (← evalArguments (sub env) args)
  | .apply operator args => do
    let args ← evalArguments (sub env) args
    let .object id ← sub env operator | undefined
    let .closure params body locals ← object id | undefined
    let f ← newFrame (← bindArguments params args)
    sub { env with locals := (params, f) :: locals } body

/-- The value of an expression, where calls and parts nest no deeper than the fuel. -/
def eval : (fuel : Nat) → Env → Expr → EvalM Datum
  | 0, _, _ => undefined
  | fuel + 1, env, e => evalWith (eval fuel) env e

section Fuel

variable {α β : Type}

def Below (x y : EvalM α) : Prop := ∀ σ r, x σ = some r → y σ = some r

theorem Below.bind {x y : EvalM α} {f f' : α → EvalM β} (first : Below x y)
    (next : ∀ a, Below (f a) (f' a)) : Below (x >>= f) (y >>= f') := by
  intro σ r run
  obtain ⟨a, σ₁, before, after⟩ := bind_eq_some.mp run
  exact bind_eq_some.mpr ⟨a, σ₁, first σ _ before, next a σ₁ _ after⟩

theorem Below.refl (x : EvalM α) : Below x x := fun _ _ => id

theorem evalArguments_below {sub sub' : Expr → EvalM Datum} (le : ∀ e, Below (sub e) (sub' e))
    (es : List Expr) : Below (evalArguments sub es) (evalArguments sub' es) := by
  induction es with
  | nil => exact .refl _
  | cons e es ih => exact ih.bind fun ds => (le e).bind fun d => .refl _

theorem evalWith_below {sub sub' : Env → Expr → EvalM Datum}
    (le : ∀ env e, Below (sub env e) (sub' env e)) (env : Env) (e : Expr) :
    Below (evalWith sub env e) (evalWith sub' env e) := by
  have arguments (env : Env) (es : List Expr) := evalArguments_below (le env) es
  cases e with
  | nil | quote _ | ident _ | function _ _ => exact .refl _
  | cond test consequent alternative => exact (le env test).bind fun d => le env _
  | bind params values body =>
    exact (arguments env values).bind fun ds => (Below.refl _).bind fun slots =>
      (Below.refl _).bind fun f => le _ body
  | recursive params values body =>
    exact (Below.refl _).bind fun f => (arguments _ values).bind fun ds =>
      (Below.refl _).bind fun slots => (Below.refl _).bind fun _ => le _ body
  | assign name value => exact (le env value).bind fun d => .refl _
  | list args => exact (arguments env args).bind fun ds => .refl _
  | builtin b args => exact (arguments env args).bind fun ds => .refl _
  | apply operator args =>
    refine (arguments env args).bind fun ds => (le env operator).bind fun d => ?_
    cases d with
    | object id =>
      refine (Below.refl _).bind fun o => ?_
      cases o with
      | pair _ _ => exact .refl _
      | closure params body locals =>
        exact (Below.refl _).bind fun slots => (Below.refl _).bind fun f => le _ body
    | _ => exact .refl _

/-- With more fuel, the value of an expression is the same. -/
theorem eval_mono {fuel more : Nat} (le : fuel ≤ more) (env : Env) (e : Expr) :
    Below (eval fuel env e) (eval more env e) := by
  induction fuel generalizing more env e with
  | zero =>
    intro σ r run
    cases run
  | succ fuel ih =>
    obtain ⟨k, rfl⟩ := Nat.exists_eq_add_of_le' le
    exact evalWith_below (fun env e => ih (Nat.le_add_left ..) env e) env e

end Fuel

end Reference

end SecdLisp
