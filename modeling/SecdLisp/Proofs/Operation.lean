import SecdLisp.Proofs.Restore
import SecdLisp.Session.Eval

/-!
# What is asked of a session

A caller reads, compiles, runs and evaluates, puts values and code together by hand, stores into
environments, defines names, and saves and restores. Every operation leaves a session behind,
whether it fails or not.
-/

namespace SecdLisp

namespace Session

inductive Operation where
  | intern (name : String)
  | cons (car cdr : Value)
  | store (env : Value) (depth index : Nat) (v : Value)
  | read (text : String)
  | compile (steps : Nat) (expr : Value)
  | run (steps : Nat) (code : Value)
  | eval (steps : Nat) (expr : Value)
  | evalText (steps : Nat) (text : String)
  | evalEach (steps : Nat) (text : String)
  | defineFunction (name : String)
  | defineMacro (name : String)
  | capture
  | restore (image : Image)

/-- The values and errors that the caller is given. -/
abbrev Answers := List (Except Error Value)

/-- The session that work leaves behind, with what the caller is given. -/
def answered {α : Type} (values : α → List Value) (x : SessionM α) (s : Session) :
    Session × Answers :=
  match x s with
  | .ok a s => (s, (values a).map .ok)
  | .error e s => (s, [.error e])

def perform (op : Operation) (s : Session) : Session × Answers :=
  match op with
  | .intern name => answered (fun symbol => [.ident symbol]) (intern name) s
  | .cons car cdr => answered (fun v => [v]) (onHeap (Heap.cons car cdr)) s
  | .store env depth index v => answered (fun _ => []) (onHeap (Heap.store env depth index v)) s
  | .read text => answered (fun v => [v]) (read text) s
  | .compile steps expr => answered (fun v => [v]) (compile steps expr) s
  | .run steps code => answered (fun v => [v]) (run steps code) s
  | .eval steps expr => answered (fun v => [v]) (eval steps expr) s
  | .evalText steps text => answered (fun v => [v]) (evalText steps text) s
  | .evalEach steps text => ((evalEach steps text s).2, (evalEach steps text s).1.toList)
  | .defineFunction name => answered (fun _ => []) (defineFunction name) s
  | .defineMacro name => answered (fun _ => []) (defineMacro name) s
  | .capture => answered (fun _ => []) capture s
  | .restore image => answered (fun _ => []) (restore image) s

/-- The operation is about values of the session, and restores an admitted image if it restores
one. -/
def Operation.Permitted (images : Image → Prop) (s : Session) : Operation → Prop
  | .cons car cdr => s.Knows car ∧ s.Knows cdr
  | .store env _ _ v => s.Knows env ∧ s.Knows v
  | .compile _ expr => s.Knows expr
  | .run _ code => s.Knows code
  | .eval _ expr => s.Knows expr
  | .restore image => images image
  | _ => True

/-- A session that operations lead to. Images of sessions that arise in the same way may be
restored, and those that are admitted from elsewhere. -/
inductive Arises (images : Image → Prop) : Session → Prop where
  | created {cells : Nat} {level : LogLevel} {s : Session} (new : create cells level = .ok s) :
    Arises images s
  | performed {s : Session} (op : Operation) (before : Arises images s)
    (permitted : op.Permitted images s) : Arises images (perform op s).1
  | restored {s t : Session} (before : Arises images s) (source : Arises images t) :
    Arises images (perform (.restore t.image) s).1

/-- An answer that leads nowhere but into the session. -/
def Bears (s : Session) : Except Error Value → Prop
  | .ok v => s.Knows v
  | .error e => ∀ r, e.registers? = some r →
      s.Knows r.stack ∧ s.Knows r.env ∧ s.Knows r.code ∧ s.Knows r.dump

/-- A property of sessions holds of all that arise if operations other than restoring keep it,
and so does restoring an image that is admitted or was taken of a session with the property. -/
theorem Arises.invariant {images : Image → Prop} {P : Session → Prop}
    (created : ∀ cells level s, create cells level = .ok s → P s)
    (performed : ∀ s op, (∀ image, op ≠ .restore image) → op.Permitted images s → P s →
      P (perform op s).1)
    (restored : ∀ s image, (images image ∨ ∃ t, P t ∧ image = t.image) → P s →
      P (perform (.restore image) s).1) {s : Session} (arises : Arises images s) : P s := by
  induction arises with
  | created new => exact created _ _ _ new
  | @performed s op _ permitted ih =>
    cases op with
    | restore image => exact restored s image (.inl permitted) ih
    | _ => exact performed s _ nofun permitted ih
  | restored before source ih ihSource => exact restored _ _ (.inr ⟨_, ihSource, rfl⟩) ih

end Session

end SecdLisp
