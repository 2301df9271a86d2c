import SecdLisp.Session.Basic

/-!
# Evaluation

A text is evaluated form by form: each form is read, compiled and run before the next one is
read. What an error means for the later forms is where the ways to evaluate a text differ.
-/

namespace SecdLisp

namespace Session

def eval (steps : Nat) (expr : Value) : SessionM Value := do
  let code ← compile steps expr
  let v ← run steps code
  report (.evaluated (← onHeap (Heap.read Heap.size)))
  return v

/-- Read the next form of a text, or `none` at its end, and the rest of the text. -/
def readNext (source : Source) : SessionM (Option Value × Source) :=
  onReader Reading.form? source

/-- Evaluate the forms that are left of a text. Every form takes at least one character, so the
text bounds their number. -/
def evalFrom (steps : Nat) : (bound : List Char) → Source → Value → SessionM Value
  | bound, source, last => do
    match ← readNext source with
    | (none, _) => return last
    | (some expr, source) =>
      let v ← eval steps expr
      match bound with
      | [] => return v
      | _ :: bound => evalFrom steps bound source v

/-- Evaluate every form of a text, up to the first error. The result is the value of the last
form, or nil if there is none. -/
def evalText (steps : Nat) (text : String) : SessionM Value :=
  evalFrom steps text.toList (.ofString text) .nil

section Streams

variable {m : Type → Type} [Monad m]

/-- Compile and run one form. `onCode` sees the code before it runs, `onResult` the outcome. -/
def evalOne (steps : Nat) (onCode : Session → Value → m Unit)
    (onResult : Session → Except Error Value → m Unit) (expr : Value) (s : Session) :
    m Session :=
  match compile steps expr s with
  | .error e s => do
    onResult s (.error e)
    return s
  | .ok code s => do
    onCode s code
    match run steps code s with
    | .error e s =>
      onResult s (.error e)
      return s
    | .ok v s =>
      onResult s (.ok v)
      return s

def evalStreamFrom (steps : Nat) (onCode : Session → Value → m Unit)
    (onResult : Session → Except Error Value → m Unit) :
    (bound : List Char) → Source → Session → m Session
  | bound, source, s =>
    match readNext source s with
    | .error e s => do
      onResult s (.error e)
      return s
    | .ok (none, _) s => return s
    | .ok (some expr, source) s => do
      let s ← evalOne steps onCode onResult expr s
      match bound with
      | [] => return s
      | _ :: bound => evalStreamFrom steps onCode onResult bound source s

/-- Evaluate every form of a text and hand over code and outcomes as they come. A form that
fails does not stop the later ones; an error of the reader ends the text, since no later form
can be told apart. -/
def evalStream (steps : Nat) (onCode : Session → Value → m Unit)
    (onResult : Session → Except Error Value → m Unit) (text : String) (s : Session) :
    m Session :=
  evalStreamFrom steps onCode onResult text.toList (.ofString text) s

end Streams

/-- The outcomes of every form of a text. -/
def evalEach (steps : Nat) (text : String) (s : Session) :
    Array (Except Error Value) × Session :=
  let record (_ : Session) (r : Except Error Value) :
      StateM (Array (Except Error Value)) Unit := modify (·.push r)
  let (s, results) := (evalStream steps (fun _ _ => pure ()) record text s).run #[]
  (results, s)

end Session

end SecdLisp
