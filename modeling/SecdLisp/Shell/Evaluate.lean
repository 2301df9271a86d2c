import SecdLisp.Session.Eval
import SecdLisp.Session.Image
import SecdLisp.Shell.Host

/-!
# Evaluating for a user

Values go to standard output, errors to standard error, and so do the code of each form and the
log where they are asked for.
-/

namespace SecdLisp

structure Manner where
  /-- The steps that one run may take. -/
  steps : Nat
  /-- Whether to show the code of each form before it runs. -/
  showCode : Bool
  deriving DecidableEq, Repr, Inhabited

namespace Shell

open Host

variable {m : Type → Type} [Monad m] [Host m]

/-- Write out the recorded events and forget them. -/
def showLog (s : Session) : m Session := do
  for e in s.log.events do
    putLine e.line
  return { s with log := { s.log with events := #[] } }

/-- Evaluate every form of a text, writing each value or error. The answer says whether every
form succeeded. -/
def evalAndPrint (manner : Manner) (text : String) (s : Session) : m (Bool × Session) := do
  let onCode (s : Session) (code : Value) : StateT Bool m Unit :=
    if manner.showCode then putLine (m := m) (s.print code) else pure ()
  let onResult (s : Session) : Except Error Value → StateT Bool m Unit
    | .ok v => putLine (m := m) (s.print v)
    | .error e => do
      warnLine (m := m) (s.describe e)
      set false
  let (s, ok) ← (s.evalStream manner.steps onCode onResult text).run true
  return (ok, ← showLog s)

/-- Evaluate the forms of a file from a place on, up to the first error, which is reported. -/
def loadFrom (manner : Manner) (path : String) :
    (bound : List Char) → (count : Nat) → Source → Session → m (Option Session)
  | bound, count, source, s =>
    match Session.readNext source s with
    | .error e _ => do
      warnLine s!"Error in {path} at byte {source.offset}: {e.message}"
      return none
    | .ok (none, _) s => return some s
    | .ok (some expr, source) s =>
      match Session.compile manner.steps expr s with
      | .error e s => reportAt count e s
      | .ok code s => do
        if manner.showCode then putLine (s.print code)
        match Session.run manner.steps code s with
        | .error e s => reportAt count e s
        | .ok _ s =>
          match bound with
          | [] => return some s
          | _ :: bound => loadFrom manner path bound (count + 1) source s
where
  reportAt (count : Nat) (e : Error) (s : Session) : m (Option Session) := do
    warnLine s!"Error in {path} at expression {count}: {s.describe e}"
    return none

/-- Evaluate a source file. Later forms usually build on earlier ones, so the first error ends
it and there is no session to go on with. -/
def loadFile (manner : Manner) (s : Session) (path : String) : m (Option Session) := do
  match ← readText path with
  | .error cause =>
    warnLine s!"Error loading {path}: {cause.message}"
    return none
  | .ok text =>
    match ← loadFrom manner path text.toList 1 (.ofString text) s with
    | some s => return some (← showLog s)
    | none => return none

def loadImage (path : String) (s : Session) : m (Except Error Unit × Session) := do
  match ← readBytes path with
  | .error cause => return (.error (.host cause), s)
  | .ok bytes =>
    match Image.ofBytes bytes with
    | .error cause => return (.error (.image cause), s)
    | .ok image =>
      match Session.restore image s with
      | .ok () s => return (.ok (), ← showLog s)
      | .error e s => return (.error e, s)

def saveImage (path : String) (s : Session) : m (Except Error Unit × Session) := do
  match Session.capture s with
  | .error e s => return (.error e, s)
  | .ok image s =>
    let s ← showLog s
    match ← writeBytes path image.toBytes with
    | .ok () => return (.ok (), s)
    | .error cause => return (.error (.host cause), s)

end Shell

end SecdLisp
