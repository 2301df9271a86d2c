import SecdLisp.Proofs.Shell.Evaluation
import SecdLisp.Shell.Desk

/-!
# What a user sees

Evaluating a text for a user only writes: first what its phrases have written, then the lines of
the log.
-/

namespace SecdLisp

namespace Desk

variable {α β : Type} {d : Desk} {x y : Written} {a : α} {b : β}

def write (d : Desk) (x : Written) : Desk := { d with out := d.out ++ x.out, err := d.err ++ x.err }

theorem write_append (d : Desk) (x y : Written) : d.write (x ++ y) = (d.write x).write y := by
  simp [write, String.append_assoc]

theorem write_nothing (d : Desk) : d.write .nothing = d := by
  simp [write, Written.nothing]

/-- The work writes this and does nothing else, and comes to that. -/
def Writes (work : StateM Desk α) (a : α) (x : Written) : Prop := ∀ d, work.run d = (a, d.write x)

theorem writes_pure (a : α) : Writes (pure a) a .nothing :=
  fun d => congrArg (a, ·) (write_nothing d).symm

theorem Writes.bind {work : StateM Desk α} {f : α → StateM Desk β} (first : Writes work a x)
    (later : Writes (f a) b y) : Writes (work >>= f) b (x ++ y) := by
  intro d
  rw [StateT.run_bind, first d]
  show (f a).run _ = _
  rw [later, write_append]

theorem writes_put (text : String) : Writes (Host.put text) () ⟨text, ""⟩ := by
  intro d
  simp [write]
  rfl

theorem writes_warn (text : String) : Writes (Host.warn text) () ⟨"", text⟩ := by
  intro d
  simp [write]
  rfl

def Tells (work : StateT Bool (StateM Desk) α) (a : α) (x : Written) : Prop :=
  ∀ ok, ∃ ok', Writes (work.run ok) (a, ok') x

theorem tells_pure (a : α) : Tells (pure a) a .nothing := fun ok => ⟨ok, writes_pure _⟩

theorem tells_set (ok : Bool) : Tells (set ok) () .nothing := fun _ => ⟨ok, writes_pure _⟩

theorem Tells.bind {work : StateT Bool (StateM Desk) α} {f : α → StateT Bool (StateM Desk) β}
    (first : Tells work a x) (later : Tells (f a) b y) : Tells (work >>= f) b (x ++ y) := by
  intro ok
  obtain ⟨ok₁, first⟩ := first ok
  obtain ⟨ok₂, later⟩ := later ok₁
  refine ⟨ok₂, ?_⟩
  rw [StateT.run_bind]
  exact first.bind later

theorem tells_lift {work : StateM Desk α} (writes : Writes work a x) :
    Tells (liftM work : StateT Bool (StateM Desk) α) a x := by
  intro ok
  refine ⟨ok, fun d => ?_⟩
  show (do let a ← work; pure (a, ok)).run d = _
  rw [StateT.run_bind, writes d]
  rfl

end Desk

namespace Shell

open Host Desk Session
open Reading (Grammatical)

section Observers

variable {m : Type → Type} [Monad m] [Host m]

def observeCode (manner : Manner) (s : Session) (code : Value) : StateT Bool m Unit :=
  if manner.showCode then putLine (m := m) (s.print code) else pure ()

def observeResult (s : Session) : Except Error Value → StateT Bool m Unit
  | .ok v => putLine (m := m) (s.print v)
  | .error e => do
    warnLine (m := m) (s.describe e)
    set false

theorem evalAndPrint_eq (manner : Manner) (text : String) (s : Session) :
    evalAndPrint (m := m) manner text s = do
      let (s, ok) ← (s.evalStream manner.steps (observeCode manner) observeResult text).run true
      return (ok, ← showLog s) := rfl

end Observers

variable {manner : Manner} {s u : Session} {ps : List Phrase} {x : Written} {text : String}

theorem tells_observeCode (manner : Manner) (s : Session) (code : Value) :
    Tells (observeCode manner s code) () (.ofCode manner s code) := by
  unfold observeCode Written.ofCode
  split
  · exact tells_lift (writes_put _)
  · exact tells_pure ()

theorem tells_observeResult (s : Session) (r : Except Error Value) :
    Tells (observeResult s r) () (.ofResult s r) := by
  cases r with
  | ok v => exact tells_lift (writes_put _)
  | error e =>
    have told := (tells_lift (writes_warn (s.describe e ++ "\n"))).bind (f := fun _ => set false)
      (tells_set false)
    rwa [Written.append_nothing] at told

theorem tells_evalOne (manner : Manner) (v : Value) (s : Session) :
    Tells (evalOne manner.steps (observeCode manner) observeResult v s) (written manner v s).2
      (written manner v s).1 := by
  have result (s : Session) (r : Except Error Value) :
      Tells (do observeResult s r; return s) s (.ofResult s r) := by
    have told := (tells_observeResult s r).bind (f := fun _ => pure s) (tells_pure s)
    rwa [Written.append_nothing] at told
  unfold evalOne written
  cases compile manner.steps v s with
  | error e t => exact result t _
  | ok code t =>
    dsimp only
    cases run manner.steps code t with
    | error e u => exact (tells_observeCode manner t code).bind (result u _)
    | ok r u => exact (tells_observeCode manner t code).bind (result u _)

theorem tells_evalPhrases (evaluates : Evaluates manner s ps x u) :
    Tells (evalPhrases manner.steps (observeCode manner) observeResult ps s) u x := by
  induction evaluates with
  | nil s => exact tells_pure s
  | cons built _ ih =>
    rw [evalPhrases, built]
    exact (tells_evalOne manner _ _).bind ih

def cleared (log : Log) : Log := { log with events := #[] }

def logLines (log : Log) : Written :=
  ⟨String.join (log.events.toList.map fun e => e.line ++ "\n"), ""⟩

theorem writes_lines (events : List Event) :
    Writes (forIn events PUnit.unit fun e _ => do
      putLine e.line
      pure (ForInStep.yield PUnit.unit)) PUnit.unit
      ⟨String.join (events.map fun e => e.line ++ "\n"), ""⟩ := by
  induction events with
  | nil => exact writes_pure _
  | cons e events ih =>
    have parts : (⟨String.join ((e :: events).map fun e => e.line ++ "\n"), ""⟩ : Written) =
        ⟨e.line ++ "\n", ""⟩ ++ ⟨String.join (events.map fun e => e.line ++ "\n"), ""⟩ := by
      ext1 <;> simp
    rw [List.forIn_cons, parts]
    simp only [bind_assoc, pure_bind]
    exact (writes_put (e.line ++ "\n")).bind ih

theorem writes_showLog (s : Session) :
    Writes (showLog s) { s with log := cleared s.log } (logLines s.log) := by
  unfold showLog
  rw [← Array.forIn_toList]
  have told := (writes_lines s.log.events.toList).bind (f := fun _ => pure _)
    (writes_pure { s with log := cleared s.log })
  rwa [Written.append_nothing] at told

/-- What is written for a text is what is written for its phrases, and then the log. -/
theorem writes_evalAndPrint (grammatical : Grammatical text ps)
    (evaluates : Evaluates manner s ps x u) : ∃ ok, Writes (evalAndPrint manner text s)
      (ok, { u with log := cleared u.log }) (x ++ logLines u.log) := by
  have told := tells_evalPhrases evaluates
  rw [← evalStream_eq _ _ _ grammatical] at told
  obtain ⟨ok, told⟩ := told true
  refine ⟨ok, ?_⟩
  rw [evalAndPrint_eq]
  refine told.bind ?_
  have shown := (writes_showLog u).bind (f := fun s => pure (ok, s)) (writes_pure _)
  rwa [Written.append_nothing] at shown

end Shell

end SecdLisp
