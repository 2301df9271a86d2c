import Mathlib.Data.List.Infix
import SecdLisp.Session.Eval

/-!
# What is seen of a session

A session shows itself through the code, the values and the errors of the forms it evaluates, all
of them printed. Two sessions are indistinguishable if no sequence of texts tells them apart. A
full heap is the one thing that may end this: sessions have room for different numbers of cells.
-/

namespace SecdLisp

/-- What is seen of a form. An error comes with the printed stack, environment, code and dump if
it is a fault of the machine. -/
inductive Shown where
  | code (text : String)
  | value (text : String)
  | failure (error : Error) (registers : Option (List String))
  deriving DecidableEq, Repr

namespace Shown

def overflow : Shown := .failure .heapFull none

end Shown

namespace Session

def shownCode (s : Session) (code : Value) : Shown := .code (s.print code)

def shownResult (s : Session) : Except Error Value → Shown
  | .ok v => .value (s.print v)
  | .error e => .failure (e.withRegisters .empty)
      (e.registers?.map fun r => [r.stack, r.env, r.code, r.dump].map s.print)

def record (e : Shown) : StateM (List Shown) Unit := modify (· ++ [e])

/-- Evaluate every form of a text; what is seen comes after what was seen before. -/
def watchFrom (steps : Nat) (bound : List Char) (source : Source) (s : Session)
    (seen : List Shown) : Session × List Shown :=
  (evalStreamFrom steps (fun s code => record (s.shownCode code))
    (fun s r => record (s.shownResult r)) bound source s : StateM (List Shown) Session).run seen

/-- The session after a text, and all that was seen on the way. -/
def watch (steps : Nat) (text : String) (s : Session) : Session × List Shown :=
  (evalStream steps (fun s code => record (s.shownCode code))
    (fun s r => record (s.shownResult r)) text s : StateM (List Shown) Session).run []

/-- Up to the point where one of the heaps was full, the same was seen. -/
def Parted (es fs : List Shown) : Prop :=
  ∃ common, common ++ [.overflow] <+: es ∧ common <+: fs ∨
    common <+: es ∧ common ++ [.overflow] <+: fs

/-- The relation holds only between sessions that show the same for every text, and that are
related again after it, unless a heap overflows. -/
structure Bisimulation (R : Session → Session → Prop) : Prop where
  together : ∀ s t, R s t → ∀ steps text,
    (watch steps text s).2 = (watch steps text t).2 ∨
      Parted (watch steps text s).2 (watch steps text t).2
  again : ∀ s t, R s t → ∀ steps text, .overflow ∉ (watch steps text s).2 →
    .overflow ∉ (watch steps text t).2 → R (watch steps text s).1 (watch steps text t).1

def Indistinguishable (s t : Session) : Prop := ∃ R, Bisimulation R ∧ R s t

/-- A session that some evaluations lead to. -/
inductive Reached : Session → Prop where
  | created {cells : Nat} {level : LogLevel} {s : Session} (new : create cells level = .ok s) :
    Reached s
  | watched {s : Session} (before : Reached s) (steps : Nat) (text : String) :
    Reached (watch steps text s).1
  | evaluated {s s' : Session} {steps : Nat} {text : String} {v : Value} (before : Reached s)
    (run : evalText steps text s = .ok v s') : Reached s'
  | failed {s s' : Session} {steps : Nat} {text : String} {e : Error} (before : Reached s)
    (run : evalText steps text s = .error e s') : Reached s'

theorem Parted.extend {es es' fs fs' : List Shown} (parted : Parted es fs) (left : es <+: es')
    (right : fs <+: fs') : Parted es' fs' := by
  obtain ⟨common, ⟨first, second⟩ | ⟨first, second⟩⟩ := parted
  · exact ⟨common, .inl ⟨first.trans left, second.trans right⟩⟩
  · exact ⟨common, .inr ⟨first.trans left, second.trans right⟩⟩

theorem Parted.overflow_mem {es fs : List Shown} (parted : Parted es fs) :
    .overflow ∈ es ∨ .overflow ∈ fs := by
  obtain ⟨common, ⟨first, _⟩ | ⟨_, second⟩⟩ := parted
  · exact .inl (first.mem (by simp))
  · exact .inr (second.mem (by simp))

variable {s t : Session}

theorem Indistinguishable.together (same : Indistinguishable s t) (steps : Nat) (text : String) :
    (watch steps text s).2 = (watch steps text t).2 ∨
      Parted (watch steps text s).2 (watch steps text t).2 := by
  obtain ⟨R, bisimulation, related⟩ := same
  exact bisimulation.together s t related steps text

theorem Indistinguishable.again (same : Indistinguishable s t) {steps : Nat} {text : String}
    (left : .overflow ∉ (watch steps text s).2) (right : .overflow ∉ (watch steps text t).2) :
    Indistinguishable (watch steps text s).1 (watch steps text t).1 := by
  obtain ⟨R, bisimulation, related⟩ := same
  exact ⟨R, bisimulation, bisimulation.again s t related steps text left right⟩

/-- All that is seen of the evaluation of several texts, one after the other. -/
def watchAll : List (Nat × String) → Session → List (List Shown)
  | [], _ => []
  | (steps, text) :: inputs, s =>
    (watch steps text s).2 :: watchAll inputs (watch steps text s).1

/-- As long as no heap overflows, no sequence of texts tells indistinguishable sessions apart. -/
theorem Indistinguishable.watchAll_eq (same : Indistinguishable s t) (inputs : List (Nat × String))
    (left : ∀ seen ∈ watchAll inputs s, .overflow ∉ seen)
    (right : ∀ seen ∈ watchAll inputs t, .overflow ∉ seen) :
    watchAll inputs s = watchAll inputs t := by
  induction inputs generalizing s t with
  | nil => rfl
  | cons input inputs ih =>
    obtain ⟨steps, text⟩ := input
    rw [watchAll, List.forall_mem_cons] at left right
    have later := ih (same.again left.1 right.1) left.2 right.2
    have first : (watch steps text s).2 = (watch steps text t).2 := by
      rcases same.together steps text with equal | parted
      · exact equal
      · rcases parted.overflow_mem with full | full
        · exact (left.1 full).elim
        · exact (right.1 full).elim
    rw [watchAll, watchAll, first, later]

end Session

end SecdLisp
