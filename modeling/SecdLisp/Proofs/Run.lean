import Mathlib.Logic.Relation
import SecdLisp.Machine.Run
import SecdLisp.Proofs.Outcome

/-!
# Runs

A run passes configurations, one before each instruction. One that is over does not change if it is
given more steps.
-/

namespace SecdLisp

/-- The work came to its end, and was not stopped for lack of steps. -/
def Over {σ α : Type} : EStateM.Result Error σ α → Prop
  | .ok _ _ => True
  | .error e _ => e ≠ .outOfSteps

instance {σ α : Type} : (result : EStateM.Result Error σ α) → Decidable (Over result)
  | .ok _ _ => inferInstanceAs (Decidable True)
  | .error e _ => inferInstanceAs (Decidable (e ≠ .outOfSteps))

namespace Machine

/-- The machine between two instructions. -/
structure Config where
  registers : Registers
  heap : Heap

/-- An instruction leads from one configuration to another. -/
def Goes (symbols : SymbolTable) (c d : Config) : Prop :=
  step symbols c.registers c.heap = .ok (.running d.registers) d.heap

/-- A run leads from one configuration to another. -/
abbrev Passes (symbols : SymbolTable) : Config → Config → Prop := Relation.ReflTransGen (Goes symbols)

variable {symbols : SymbolTable} {n m : Nat} {r : Registers} {h : Heap}

theorem runFrom_succ : runFrom symbols (n + 1) r h =
    match step symbols r h with
    | .ok (.running r) h => runFrom symbols n r h
    | .ok (.halted r) h => .ok ((h.carOf? r.stack).getD .nil) h
    | .error e h => .error e h := by
  rw [runFrom]
  simp only [bind, EStateM.bind]
  cases step symbols r h with
  | error e h => rfl
  | ok outcome h => cases outcome <;> rfl

/-- More steps change nothing about a run that is over. -/
theorem runFrom_of_le (finished : Over (runFrom symbols n r h)) (le : n ≤ m) :
    runFrom symbols m r h = runFrom symbols n r h := by
  induction n generalizing m r h with
  | zero => exact (finished rfl).elim
  | succ n ih =>
    obtain ⟨m, rfl⟩ := Nat.exists_eq_succ_of_ne_zero (Nat.ne_of_gt (Nat.lt_of_lt_of_le n.succ_pos le))
    rw [Nat.succ_eq_add_one, runFrom_succ, runFrom_succ]
    rw [runFrom_succ] at finished
    split
    next r' h' run =>
      rw [run] at finished
      exact ih finished (Nat.le_of_succ_le_succ le)
    · rfl
    · rfl

end Machine

end SecdLisp
