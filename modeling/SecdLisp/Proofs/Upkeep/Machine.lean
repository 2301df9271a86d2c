import SecdLisp.Proofs.Running
import SecdLisp.Proofs.Upkeep.Heap

/-!
# What the machine does to a heap

An instruction only makes changes to the heap, and the registers it leaves lead nowhere else. So
does a run; and a fault carries registers that lead nowhere else either.
-/

namespace SecdLisp

namespace Heap

abbrev Bears (names : Nat) (h : Heap) (r : Registers) : Prop := r.Within h.size names

end Heap

namespace Machine

open Heap Contract

variable {names : Nat} {h : Heap} {u v : Value} {r : Registers}

theorem bear_iff : Bear (h.Knows names) r ↔ h.Bears names r :=
  ⟨fun bear => ⟨bear.stack, bear.env, bear.code, bear.dump⟩,
    fun bears => ⟨bears.stack, bears.env, bears.code, bears.dump⟩⟩

theorem within_withRegisters {cells : Nat} {e : Error} (known : e.Within cells names)
    (bears : r.Within cells names) : (e.withRegisters r).Within cells names := by
  cases e with
  | runtime f r' =>
    intro r₁ carried
    cases carried
    exact bears
  | _ => exact known

theorem takes_upkeep (names : Nat) : Takes (upkeep names) (Knows names) where
  later := Changes.knows
  nil := knows_nil names
  truth _ := trivial
  int _ _ := trivial
  fault _ := Error.within_fault
  carried known bear := within_withRegisters known (bear_iff.mp bear)
  outOfSteps _ := Error.within_of_none rfl
  halves {_ _ a} holds _ := holds.1 ▸ holds.2 a
  alloc := keeps_alloc
  setCar := keeps_setCar
  extend := keeps_extend

/-- An instruction only makes changes to the heap. The registers it leaves, and those that its
fault carries, lead nowhere but into the heap. -/
theorem keeps_step (symbols : SymbolTable) (bears : h.Bears names r) :
    (upkeep names).Keeps h (fun h' => Outcome.Bear (h'.Knows names)) (step symbols r) :=
  (takes_upkeep names).keeps_step symbols (bear_iff.mpr bears)

theorem keeps_run (symbols : SymbolTable) (steps : Nat) (env : h.Knows names u)
    (code : h.Knows names v) :
    (upkeep names).Keeps h (Knows names) (run symbols steps u v) :=
  (takes_upkeep names).keeps_run symbols steps env code

end Machine

end SecdLisp
