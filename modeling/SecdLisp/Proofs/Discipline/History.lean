import SecdLisp.Proofs.Discipline.Machine

/-!
# What was run so far

A history is made of the moments before each instruction that was carried out, over all runs. It is
honest while every pair that a call took off the stack as its closure was made by an instruction
that makes closures.
-/

namespace SecdLisp

namespace Machine

/-- The machine before an instruction. -/
structure Moment where
  symbols : SymbolTable
  registers : Registers
  heap : Heap

namespace Moment

def instruction? (m : Moment) : Option Value := m.heap.carOf? m.registers.code

/-- What the instruction leads to. -/
def outcome (m : Moment) : EStateM.Result Error Heap Outcome := step m.symbols m.registers m.heap

/-- The pair that a call takes off the stack as its closure. -/
def popped? (m : Moment) : Option Addr :=
  match m.instruction? with
  | some (.op .ap) | some (.op .rap) => (m.heap.carOf? m.registers.stack).bind Value.addr?
  | _ => none

/-- The pair that an instruction makes as a closure, and leaves on the stack. -/
def made? (m : Moment) : Option Addr :=
  match m.instruction?, m.outcome with
  | some (.op .ldf), .ok (.running r) h => (h.carOf? r.stack).bind Value.addr?
  | _, _ => none

/-- The instruction runs into ordinary failures only; and if it halts, there is one value on the
stack and nothing on the dump, and the environment is the global one. -/
structure Orderly (root : Value) (m : Moment) : Prop where
  failure : ∀ e h, m.outcome = .error e h → e.Ordinary
  halt : m.instruction? = some (.op .halt) →
    (∃ a v, m.registers.stack = .pair a ∧ m.heap.cell a = ⟨v, .nil⟩) ∧
      m.registers.dump = .nil ∧ m.registers.env = root

theorem popped?_of_ap {m : Moment} {a : Addr} (call : m.instruction? = some (.op .ap))
    (top : m.heap.carOf? m.registers.stack = some (.pair a)) : m.popped? = some a := by
  rw [popped?, call, top]
  rfl

theorem made?_eq_some {m : Moment} {a : Addr} (made : m.made? = some a) :
    m.instruction? = some (.op .ldf) ∧
      ∃ r h, m.outcome = .ok (.running r) h ∧ h.carOf? r.stack = some (.pair a) := by
  unfold made? at made
  split at made
  next r h ldf ran =>
    obtain ⟨v, top, pair⟩ := Option.bind_eq_some_iff.mp made
    refine ⟨ldf, r, h, ran, ?_⟩
    cases v <;> cases pair
    exact top
  next => cases made

end Moment

/-- The moments of a run, as far as it comes in that many steps. -/
def moments (symbols : SymbolTable) : (steps : Nat) → Registers → Heap → List Moment
  | 0, _, _ => []
  | n + 1, r, h => ⟨symbols, r, h⟩ ::
    match step symbols r h with
    | .ok (.running r) h => moments symbols n r h
    | _ => []

/-- Every pair that was called had been made as a closure. -/
def Honest (history : List Moment) : Prop :=
  ∀ before m, before ++ [m] <+: history → ∀ a ∈ m.popped?, ∃ d ∈ before, a ∈ d.made?

/-- As long as the history is honest, it is orderly. -/
def Disciplined (root : Value) (history : List Moment) : Prop :=
  ∀ before m, before ++ [m] <+: history → Honest (before ++ [m]) → m.Orderly root

variable {root : Value} {history later : List Moment} {m : Moment}

theorem honest_iff : Honest history ↔ ∀ (i : Nat) (lt : i < history.length),
    ∀ a ∈ history[i].popped?, ∃ d ∈ history.take i, a ∈ d.made? := by
  constructor
  · intro honest i lt
    exact honest (history.take i) history[i]
      (List.take_concat_get' history i lt ▸ List.take_prefix ..)
  · rintro all before m ⟨rest, rfl⟩ a popped
    have made := all before.length (by simp) a
    simpa using made (by simpa using popped)

instance : DecidablePred Honest := fun _ => decidable_of_iff _ honest_iff.symm

theorem Honest.mono (honest : Honest later) (le : history <+: later) : Honest history :=
  fun before m here => honest before m (here.trans le)

theorem disciplined_nil : Disciplined root [] := by
  intro before m here
  have none := List.prefix_nil.mp here
  simp at none

theorem Disciplined.snoc (disciplined : Disciplined root history)
    (orderly : Honest (history ++ [m]) → m.Orderly root) : Disciplined root (history ++ [m]) := by
  intro before m' here honest
  rcases List.prefix_concat_iff.mp here with last | earlier
  · obtain ⟨rfl, same⟩ := List.append_inj' last rfl
    cases same
    exact orderly honest
  · exact disciplined before m' earlier honest

/-- Nothing more is asked of a history that is not honest. -/
theorem Disciplined.append (disciplined : Disciplined root history) (dishonest : ¬Honest history)
    (more : List Moment) : Disciplined root (history ++ more) := by
  intro before m here honest
  rcases List.prefix_or_prefix_of_prefix here (List.prefix_append history more) with earlier | le
  · exact disciplined before m earlier honest
  · exact (dishonest (honest.mono le)).elim

end Machine

end SecdLisp
