import SecdLisp.Proofs.Transparency.Reaching

/-!
# Macro calls are transparent

A form with a macro call is compiled as the same form with what the call expands to in its place.
What the expansion leaves in the heap is not there yet when the other form is read, so that form has a
copy of it.
-/

namespace SecdLisp

open Parallel World

namespace Compile

variable {ω : Type}

/-- At the point there is a call of a macro that no local name hides, and its expansion runs to a value
and changes no cell. -/
structure MacroCall (q : Point ω) (name : Symbol) (slot : Nat) (args : List Value) (x : Value)
    (t : State ω) : Prop where
  list : q.state.heap.Lists q.expr (.ident name :: args)
  plain : Plain name
  free : q.context.locate? name = none
  defined : q.state.globals.macroSlot? name = some slot
  run : callMacro q.context slot args q.state = .ok x t
  grows : q.state.heap.Grows t.heap

variable {q : Point ω} {name : Symbol} {slot : Nat} {args : List Value} {x : Value} {t : State ω}

theorem MacroCall.compile_eq {room : Nat} (call : MacroCall q name slot args x t)
    (more : q.room = room + 1) :
    q.compile = expansion (expression room) q.context name slot args q.rest q.state := by
  have inspected : (inspect (·.macroSlot? name) : CompileM ω _) q.state = .ok (some slot) q.state :=
    congrArg (EStateM.Result.ok · q.state) call.defined
  rw [Point.compile, more, expression, ← Script.run_expression, Script.run_of_lists call.list,
    Script.compound_of_plain call.plain, Script.run_applied, call.free, bind_of_eq_ok inspected]

/-- What the call expands to is compiled in its place, unless the call meets a limit. -/
theorem MacroCall.compile (call : MacroCall q name slot args x t) :
    Limited q.compile ∨ ∃ record,
      q.compile = expression q.room q.context x q.rest { t with record := record } := by
  cases more : q.room with
  | zero =>
    rw [Point.compile, more]
    exact .inl ⟨_, _, rfl, .nesting⟩
  | succ room =>
    rw [call.compile_eq more]
    by_cases few : q.context.expansions < maxExpansions
    · rw [expansion_eq few, bind_of_eq_ok call.run]
      obtain limited | same := expression_needs (Nat.le_succ room) q.context.expanded
        q.context.expansions x q.rest (Nat.le_succ _)
        { t with record := q.context.recorder.event (.expanded (q.context.name name)) t.record }
      · exact .inl limited
      · exact .inr ⟨_, same⟩
    · exact .inl (limited_expansion (Nat.le_of_not_lt few) _)

end Compile

namespace Parallel

open Compile

variable {ω : Type} {symbols : SymbolTable} {aside : Addr → Prop} {base h t : Heap} {w w₀ : World}
  {twins : Addr → Addr → Prop}

def World.joined (w : World) (more : Addr → Addr → Prop) : World :=
  { w with cells := fun a b => w.cells a b ∨ more a b }

theorem within_joined (w : World) (more : Addr → Addr → Prop) : w.Within (w.joined more) :=
  ⟨fun _ _ => .inl, .refl _, .refl _, Iff.rfl⟩

theorem Within.joined (le : w₀.Within w) (more : Addr → Addr → Prop) :
    (w₀.joined more).Within (w.joined more) :=
  ⟨fun a b => Or.imp_left (le.cells a b), le.left, le.right, le.exact⟩

/-- Of the cells that were added to a heap, some have twins among those that are set aside in another
heap: cells that hold the same. -/
structure Copied (w : World) (aside : Addr → Prop) (twins : Addr → Addr → Prop) (h t base : Heap) :
    Prop where
  added : ∀ a b, twins a b → h.size ≤ a ∧ a < t.size
  aside : ∀ a b, twins a b → aside b
  injective : ∀ a a' b, twins a b → twins a' b → a = a'
  functional : ∀ a b b', twins a b → twins a b' → b = b'
  cars : ∀ a b, twins a b → (w.joined twins).Values (t.car a) (base.car b)
  cdrs : ∀ a b, twins a b → (w.joined twins).Values (t.cdr a) (base.cdr b)

theorem Copied.heaps {s s' : State ω} (copied : Copied w₀ aside twins s.heap t base)
    (besides : Besides symbols aside base w s s') (le : w₀.Within w) (grows : s.heap.Grows t) :
    (w.joined twins).Heaps t s'.heap := by
  have heaps := besides.states.heaps.heaps
  have within := Within.joined le twins
  have old {a b : Addr} (cells : w.cells a b) : t.cell a = s.heap.cell a :=
    grows.cell a (heaps.owned a b cells).1
  have apart {a b b' : Addr} (cells : w.cells a b) (twin : twins a b') : False :=
    Nat.not_lt.mpr (copied.added a b' twin).1 (heaps.owned a b cells).1
  have apart' {a a' b : Addr} (cells : w.cells a b) (twin : twins a' b) : False :=
    besides.apart a b cells (copied.aside a' b twin)
  refine ⟨?_, ?_, ?_, ?_, ?_, fun exact => (besides.loose exact).elim⟩
  · rintro a b (cells | twin)
    · obtain ⟨lt, lt'⟩ := heaps.owned a b cells
      exact ⟨Nat.lt_of_lt_of_le lt grows.size_le, lt'⟩
    · exact ⟨(copied.added a b twin).2, besides.sets.owned b (copied.aside a b twin)⟩
  · rintro a a' b (cells | twin) (cells' | twin')
    · exact heaps.injective a a' b cells cells'
    · exact (apart' cells twin').elim
    · exact (apart' cells' twin).elim
    · exact copied.injective a a' b twin twin'
  · rintro a b b' (cells | twin) (cells' | twin')
    · exact heaps.functional a b b' cells cells'
    · exact (apart cells twin').elim
    · exact (apart cells' twin).elim
    · exact copied.functional a b b' twin twin'
  · rintro a b (cells | twin)
    · rw [Heap.car, old cells]
      exact (heaps.cars a b cells).mono (within_joined w twins)
    · rw [besides.sets.car_eq (copied.aside a b twin)]
      exact (copied.cars a b twin).mono within
  · rintro a b (cells | twin)
    · rw [Heap.cdr, old cells]
      exact (heaps.cdrs a b cells).mono (within_joined w twins)
    · rw [besides.sets.cdr_eq (copied.aside a b twin)]
      exact (copied.cdrs a b twin).mono within

def World.sharing (symbols : SymbolTable) (aside : Addr → Prop) (h : Heap) : World :=
  ⟨fun a b => a = b ∧ a < h.size ∧ ¬aside a, symbols, symbols, False⟩

def Shared (symbols : SymbolTable) (aside : Addr → Prop) (h : Heap) : Value → Prop
  | .ident i => i < symbols.count
  | .pair a => a < h.size ∧ ¬aside a
  | _ => True

instance [DecidablePred aside] : DecidablePred (Shared symbols aside h)
  | .ident i => inferInstanceAs (Decidable (i < symbols.count))
  | .pair a => inferInstanceAs (Decidable (a < h.size ∧ ¬aside a))
  | .nil | .truth | .int _ | .op _ => inferInstanceAs (Decidable True)

theorem Shared.values {v : Value} (shared : Shared symbols aside h v) :
    (World.sharing symbols aside h).Values v v := by
  cases v with
  | nil => exact .nil
  | truth => exact .truth
  | int n => exact .int n
  | ident i => exact .ident ⟨shared, shared, rfl⟩
  | op o => exact .op o
  | pair a => exact .pair ⟨rfl, shared⟩

theorem Shared.avoids {v : Value} (shared : Shared symbols aside h v) : v.Avoids aside := by
  rintro a rfl
  exact shared.2

section Transparency

variable {recorder : Recorder ω} {steps slot : Nat} {s s' s₀ t : State ω} {v v' k x x' : Value}
  {q : Point ω} {name : Symbol} {args : List Value}

end Transparency

end Parallel

end SecdLisp
