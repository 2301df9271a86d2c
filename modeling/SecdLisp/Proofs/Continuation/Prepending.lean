import SecdLisp.Proofs.Continuation.Compile
import SecdLisp.Proofs.Linking.Grammar

/-!
# Code is put in front of what follows it

What an expression is compiled in front of makes no difference to its code. In front of two
continuations it takes the same cells with the same words, and only the last of them tells which of
the two it was.
-/

namespace SecdLisp

namespace Compile

variable {ω : Type} {ctx : Context ω} {room : Nat} {s : State ω} {v k k' : Value} {args : List Value}

/-- Two heaps with code in front of `k` in the first one and in front of `k'` in the second. Its cells
are new, and they hold the same words. All other cells are the same in both heaps, and so all that the
words lead to is. -/
structure Prefixes (old : Heap) (k k' code code' : Value) (cells : List Addr) (h h' : Heap) :
    Prop where
  new : ∀ a ∈ cells, old.size ≤ a
  path : Reference.Path h code cells k
  path' : Reference.Path h' code' cells k'
  words : ∀ a ∈ cells, h'.car a = h.car a
  apart : ∀ a ∈ cells, ∀ b, h.Reachable (h.car a) b → b ∉ cells
  others : ∀ a, a ∉ cells → h'.cell a = h.cell a

/-- The same work in front of `k` and in front of `k'` ends alike. -/
inductive Prepends (s : State ω) (k k' : Value) :
    EStateM.Result Error (State ω) Value → EStateM.Result Error (State ω) Value → Prop where
  | ok {code code' : Value} {cells : List Addr} {t t' : State ω}
    (prefixes : Prefixes s.heap k k' code code' cells t.heap t'.heap)
    (size : t'.heap.size = t.heap.size) (globals : t'.globals = t.globals) :
    Prepends s k k' (.ok code t) (.ok code' t')
  | error {e : Error} {t t' : State ω} (size : t'.heap.size = t.heap.size)
    (globals : t'.globals = t.globals) : Prepends s k k' (.error e t) (.error e t')

open Front

theorem prepends_of_lockstep {r r' : EStateM.Result Error (State ω) Value}
    (lockstep : Lockstep (Sides k k') true ⟨[], s.heap.size⟩ (fun f => Codes k k' f true) r r') :
    Prepends s k k' r r' := by
  cases lockstep with
  | @ok f _ _ t t' moves sides codes =>
    have twins := sides.heaps
    cases codes with
    | front =>
      refine .ok ⟨?_, twins.path, twins.path', fun a _ => twins.car a, ?_, ?_⟩ twins.size_eq
        sides.globals
      · intro a mem
        obtain before | new := moves.new a mem
        · cases before
        · exact new
      · intro a _ b reached
        exact (twins.outside_of_reachable (twins.cars a) reached b rfl).2
      · exact fun a out => twins.cell_eq out
  | error _ sides => exact .error sides.heaps.size_eq sides.globals

/-- Compiling only puts code in front of its continuation. It does not depend on what the continuation
is. -/
theorem only_prepends (closed : s.heap.Closed) (env : s.heap.Owns s.globals.env)
    (expr : s.heap.Owns v) (items : ∀ w ∈ args, s.heap.Owns w) (k k' : Value) :
    Prepends s k k' (expression room ctx v k s) (expression room ctx v k' s) ∧
    Prepends s k k' (arguments (expression room) ctx args k s)
      (arguments (expression room) ctx args k' s) ∧
    Prepends s k k' (application (expression room) ctx v args k s)
      (application (expression room) ctx v args k' s) := by
  let f : Front := ⟨[], s.heap.size⟩
  have outside {u : Value} (owned : s.heap.Owns u) : f.Outside u :=
    fun a eq => ⟨owned a eq, List.not_mem_nil⟩
  have sides : Sides k k' f s s := ⟨twins_refl closed k k', rfl, outside env⟩
  have codes : Codes k k' f true k k' := .front
  have parts : PartSteps k k' (expression room : Compile.Part ω) := partSteps_expression k k' room
  have items' : ∀ w ∈ args, f.Outside w := fun w mem => outside (items w mem)
  refine ⟨?_, ?_, ?_⟩
  · exact prepends_of_lockstep (parts (outside expr) codes s s sides)
  · exact prepends_of_lockstep (steps_arguments parts items' codes s s sides)
  · exact prepends_of_lockstep (steps_application parts items' codes (outside expr) s s sides)

section Example

open Linking

/-- A recursive binding in front of a number and in front of nothing. In its body a macro is called. -/
theorem only_prepends_recursive : (state recursive).heap.Closed ∧
    (state recursive).heap.Owns (state recursive).globals.env ∧
    (state recursive).heap.Owns (.pair 42) ∧
    (∀ w ∈ [.pair 42, .int 3], (state recursive).heap.Owns w) ∧
    value? (expression 20 around (.pair 42) (.int 7)) (state recursive) = some (.pair 94) ∧
    Prepends (state recursive) (.int 7) .nil
      (expression 20 around (.pair 42) (.int 7) (state recursive))
      (expression 20 around (.pair 42) .nil (state recursive)) ∧
    Prepends (state recursive) (.int 7) .nil
      (arguments (expression 20) around [.pair 42, .int 3] (.int 7) (state recursive))
      (arguments (expression 20) around [.pair 42, .int 3] .nil (state recursive)) ∧
    Prepends (state recursive) (.int 7) .nil
      (application (expression 20) around (.pair 42) [.pair 42, .int 3] (.int 7) (state recursive))
      (application (expression 20) around (.pair 42) [.pair 42, .int 3] .nil (state recursive)) := by
  have closed := closed_state inRange_recursive
  have env := owns_state inRange_recursive
  have expr : (state recursive).heap.Owns (.pair 42) := by
    have lt : 42 < (state recursive).heap.size := by decide +kernel
    exact fun a eq => Value.pair.inj eq ▸ lt
  have items : ∀ w ∈ [.pair 42, .int 3], (state recursive).heap.Owns w := by
    simp only [List.forall_mem_cons]
    exact ⟨expr, nofun, nofun⟩
  have succeeds : value? (expression 20 around (.pair 42) (.int 7)) (state recursive) =
      some (.pair 94) := by decide +kernel
  exact ⟨closed, env, expr, items, succeeds, only_prepends closed env expr items _ _⟩

end Example

end Compile

end SecdLisp
