import SecdLisp.Proofs.Upkeep.Termination

/-!
# What a compilation leaves behind

A compilation that fails leaves the tables of names as they were, wherever in the form it stopped.
If it expanded no macro, it has changed no cell that was there before, whether it failed or not.
-/

namespace SecdLisp

namespace Compile

theorem follows_starts (first : Heap) (env : Value) :
    Follows starts env fun h runs => runs = [] → first.Grows h where
  adds grows kept none := (kept none).trans grows
  event _ kept := kept
  run _ _ _ _ none := by simp [starts] at none

/-- A compilation that starts no run adds cells to the heap and changes none. -/
theorem grows_of_startedBy {symbols : SymbolTable} {steps : Nat} {expr : Value} {h : Heap}
    {g : Globals} (none : startedBy symbols steps expr h g = []) :
    h.Grows (outcome (toplevel starts symbols steps expr ⟨h, g, []⟩)).2.1 := by
  have ends := ends_program symbols steps expr (s := ⟨h, g, []⟩) (follows_starts h g.env)
    fun _ => .refl h
  unfold startedBy at none
  unfold Ends at ends
  rw [toplevel_eq] at none ⊢
  cases run : program starts symbols steps expr ⟨h, g, []⟩ with
  | ok code t =>
    rw [run] at ends none
    exact ends.2.2 none
  | error e t =>
    rw [run] at ends none
    exact ends.2.2 none

end Compile

namespace Session

open Compile

variable {s : Session} {expr : Value}

theorem ends_compile (steps : Nat) (expr : Value) (s : Session) : Ends (compile steps expr) s
    (fun _ t => t.globals.env = s.globals.env ∧ s.globals.Extends t.globals)
    fun _ t => t.globals = s.globals := by
  obtain ⟨h, symbols, g, log⟩ := s
  have ends := ends_program symbols steps expr (follows_true Log.recorder g.env)
    (s := ⟨h, g, log⟩) trivial
  unfold Ends at ends
  unfold compile Ends
  dsimp only at ends ⊢
  rw [toplevel_eq]
  cases run : program Log.recorder symbols steps expr ⟨h, g, log⟩ with
  | ok code t =>
    rw [run] at ends
    exact ⟨ends.2.1, ends.1⟩
  | error e t =>
    rw [run] at ends
    exact congrArg (Globals.mk · g.functions g.macros) ends.2.1

theorem heap_left_compile (steps : Nat) (expr : Value) (s : Session) :
    (left (compile steps expr) s).heap = (compiled steps expr s).2.1 := by
  unfold left compiled
  cases compile steps expr s <;> rfl

/-- A compilation that fails leaves no trace. The function table and the macro table are the lists
that they were, and the tables of one that succeeds begin with them. If no macro call was run, a
compilation only adds cells, whether it fails or not: the global environment, the cells that there
were and so those of the form are unchanged. -/
theorem compile_traceless (steps : Nat) (expr : Value) (s : Session) :
    (∀ e t, compile steps expr s = .error e t →
      t.globals.functions = s.globals.functions ∧ t.globals.macros = s.globals.macros) ∧
    (∀ code t, compile steps expr s = .ok code t →
      s.globals.functions <+: t.globals.functions ∧ s.globals.macros <+: t.globals.macros) ∧
    (s.InRange → s.Knows expr → startedBy s.symbols steps expr s.heap s.globals = [] →
      let t := left (compile steps expr) s
      t.globals.env = s.globals.env ∧ s.heap.Grows t.heap ∧
        ∀ a, s.heap.Reachable expr a → t.heap.cell a = s.heap.cell a) := by
  have ends := ends_compile steps expr s
  refine ⟨fun e t run => ?_, fun code t run => ?_, fun inRange known none => ⟨?_, ?_⟩⟩
  · have same := ends.of_eq_error run
    exact ⟨congrArg Globals.functions same, congrArg Globals.macros same⟩
  · obtain ⟨_, functions, macros⟩ := ends.of_eq_ok run
    exact ⟨functions, macros⟩
  · exact (ends.mono (fun _ _ added => added.1) fun _ _ same => congrArg Globals.env same).left
  · have grows : s.heap.Grows (left (compile steps expr) s).heap := by
      rw [heap_left_compile, compiled_eq inRange known]
      exact grows_of_startedBy none
    exact ⟨grows, fun a reached => grows.cell a (reached.owned inRange.closed known.owns)⟩

/-- A session that is about to compile a form with an error behind three definitions. -/
def failing : Session :=
  (perform (.read "(list (set a 1) (defm m (x) x) (set b a) (quote))") spacious).1

/-- The three names are given up again, and all that was written is new. -/
theorem compile_failing : failing.InRange ∧ failing.Knows (.pair 18) ∧
    ∃ e t, compile 20 (.pair 18) failing = .error e t ∧
      t.globals.functions = failing.globals.functions ∧
      t.globals.macros = failing.globals.macros ∧ failing.heap.size < t.heap.size ∧
      t.globals.env = failing.globals.env ∧ failing.heap.Grows t.heap := by
  have made : create 64 .quiet = .ok spacious := rfl
  have arises : Arises (fun _ => False) failing := .performed (.read _) (.created made) trivial
  have inRange := inRange_of_arises arises
  have known : failing.Knows (.pair 18) := by decide +kernel
  have none : startedBy failing.symbols 20 (.pair 18) failing.heap failing.globals = [] := by
    decide +kernel
  obtain ⟨names, _, cells⟩ := compile_traceless 20 (.pair 18) failing
  obtain ⟨env, grows, _⟩ := cells inRange known none
  have failed : value? (compile 20 (.pair 18)) failing = Option.none := by decide +kernel
  have longer : failing.heap.size < (left (compile 20 (.pair 18)) failing).heap.size := by
    decide +kernel
  cases run : compile 20 (.pair 18) failing with
  | ok code t => simp [value?, run] at failed
  | error e t =>
    rw [left_of_eq_error run] at env grows longer
    obtain ⟨functions, macros⟩ := names e t run
    exact ⟨inRange, known, e, t, rfl, functions, macros, longer, env, grows⟩

end Session

end SecdLisp
