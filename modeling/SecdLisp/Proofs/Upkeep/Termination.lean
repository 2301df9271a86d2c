import SecdLisp.Proofs.Parallel.Restored
import SecdLisp.Proofs.Settling
import SecdLisp.Proofs.Upkeep.Chains

/-!
# Walks and compilations end

Where every chain ends before a run, every chain ends before each of its instructions; and where
every chain ends before a form is compiled, this holds of all runs that expand its macros. The
compiler itself ends if these runs do, as it goes no deeper than it is allowed to.
-/

namespace SecdLisp

namespace Heap

/-- Every chain ends, and the walks along what the heap has are not cut short. -/
def Unwound (names : Nat) (h : Heap) : Prop :=
  ∀ v, ∃ as last, h.Chain v as last ∧ (h.Knows names v → h.Walked v as last)

theorem unwound_of_unwinds {names : Nat} {h : Heap} (sound : h.Sound names)
    (all : ∀ v, h.Unwinds v) : h.Unwound names := by
  intro v
  obtain ⟨as, last, chain⟩ := all v
  exact ⟨as, last, chain, chain.walked sound⟩

end Heap

namespace Compile

open Heap

variable {names : Nat}

/-- A run starts from what its heap has, and every chain of that heap ends. -/
structure Started.Orderly (names : Nat) (run : Started) : Prop where
  sound : run.heap.Sound names
  env : run.heap.Knows names run.env
  code : run.heap.Knows names run.code
  all : ∀ v, run.heap.Unwinds v

theorem Started.Orderly.passes {run : Started} (orderly : run.Orderly names) {c : Machine.Config}
    (passes : Machine.Passes run.symbols run.config c) :
    c.heap.Unwound names ∧ c.heap.Bears names c.registers := by
  have bears : run.heap.Bears names (Machine.start run.env run.code) :=
    ⟨trivial, orderly.env, orderly.code, trivial⟩
  obtain ⟨changes, sound, bears⟩ :=
    Machine.bears_of_passes (c := run.config) orderly.sound bears passes
  exact ⟨unwound_of_unwinds sound (changes.unwinds orderly.sound orderly.all), bears⟩

/-- While a form is compiled, every chain ends, and all runs so far were orderly. -/
theorem tracks_orderly (names : Nat) : Tracks names starts fun h runs =>
    (∀ v, h.Unwinds v) ∧ ∀ run ∈ runs, run.Orderly names where
  changes sound changes kept := ⟨changes.unwinds sound kept.1, kept.2⟩
  event _ kept := kept
  run symbols _ sound env code kept := by
    refine ⟨kept.1, List.forall_mem_append.mpr ⟨kept.2, ?_⟩⟩
    exact List.forall_mem_singleton.mpr ⟨sound, env, code, kept.1⟩

theorem orderly_of_startedBy {symbols : SymbolTable} {steps : Nat} {expr : Value} {h : Heap}
    {g : Globals} (sound : h.Sound symbols.count) (tables : g.Within h.size symbols.count)
    (known : h.Knows symbols.count expr) (all : ∀ v, h.Unwinds v) :
    ∀ run ∈ startedBy symbols steps expr h g, run.Orderly symbols.count := by
  have ends := keeps_toplevel (s := ⟨h, g, []⟩) (tracks_orderly symbols.count) steps known
    (Reading.wellKnown_le_count symbols) _ ⟨rfl, sound, tables, all, by simp⟩
  unfold startedBy
  unfold Ends at ends
  generalize toplevel starts symbols steps expr ⟨h, g, []⟩ = result at ends ⊢
  cases result with
  | ok code s =>
    obtain ⟨_, _, ⟨rfl, _, _, kept⟩, _⟩ := ends
    exact kept.2
  | error e s =>
    obtain ⟨_, _, ⟨rfl, _, _, kept⟩, _⟩ := ends
    exact kept.2

def outcome {ω α : Type} : EStateM.Result Error (State ω) α → Except Error α × Heap × Globals
  | .ok a s => (.ok a, s.heap, s.globals)
  | .error e s => (.error e, s.heap, s.globals)

end Compile

namespace Session

open Compile Heap Machine Parallel World

variable {s : Session} {expr : Value}

/-- What compiling a form comes to, apart from the log. -/
def compiled (steps : Nat) (expr : Value) (s : Session) : Except Error Value × Heap × Globals :=
  match compile steps expr s with
  | .ok code s => (.ok code, s.heap, s.globals)
  | .error e s => (.error e, s.heap, s.globals)

/-- What is put on record makes no difference to what is compiled. -/
theorem compiled_eq_outcome {ω : Type} (inRange : s.InRange) (known : s.Knows expr)
    (recorder : Recorder ω) (record : ω) (steps : Nat) : compiled steps expr s =
      outcome (toplevel recorder s.symbols steps expr ⟨s.heap, s.globals, record⟩) := by
  have states := onSessions_diagonal inRange
  have agree := sim_toplevel Log.recorder recorder steps (diagonal_values known)
    ⟨s.heap, s.globals, s.log⟩ ⟨s.heap, s.globals, record⟩ ⟨states.heaps, states.globals⟩
  obtain ⟨h, symbols, g, log⟩ := s
  unfold compiled compile
  dsimp only at agree ⊢
  generalize toplevel Log.recorder symbols steps expr ⟨h, g, log⟩ = left at agree ⊢
  generalize toplevel recorder symbols steps expr ⟨h, g, record⟩ = right at agree ⊢
  -- Both sides are the same session, so what corresponds afterwards is the same.
  cases agree with
  | ok le after values =>
    have exact := le.exact.mpr trivial
    have heaps := after.heaps.heaps
    dsimp only [outcome]
    rw [values.eq_of_exact heaps exact, (heaps.exact exact).1, after.globals.eq_of_exact heaps exact]
  | error le after errors =>
    have exact := le.exact.mpr trivial
    have heaps := after.heaps.heaps
    dsimp only [outcome]
    rw [errors.eq_of_exact heaps exact, (heaps.exact exact).1, after.globals.eq_of_exact heaps exact]
  | leftFull loose => exact (loose trivial).elim
  | rightFull loose => exact (loose trivial).elim

theorem compiled_eq (inRange : s.InRange) (known : s.Knows expr) (steps : Nat) :
    compiled steps expr s =
      outcome (toplevel starts s.symbols steps expr ⟨s.heap, s.globals, []⟩) :=
  compiled_eq_outcome inRange known starts [] steps

/-- In a session that operations lead to, without images from elsewhere, no chain is cyclic; nor is
one before any instruction of a run of any code, or of a run that expands a macro. So the walks
along lists end, and a form compiles to one outcome if all runs that it starts terminate. -/
theorem arises_unwound (arises : Arises (fun _ => False) s) :
    s.heap.Unwound s.symbols.count ∧
    (∀ code c, s.Knows code → Passes s.symbols ⟨start s.globals.env code, s.heap⟩ c →
      c.heap.Unwound s.symbols.count ∧ c.heap.Bears s.symbols.count c.registers) ∧
    ∀ expr, s.Knows expr →
      (∀ steps, ∀ run ∈ startedBy s.symbols steps expr s.heap s.globals, ∀ c,
        Passes run.symbols run.config c →
          c.heap.Unwound s.symbols.count ∧ c.heap.Bears s.symbols.count c.registers) ∧
      ((∃ M, ∀ steps, M ≤ steps →
          ∀ run ∈ startedBy s.symbols steps expr s.heap s.globals, run.Terminates) →
        ∃ N, (compiled N expr s).1 ≠ .error .outOfSteps ∧
          ∀ steps, N ≤ steps → compiled steps expr s = compiled N expr s) := by
  obtain ⟨inRange, all⟩ := unwinds_of_arises arises
  obtain ⟨sound, tables⟩ := inRange_iff.mp inRange
  refine ⟨unwound_of_unwinds sound all, fun code c known passes => ?_, fun expr known => ⟨?_, ?_⟩⟩
  · have orderly : Started.Orderly s.symbols.count ⟨s.symbols, s.globals.env, code, s.heap⟩ :=
      ⟨sound, tables.env, knows_iff.mp known, all⟩
    exact orderly.passes passes
  · intro steps run mem c passes
    exact (orderly_of_startedBy sound tables (knows_iff.mp known) all run mem).passes passes
  · intro calm
    obtain ⟨N, finished, same⟩ := (settles_toplevel s.symbols expr).settles _ calm
    refine ⟨N, ?_, fun steps le => ?_⟩
    · rw [compiled_eq inRange known]
      generalize toplevel starts s.symbols N expr ⟨s.heap, s.globals, []⟩ = result at finished ⊢
      cases result with
      | ok code t => exact nofun
      | error e t => exact fun eq => finished (Except.error.inj eq)
    · rw [compiled_eq inRange known, compiled_eq inRange known, same steps le]

/-- A session with room for more cells than `fresh` has. -/
def spacious : Session :=
  ⟨⟨fresh.heap.cells, 64, by decide, by decide⟩, .initial, fresh.globals, .empty .quiet⟩

/-- A session where `(defm m () 7)` was put together by hand, and evaluated. -/
def armed : Session :=
  [.intern "m", .cons (.int 7) .nil, .cons .nil (.pair 2), .cons (.ident 24) (.pair 3),
    .cons (.ident 7) (.pair 4), .eval 3 (.pair 5)].foldl (fun s op => (perform op s).1) spacious

theorem arises_armed : Arises (fun _ => False) armed :=
  have made : create 64 .quiet = .ok spacious := rfl
  have named := Arises.performed (.intern "m") (.created made) trivial
  have body := named.performed (.cons (.int 7) .nil) ⟨trivial, trivial⟩
  have formals := body.performed (.cons .nil (.pair 2)) ⟨trivial, by decide⟩
  have name := formals.performed (.cons (.ident 24) (.pair 3)) ⟨by decide +kernel, by decide⟩
  have form := name.performed (.cons (.ident 7) (.pair 4)) ⟨by decide +kernel, by decide⟩
  form.performed (.eval 3 (.pair 5)) (by decide : Knows _ (.pair 5))

/-- The call `(m)` after it was defined. -/
def called : Session := (perform (.cons (.ident 24) .nil) armed).1

theorem called_unwound : called.heap.Unwound called.symbols.count ∧
    startedBy called.symbols 6 (.pair 18) called.heap called.globals ≠ [] ∧
    ∃ N, (compiled N (.pair 18) called).1 ≠ .error .outOfSteps ∧
      ∀ steps, N ≤ steps → compiled steps (.pair 18) called = compiled N (.pair 18) called := by
  have arises : Arises (fun _ => False) called :=
    arises_armed.performed (.cons (.ident 24) .nil) ⟨by decide +kernel, trivial⟩
  obtain ⟨unwound, _, compiles⟩ := arises_unwound arises
  have within : ∀ run ∈ startedBy called.symbols 6 (.pair 18) called.heap called.globals,
      run.Within 6 := by decide +kernel
  have known : called.Knows (.pair 18) := by decide +kernel
  refine ⟨unwound, by decide +kernel, (compiles (.pair 18) known).2 ⟨6, fun steps le run mem => ?_⟩⟩
  -- The run is over after six steps, so no run is different if it is given more.
  have same := (settles_toplevel called.symbols (.pair 18)).settled 6 _ within steps le
  rw [startedBy, same] at mem
  exact ⟨6, within run mem⟩

end Session

end SecdLisp
