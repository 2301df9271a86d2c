import SecdLisp.Proofs.Compiling
import SecdLisp.Proofs.Reference.Steps
import SecdLisp.Proofs.Run
import SecdLisp.Session.Basic

/-!
# Forms that evaluate

To say of a form what it evaluates to, without side effects, is to say it for every place that it
can have in a larger form: it is compiled in front of any continuation, when cells were added for
other parts, and its code runs on any stack and dump, when cells were added by other code. What is
known of the value must not be lost when more cells are added. Quotations and calls of `cons`
evaluate where their parts do, whatever the names in scope are.
-/

namespace SecdLisp

namespace Heap

variable {h h' h₀ h₁ h₂ : Heap}

/-- A heap still has the cells that were added between two others. -/
structure Keeps (h₀ h₁ h : Heap) : Prop where
  size_le : h₁.size ≤ h.size
  cell : ∀ a, h₀.size ≤ a → a < h₁.size → h.cell a = h₁.cell a

theorem Grows.keeps (grows : h₁.Grows h) (h₀ : Heap) : Keeps h₀ h₁ h :=
  ⟨grows.size_le, fun a _ => grows.cell a⟩

theorem Keeps.later (keeps : Keeps h₀ h₁ h) (grows : h.Grows h') : Keeps h₀ h₁ h' where
  size_le := Nat.le_trans keeps.size_le grows.size_le
  cell a le lt := by
    rw [grows.cell a (Nat.lt_of_lt_of_le lt keeps.size_le), keeps.cell a le lt]

theorem Keeps.first (keeps : Keeps h₀ h₂ h) (grows : h₁.Grows h₂) : Keeps h₀ h₁ h where
  size_le := Nat.le_trans grows.size_le keeps.size_le
  cell a le lt := by
    rw [keeps.cell a le (Nat.lt_of_lt_of_le lt grows.size_le), grows.cell a lt]

theorem Keeps.second (keeps : Keeps h₀ h₂ h) (grows : h₀.Grows h₁) : Keeps h₁ h₂ h :=
  ⟨keeps.size_le, fun a le => keeps.cell a (Nat.le_trans grows.size_le le)⟩

def between (h₀ h₁ : Heap) (a : Addr) : Option Cell :=
  if h₀.size ≤ a ∧ a < h₁.size then some (h₁.cell a) else none

theorem Keeps.holds (keeps : Keeps h₀ h₁ h) : Reference.Holds (h₀.between h₁) h := by
  intro a c here
  unfold between at here
  split at here
  next both =>
    cases here
    exact keeps.cell a both.1 both.2
  next => cases here

end Heap

namespace Compile

open Reference (Leads Words)

variable {ω : Type}

/-- Where a form is evaluated: the context in which it is compiled, the cells and the global names
that there are by then, and the environment and the heaps in which it is run. -/
structure Scene (ω : Type) where
  context : Context ω
  heap : Heap
  globals : Globals
  env : Value
  Runs : Heap → Prop
  lasts : ∀ {h h'}, Runs h → h.Grows h' → Runs h'

/-- The machine has come to a continuation with a value on the stack, and has only added cells. -/
def Yields (means : Value → Heap → Prop) (h : Heap) (S E k D : Value) (r : Registers) (h' : Heap) :
    Prop :=
  h.Grows h' ∧ ∃ (a : Addr) (v : Value), a < h'.size ∧ r = ⟨.pair a, E, k, D⟩ ∧
    h'.cell a = ⟨v, S⟩ ∧ means v h'

/-- The form, which nests at most that many levels, evaluates without side effects to a value that
is what `means` says, unless there is no room. -/
def Evaluates (scene : Scene ω) (levels : Nat) (means : Value → Heap → Prop) (x : Value) : Prop :=
  ∀ (room : Nat) (k : Value) (st : State ω), levels ≤ room → scene.heap.Grows st.heap →
    st.globals = scene.globals → Ends (expression room scene.context x k) st
      (fun c st' => st.heap.Grows st'.heap ∧ st'.globals = scene.globals ∧
        ∀ S D h, scene.Runs h → Heap.Keeps st.heap st'.heap h →
          Leads scene.context.symbols (Yields means h S scene.env k D) ⟨S, scene.env, c, D⟩ h)
      fun e _ => e = .heapFull

/-- What is known of a value stays true when cells are added. -/
def Lasts (means : Value → Heap → Prop) : Prop :=
  ∀ v h h', means v h → h.Grows h' → means v h'

theorem listWithTail_ends (ws : List Value) (k : Value) (h : Heap) :
    Ends (Heap.listWithTail ws k) h
      (fun c h' => h.Grows h' ∧ Words (h.between h') ws k c) fun e _ => e = .heapFull := by
  have fails : Ends (Heap.listWithTail ws k) h (fun _ _ => True) fun e _ => e = .heapFull := by
    induction ws with
    | nil => trivial
    | cons w ws ih =>
      rw [Heap.listWithTail, List.foldrM_cons, ends_bind]
      refine ih.mono ?_ fun _ _ => id
      intro c h₁ _
      rw [Heap.ends_cons]
      exact ⟨fun _ => trivial, fun _ => rfl⟩
  cases run : Heap.listWithTail ws k h with
  | ok c h' =>
    obtain ⟨grows, words⟩ := Reference.listWithTail_words run
    rw [Ends, run]
    exact ⟨grows, words _ fun a le lt => if_pos ⟨le, lt⟩⟩
  | error e h' =>
    rw [Ends, run]
    exact fails.of_eq_error run

/-- Putting words in front of a continuation adds cells, and no names. -/
theorem ends_emit (ws : List Value) (k : Value) (st : State ω) : Ends (emit ws k) st
    (fun c st' => st.heap.Grows st'.heap ∧ st'.globals = st.globals ∧
      Words (st.heap.between st'.heap) ws k c) fun e _ => e = .heapFull := by
  rw [emit, ends_onHeap]
  exact (listWithTail_ends ws k st.heap).mono (fun _ _ ends => ⟨ends.1, rfl, ends.2⟩) fun _ _ => id

theorem ends_address (depth index : Nat) (st : State ω) : Ends (address depth index) st
    (fun v st' => st.heap.Grows st'.heap ∧ st'.globals = st.globals ∧ ∃ a, v = .pair a ∧
      st.heap.size ≤ a ∧ a < st'.heap.size ∧
      st'.heap.cell a = ⟨.int (Int64.ofNat depth), .int (Int64.ofNat index)⟩)
    fun e _ => e = .heapFull := by
  rw [address, ends_onHeap, Heap.ends_cons]
  refine ⟨fun room => ?_, fun _ => rfl⟩
  refine ⟨Heap.grows_grown _ _ room, rfl, st.heap.size, rfl, Nat.le_refl _, ?_, ?_⟩
  · simp
  · exact Heap.cell_grown_size _ _ room

theorem whole_eq_named {part : Part ω} {ctx : Context ω} {name : Symbol} {x : Value}
    {args : List Value} {st : State ω} (items : st.heap.Lists x (.ident name :: args)) (k : Value) :
    whole part ctx x k st = named part ctx name args k st := by
  obtain ⟨a, rfl, _, head, others⟩ := items.uncons
  have seen : onHeap (Heap.read fun h => (h.car a, h.toList? (h.cdr a))) st =
      .ok (.ident name, some args) st := by
    show EStateM.Result.ok (st.heap.car a, st.heap.toList? (st.heap.cdr a)) st = _
    rw [head, others.toList?]
  exact bind_of_eq_ok seen

variable {scene : Scene ω} {levels levels' : Nat} {means means' : Value → Heap → Prop}
  {x y z : Value}

theorem Evaluates.mono (evaluates : Evaluates scene levels means x) (le : levels ≤ levels')
    (imp : ∀ v h, means v h → means' v h) : Evaluates scene levels' means' x := by
  intro room k st enough grows same
  refine (evaluates room k st (Nat.le_trans le enough) grows same).mono ?_ fun _ _ => id
  rintro c st' ⟨grows', same', leads⟩
  refine ⟨grows', same', fun S D h runs keeps => (leads S D h runs keeps).trans ?_⟩
  rintro r h' ⟨grows'', a, v, owned, here, top, known⟩
  exact .here ⟨grows'', a, v, owned, here, top, imp v h' known⟩

theorem yields_grown {v S E k D : Value} {h : Heap} (room : h.size < h.capacity)
    (known : means v (h.grown ⟨v, S⟩ room)) :
    Yields means h S E k D ⟨.pair h.size, E, k, D⟩ (h.grown ⟨v, S⟩ room) :=
  ⟨Heap.grows_grown .., h.size, v, by simp, rfl, by simp, known⟩

theorem evaluates_emit {words : List Value}
    (compiles : ∀ room k (st : State ω), scene.heap.Grows st.heap →
      expression (room + 1) scene.context x k st = emit words k st)
    (leads : ∀ {code k c S D h}, Reference.Holds code h → Words code words k c →
      Leads scene.context.symbols (Yields means h S scene.env k D) ⟨S, scene.env, c, D⟩ h) :
    Evaluates scene 1 means x := by
  intro room k st enough grows same
  obtain ⟨room, rfl⟩ := Nat.exists_eq_add_one.mpr enough
  rw [Ends, compiles room k st grows]
  refine (ends_emit words k st).mono ?_ fun _ _ => id
  rintro c st' ⟨grows', same', words⟩
  exact ⟨grows', same'.trans same, fun S D h _ keeps => leads keeps.holds words⟩

theorem evaluates_nil : Evaluates scene 1 (fun v _ => v = .nil) .nil :=
  evaluates_emit (fun _ _ _ _ => rfl) fun held words =>
    Reference.leads_nil held words fun room => .here (yields_grown room rfl)

theorem evaluates_quote (items : scene.heap.Lists x [.ident .quote, y]) :
    Evaluates scene 1 (fun v _ => v = y) x :=
  evaluates_emit (fun _ k _ grows => whole_eq_named (items.mono grows) k) fun held words =>
    Reference.leads_ldc held words fun room => .here (yields_grown room rfl)

/-- Where the environment has the value of a name: in a lexical frame, or else in the global one. -/
def Scene.place? (scene : Scene ω) (name : Symbol) : Option Place :=
  match scene.context.locate? name with
  | some place => some place
  | none => (scene.globals.functionSlot? name).map fun slot =>
    ⟨scene.context.globalDepth Globals.functionDepth, slot, .plain name⟩

theorem Scene.place?_pos {name : Symbol} {place : Place} (here : scene.place? name = some place) :
    0 < place.depth ∧ 0 < place.index := by
  unfold Scene.place? at here
  split at here
  next found =>
    cases here
    have bounds := locate?_bounds found
    exact ⟨bounds.1.1, bounds.2.1⟩
  next =>
    obtain ⟨slot, found, rfl⟩ := Option.map_eq_some_iff.mp here
    obtain ⟨i, -, rfl⟩ := Option.map_eq_some_iff.mp found
    exact ⟨Nat.succ_pos _, Nat.succ_pos i⟩

theorem identifier_eq {name : Symbol} {place : Place} {st : State ω}
    (here : scene.place? name = some place) (same : st.globals = scene.globals) (k : Value) :
    identifier scene.context name k st = (do
      let v ← address place.depth place.index
      emit [.op (Reference.loadCode place.formal), v] k : CompileM ω Value) st := by
  unfold Scene.place? at here
  rw [identifier]
  split at here
  next found =>
    cases here
    rw [found]
    obtain ⟨depth, index, formal⟩ := place
    cases formal <;> rfl
  next missing =>
    obtain ⟨slot, found, rfl⟩ := Option.map_eq_some_iff.mp here
    rw [missing]
    rw [← same] at found
    have seen : inspect (·.functionSlot? name) st = .ok (some slot) st := by
      show EStateM.Result.ok (st.globals.functionSlot? name) st = _
      rw [found]
    exact bind_of_eq_ok seen

theorem evaluates_name {name : Symbol} {place : Place} {w : Value}
    (here : scene.place? name = some place) (few : place.depth < 2 ^ 63 ∧ place.index < 2 ^ 63)
    (bound : ∀ h, scene.Runs h →
      Reference.loaded? h scene.env place.depth place.index place.formal = some w) :
    Evaluates scene 1 (fun v _ => v = w) (.ident name) := by
  intro room k st enough _ same
  obtain ⟨room, rfl⟩ := Nat.exists_eq_add_one.mpr enough
  have compiles : expression (room + 1) scene.context (.ident name) k st = (do
      let v ← address place.depth place.index
      emit [.op (Reference.loadCode place.formal), v] k : CompileM ω Value) st :=
    identifier_eq here same k
  rw [Ends, compiles]
  show Ends _ st _ _
  rw [ends_bind]
  refine (ends_address place.depth place.index st).mono ?_ fun _ _ => id
  rintro _ st₁ ⟨grows₁, same₁, a, rfl, new, owned, cell⟩
  refine (ends_emit _ k st₁).mono ?_ fun _ _ => id
  rintro c st₂ ⟨grows₂, same₂, words⟩
  refine ⟨grows₁.trans grows₂, same₂.trans (same₁.trans same), fun S D h runs keeps => ?_⟩
  have spelled := Machine.address?_of_cell (((keeps.first grows₂).cell a new owned).trans cell)
    (Scene.place?_pos here) few
  have held := (keeps.second grows₁).holds
  exact Reference.leads_load held words spelled (bound h runs) fun room =>
    .here (yields_grown room rfl)

/-- A call of `cons` evaluates to a new pair. The last operand is evaluated first. -/
theorem Evaluates.cons (items : scene.heap.Lists x [.ident .cons, y, z])
    (first : Evaluates scene levels means y) (second : Evaluates scene levels' means' z)
    (lasts : Lasts means) (lasts' : Lasts means') : Evaluates scene (max levels levels' + 1)
      (fun v h => ∃ a < h.size, v = .pair a ∧ means (h.car a) h ∧ means' (h.cdr a) h) x := by
  intro room k st enough grows same
  obtain ⟨room, rfl⟩ := Nat.exists_eq_add_of_le' (Nat.le_trans (Nat.le_add_left ..) enough)
  have compiles : expression (room + 1) scene.context x k st = (do
      let c₀ ← emit [.ident .cons] k
      let c₁ ← expression room scene.context y c₀
      expression room scene.context z c₁ : CompileM ω Value) st := by
    refine (whole_eq_named (items.mono grows) k).trans ?_
    show builtin (expression room) scene.context .cons [y, z] k st = _
    rw [builtin]
    simp
    rfl
  rw [Ends, compiles]
  show Ends _ st _ _
  rw [ends_bind]
  refine (ends_emit [.ident .cons] k st).mono ?_ fun _ _ => id
  rintro c₀ st₀ ⟨grows₀, same₀, words⟩
  rw [ends_bind]
  refine (first room c₀ st₀ (by omega) (grows.trans grows₀) (same₀.trans same)).mono ?_
    fun _ _ => id
  rintro c₁ st₁ ⟨grows₁, same₁, leads₁⟩
  refine (second room c₁ st₁ (by omega) (grows.trans (grows₀.trans grows₁)) same₁).mono ?_
    fun _ _ => id
  rintro c₂ st₂ ⟨grows₂, same₂, leads₂⟩
  refine ⟨grows₀.trans (grows₁.trans grows₂), same₂, fun S D h runs keeps => ?_⟩
  refine (leads₂ S D h runs (keeps.second (grows₀.trans grows₁))).trans ?_
  rintro _ h₁ ⟨grown, b, w, owned, rfl, below, known⟩
  have keeps₁ := ((keeps.later grown).first grows₂).second grows₀
  refine (leads₁ (.pair b) D h₁ (scene.lasts runs grown) keeps₁).trans ?_
  rintro _ h₂ ⟨grown', a, v, _, rfl, top, known'⟩
  have operands : Reference.Operands h₂ S [v, w] (.pair a) :=
    ⟨a, _, rfl, top, b, _, rfl, (grown'.cell b owned).trans below, rfl⟩
  have held := ((keeps.later (grown.trans grown')).first (grows₁.trans grows₂)).holds
  refine Reference.leads_builtin (b := .cons) held words operands ?_
  show Ends (Heap.cons v w) h₂ _ _
  rw [Heap.ends_cons]
  refine ⟨fun room room' => .here ?_, fun _ => rfl⟩
  have grows₃ := Heap.grows_grown h₂ ⟨v, w⟩ room
  have grows₄ := Heap.grows_grown _ ⟨.pair h₂.size, S⟩ room'
  have pair := grows₄.cell h₂.size (by simp)
  rw [Heap.cell_grown_size] at pair
  refine ⟨grown.trans (grown'.trans (grows₃.trans grows₄)), _, _, by simp, rfl,
    Heap.cell_grown_size .., h₂.size, Nat.lt_of_lt_of_le (by simp) grows₄.size_le, rfl, ?_, ?_⟩
  · rw [Heap.car, pair]
    exact lasts _ _ _ known' (grows₃.trans grows₄)
  · rw [Heap.cdr, pair]
    exact lasts' _ _ _ known (grown'.trans (grows₃.trans grows₄))

end Compile

namespace Reference

open Machine

variable {symbols : SymbolTable} {goal : Registers → Heap → Prop} {p : Value → Heap → Prop}
  {r : Registers} {h : Heap}

/-- With enough steps a run gets to where the machine is led, and from there it goes on. -/
theorem Leads.runs (leads : Leads symbols goal r h)
    (last : ∀ r h, goal r h → ∃ n, ∀ steps ≥ n, Ends (runFrom symbols steps r) h p OutOfRoom) :
    ∃ n, ∀ steps ≥ n, Ends (runFrom symbols steps r) h p OutOfRoom := by
  induction leads with
  | here reached => exact last _ _ reached
  | step run _ ih =>
    obtain ⟨n, enough⟩ := ih
    refine ⟨n + 1, fun steps le => ?_⟩
    obtain ⟨m, rfl⟩ := Nat.exists_eq_add_one.mpr (Nat.lt_of_lt_of_le (Nat.succ_pos n) le)
    rw [Ends, runFrom_succ, run]
    exact enough m (Nat.le_of_succ_le_succ le)
  | full run =>
    refine ⟨1, fun steps le => ?_⟩
    obtain ⟨m, rfl⟩ := Nat.exists_eq_add_one.mpr le
    rw [Ends, runFrom_succ, run]
    exact rfl

/-- A run that comes to HALT with a value on the stack ends in it. -/
theorem runs_halt {code : Addr → Option Cell} {a : Addr} {v S E c D : Value}
    (held : Holds code h) (words : Words code [.op .halt] .nil c) (top : h.cell a = ⟨v, S⟩)
    (known : p v h) : ∃ n, ∀ steps ≥ n,
      Ends (runFrom symbols steps ⟨.pair a, E, c, D⟩) h p OutOfRoom := by
  refine ⟨1, fun steps le => ?_⟩
  obtain ⟨m, rfl⟩ := Nat.exists_eq_add_one.mpr le
  obtain _ | ⟨here, rest⟩ := words
  cases rest
  have cell := held _ _ here
  rw [runFrom, ends_bind, ends_step]
  simp only [operand, fetch, ends_bind, ends_split, ends_pure, Heap.car, Heap.cdr, cell, dispatch,
    Heap.ends_read, Heap.carOf?, Value.addr?, Option.map_some, Option.getD_some, top]
  exact known

end Reference

namespace Session

open Compile Reference

variable {s : Session} {steps levels : Nat} {x : Value} {means : Value → Heap → Prop}

def scene (s : Session) (steps : Nat) : Scene Log where
  context := ⟨s.symbols, steps, Log.recorder, [], 0⟩
  heap := s.heap
  globals := s.globals
  env := s.globals.env
  Runs := s.heap.Grows
  lasts := Heap.Grows.trans

theorem ends_program_of_evaluates (evaluates : Evaluates (s.scene steps) levels means x)
    (enough : levels ≤ maxNesting) :
    Ends (program Log.recorder s.symbols steps x) ⟨s.heap, s.globals, s.log⟩
      (fun code st => s.heap.Grows st.heap ∧ st.globals = s.globals ∧ ∃ n, ∀ steps ≥ n,
        Ends (Machine.run s.symbols steps s.globals.env code) st.heap
          (fun v h => st.heap.Grows h ∧ means v h) OutOfRoom)
      fun e _ => e = .heapFull := by
  rw [program, ends_bind]
  refine (ends_emit [.op .halt] .nil _).mono ?_ fun _ _ => id
  rintro k st ⟨grows, same, words⟩
  refine (evaluates _ k st enough grows same).mono ?_ fun _ _ => id
  rintro c st' ⟨grows', same', leads⟩
  refine ⟨grows.trans grows', same', ?_⟩
  refine (leads .nil .nil st'.heap (grows.trans grows') ((Heap.Grows.refl _).keeps _)).runs ?_
  rintro _ h' ⟨grows'', a, v, _, rfl, top, known⟩
  exact runs_halt ((grows'.trans grows'').keeps _).holds words top ⟨grows'', known⟩

/-- A form that evaluates is compiled, and then run with enough steps, unless there is no room. -/
theorem ends_compile_of_evaluates (evaluates : Evaluates (s.scene steps) levels means x)
    (enough : levels ≤ maxNesting) : Ends (compile steps x) s
      (fun code s₁ => s.heap.Grows s₁.heap ∧ s₁.symbols = s.symbols ∧ s₁.globals = s.globals ∧
        ∃ n, ∀ steps ≥ n, Ends (run steps code) s₁
          (fun v s₂ => s₁.heap.Grows s₂.heap ∧ s₂.symbols = s.symbols ∧ s₂.globals = s.globals ∧
            means v s₂.heap)
          fun e _ => e = .heapFull)
      fun e _ => e = .heapFull := by
  have ends := ends_program_of_evaluates evaluates enough
  obtain ⟨h, symbols, globals, log⟩ := s
  unfold Ends Session.compile toplevel at *
  dsimp only at ends ⊢
  cases compiled : program Log.recorder symbols steps x ⟨h, globals, log⟩ with
  | error e st =>
    rw [compiled] at ends
    exact ends
  | ok code st =>
    rw [compiled] at ends
    obtain ⟨grows, same, n, runs⟩ := ends
    refine ⟨grows, rfl, same, n, fun steps enough => ?_⟩
    have runs := runs steps enough
    unfold Session.run
    dsimp only
    rw [same]
    cases ran : Machine.run symbols steps globals.env code st.heap with
    | ok v h' =>
      have ⟨grows', known⟩ := Ends.of_eq_ok runs ran
      exact ⟨grows', rfl, rfl, known⟩
    | error e h' => exact Ends.of_eq_error runs ran

end Session

end SecdLisp
