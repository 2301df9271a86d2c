import SecdLisp.Proofs.Additions
import SecdLisp.Proofs.Run

/-!
# Compiling comes to its end

Expansion may run any code, so how compiling ends depends on the steps that each run is given. But
where all the runs that it starts terminate, there is a number of steps from which on it ends in one
way: the compiler itself never goes round in circles, whatever form it is given.
-/

namespace SecdLisp

namespace Compile

/-- A run that was started while compiling. -/
structure Started where
  symbols : SymbolTable
  env : Value
  code : Value
  heap : Heap

namespace Started

def config (run : Started) : Machine.Config := ⟨Machine.start run.env run.code, run.heap⟩

/-- The run is over after at most that many steps. -/
def Within (steps : Nat) (run : Started) : Prop :=
  Over (Machine.run run.symbols steps run.env run.code run.heap)

instance (steps : Nat) (run : Started) : Decidable (run.Within steps) :=
  inferInstanceAs (Decidable (Over _))

def Terminates (run : Started) : Prop := ∃ steps, run.Within steps

end Started

/-- The record of all runs that were started. -/
def starts : Recorder (List Started) where
  event _ runs := runs
  run symbols _ env code heap runs := runs ++ [⟨symbols, env, code, heap⟩]

def recordOf {α : Type} : EStateM.Result Error (State (List Started)) α → List Started
  | .ok _ s => s.record
  | .error _ s => s.record

/-- The runs that are started when a form is compiled. -/
def startedBy (symbols : SymbolTable) (steps : Nat) (expr : Value) (heap : Heap)
    (globals : Globals) : List Started :=
  recordOf (toplevel starts symbols steps expr ⟨heap, globals, []⟩)

/-- Work of the compiler that depends on the steps that runs are given. -/
abbrev Stepped (α : Type) := Nat → CompileM (List Started) α

/-- From some number of steps on, all runs that the work starts terminate. -/
def Calm {α : Type} (x : Stepped α) (s : State (List Started)) : Prop :=
  ∃ N, ∀ n, N ≤ n → ∀ run ∈ recordOf (x n s), run.Terminates

/-- The work forgets no run. Where all runs are over within the steps that they are given, more
steps change nothing; and if the work is calm, it ends in one way from some number of steps on. -/
structure Settles {α : Type} (x : Stepped α) : Prop where
  grows : ∀ n s, s.record <+: recordOf (x n s)
  settled : ∀ N s, (∀ run ∈ recordOf (x N s), run.Within N) → ∀ n, N ≤ n → x n s = x N s
  settles : ∀ s, Calm x s → ∃ N, Over (x N s) ∧ ∀ n, N ≤ n → x n s = x N s

variable {α β : Type} {x : Stepped α}

theorem settles_const {x : CompileM (List Started) α}
    (ends : ∀ s, Ends x s (fun _ t => s.record <+: t.record)
      fun e t => s.record <+: t.record ∧ e ≠ .outOfSteps) : Settles fun _ => x := by
  have both (s : State (List Started)) : s.record <+: recordOf (x s) ∧ Over (x s) := by
    have ends := ends s
    unfold Ends at ends
    cases run : x s with
    | ok a t =>
      rw [run] at ends
      exact ⟨ends, trivial⟩
    | error e t =>
      rw [run] at ends
      exact ends
  exact ⟨fun _ s => (both s).1, fun _ _ _ _ _ => rfl, fun s _ => ⟨0, (both s).2, fun _ _ => rfl⟩⟩

theorem settles_pure (a : α) : Settles fun _ => pure a :=
  settles_const fun _ => List.prefix_rfl

theorem Settles.bind {f : α → Stepped β} (first : Settles x) (next : ∀ a, Settles (f a)) :
    Settles fun n => x n >>= fun a => f a n := by
  have unfolded (n : Nat) (s : State (List Started)) : (x n >>= fun a => f a n) s =
      match x n s with
      | .ok a t => f a n t
      | .error e t => .error e t := by
    show EStateM.bind _ _ s = _
    unfold EStateM.bind
    cases x n s <;> rfl
  have later (n : Nat) (s : State (List Started)) :
      recordOf (x n s) <+: recordOf ((x n >>= fun a => f a n) s) := by
    rw [unfolded]
    cases x n s with
    | ok a t => exact (next a).grows n t
    | error e t => exact List.prefix_rfl
  refine ⟨fun n s => (first.grows n s).trans (later n s), fun N s within n le => ?_, fun s calm => ?_⟩
  · have same := first.settled N s (fun run mem => within run ((later N s).mem mem)) n le
    rw [unfolded] at within
    rw [unfolded, unfolded, same]
    cases ended : x N s with
    | error e t => rfl
    | ok a t =>
      rw [ended] at within
      exact (next a).settled N t within n le
  obtain ⟨M, calm⟩ := calm
  obtain ⟨N, finished, same⟩ := first.settles s
    ⟨M, fun n le run mem => calm n le run ((later n s).mem mem)⟩
  cases ended : x N s with
  | error e t =>
    rw [ended] at finished same
    refine ⟨N, ?_, fun n le => ?_⟩
    · rw [unfolded, ended]
      exact finished
    · rw [unfolded, unfolded, same n le, ended]
  | ok a t =>
    rw [ended] at same
    have after (n : Nat) (le : N ≤ n) : (x n >>= fun a => f a n) s = f a n t := by
      rw [unfolded, same n le]
    have rest : Calm (f a) t := by
      refine ⟨max M N, fun n le run mem => calm n (Nat.le_trans (Nat.le_max_left ..) le) run ?_⟩
      show run ∈ recordOf ((x n >>= fun a => f a n) s)
      rwa [after n (Nat.le_trans (Nat.le_max_right ..) le)]
    obtain ⟨K, ended', same'⟩ := (next a).settles t rest
    have left := Nat.le_max_left N K
    have right := Nat.le_max_right N K
    refine ⟨max N K, ?_, fun n le => ?_⟩
    · rw [after _ left, same' _ right]
      exact ended'
    · rw [after n (Nat.le_trans left le), after _ left, same' n (Nat.le_trans right le),
        same' _ right]

theorem Settles.foldlM {γ : Type} {f : Nat → γ → α → CompileM (List Started) γ} (xs : List α)
    (c : γ) (body : ∀ c a, Settles fun n => f n c a) : Settles fun n => xs.foldlM (f n) c := by
  induction xs generalizing c with
  | nil => exact settles_pure c
  | cons a xs ih =>
    simp only [List.foldlM_cons]
    exact (body c a).bind ih

theorem settles_onHeap {x : HeapM α}
    (ends : ∀ h, Ends x h (fun _ _ => True) fun e _ => e ≠ .outOfSteps) :
    Settles fun _ => onHeap x := by
  refine settles_const fun s => ?_
  exact Compile.ends_onHeap.mpr ((ends s.heap).mono (fun _ _ _ => List.prefix_rfl)
    fun _ _ other => ⟨List.prefix_rfl, other⟩)

theorem ends_listWithTail (vs : List Value) (tail : Value) (h : Heap) :
    Ends (Heap.listWithTail vs tail) h (fun _ _ => True) fun e _ => e ≠ .outOfSteps := by
  unfold Heap.listWithTail
  suffices ∀ p : Value → Heap → Prop, (∀ v h, p v h) →
      Ends (vs.foldrM Heap.cons tail) h p fun e _ => e ≠ .outOfSteps from this _ fun _ _ => trivial
  induction vs with
  | nil => exact fun p all => all ..
  | cons v vs ih =>
    intro p all
    rw [List.foldrM_cons, ends_bind]
    refine ih _ fun w h => ?_
    rw [Heap.ends_cons]
    exact ⟨fun _ => all .., fun _ => nofun⟩

theorem settles_emit (words : List Value) (k : Value) : Settles fun _ => emit words k :=
  settles_onHeap fun h => ends_listWithTail words k h

theorem settles_list (items : List Value) : Settles fun _ => onHeap (Heap.list items) :=
  settles_onHeap fun h => ends_listWithTail items .nil h

theorem settles_address (depth index : Nat) : Settles fun _ => address depth index :=
  settles_onHeap fun _ => Heap.ends_cons.mpr ⟨fun _ => trivial, fun _ => nofun⟩

theorem settles_fail (form : String) (reason : Malformation) :
    Settles fun _ => (fail form reason : CompileM _ α) :=
  settles_const fun _ => ⟨List.prefix_rfl, nofun⟩

theorem settles_examine (f : Heap → Except CompileError α) : Settles fun _ => examine f := by
  refine settles_const fun s => ?_
  unfold examine Ends
  dsimp only
  cases f s.heap with
  | ok a => exact List.prefix_rfl
  | error cause => exact ⟨List.prefix_rfl, nofun⟩

theorem settles_inspect (f : Globals → α) : Settles fun _ => inspect f :=
  settles_const fun _ => List.prefix_rfl

/-- The context with that many steps for every run. -/
def Context.given {ω : Type} (ctx : Context ω) (steps : Nat) : Context ω := { ctx with steps }

/-- Where a name stands does not depend on the steps. -/
theorem Context.locate?_given {ω : Type} (ctx : Context ω) (steps : Nat) (name : Symbol) :
    (ctx.given steps).locate? name = ctx.locate? name := rfl

def SettlesPart (part : Part (List Started)) : Prop :=
  ∀ (ctx : Context (List Started)) (v k : Value), ctx.recorder = starts →
    Settles fun n => part (ctx.given n) v k

variable {ctx : Context (List Started)} {name : Symbol} {v k : Value} {args : List Value}

section Records

variable (own : ctx.recorder = starts)

include own

theorem settles_report (e : Event) : Settles fun n => report (ctx.given n) e := by
  refine settles_const (x := report ctx e) fun s => ?_
  rw [Ends, report, own]
  exact List.prefix_rfl

theorem settles_define (table : Table) (name : Symbol) :
    Settles fun n => define table (ctx.given n) name := by
  have ends (s : State (List Started)) : Ends (define table ctx name) s
      (fun _ t => s.record <+: t.record) fun e t => s.record <+: t.record ∧ e ≠ .outOfSteps := by
    rw [Compile.ends_define, own]
    exact List.prefix_rfl
  cases table <;> exact settles_const ends

theorem runNow_given (code : Value) (n : Nat) (s : State (List Started)) :
    runNow (ctx.given n) code s =
      match Machine.run ctx.symbols n s.globals.env code s.heap with
      | .ok v h => .ok v
        ⟨h, s.globals, s.record ++ [⟨ctx.symbols, s.globals.env, code, s.heap⟩]⟩
      | .error e h => .error e
        ⟨h, s.globals, s.record ++ [⟨ctx.symbols, s.globals.env, code, s.heap⟩]⟩ := by
  obtain ⟨h, g, record⟩ := s
  rw [runNow, Context.given, own]
  rfl

/-- A run settles at the number of steps that it takes. -/
theorem settles_runNow (code : Value) : Settles fun n => runNow (ctx.given n) code := by
  have unfolded := runNow_given own code
  have recorded (n : Nat) (s : State (List Started)) : recordOf (runNow (ctx.given n) code s) =
      s.record ++ [⟨ctx.symbols, s.globals.env, code, s.heap⟩] := by
    rw [unfolded]
    split <;> rfl
  have here (n : Nat) (s : State (List Started)) :
      ⟨ctx.symbols, s.globals.env, code, s.heap⟩ ∈ recordOf (runNow (ctx.given n) code s) := by
    rw [recorded]
    simp
  have same (N n : Nat) (s : State (List Started)) (le : N ≤ n)
      (finished : Started.Within N ⟨ctx.symbols, s.globals.env, code, s.heap⟩) :
      runNow (ctx.given n) code s = runNow (ctx.given N) code s := by
    have more : Machine.run ctx.symbols n s.globals.env code s.heap =
        Machine.run ctx.symbols N s.globals.env code s.heap := Machine.runFrom_of_le finished le
    rw [unfolded, unfolded, more]
  refine ⟨fun n s => ?_, fun N s within n le => same N n s le (within _ (here N s)), fun s calm => ?_⟩
  · rw [recorded]
    exact List.prefix_append ..
  · obtain ⟨N, calm⟩ := calm
    obtain ⟨steps, finished⟩ := calm N (Nat.le_refl N) _ (here N s)
    refine ⟨steps, ?_, fun n le => same steps n s le finished⟩
    rw [unfolded]
    unfold Started.Within at finished
    dsimp only at finished
    generalize Machine.run ctx.symbols steps s.globals.env code s.heap = result at finished ⊢
    cases result with
    | ok => exact trivial
    | error => exact finished

end Records

section Forms

variable {part : Part (List Started)} (parts : SettlesPart part) (own : ctx.recorder = starts)

include parts own

theorem settles_arguments (args : List Value) (k : Value) :
    Settles fun n => arguments part (ctx.given n) args k :=
  (Settles.foldlM (f := fun n code arg => do part (ctx.given n) arg (← emit [.op .cons] code)) args k
    fun code arg => (settles_emit _ code).bind fun code => parts ctx arg code own).bind
    fun code => settles_emit _ code

theorem settles_builtin (b : Builtin) (args : List Value) (k : Value) :
    Settles fun n => builtin part (ctx.given n) b args k := by
  unfold builtin
  by_cases count : args.length != b.arity
  · simp only [count, if_true]
    exact settles_fail (ctx.name b.symbol) _
  · simp only [count]
    exact (settles_emit _ k).bind fun code =>
      Settles.foldlM args code fun code arg => parts ctx arg code own

theorem settles_application (head : Value) (args : List Value) (k : Value) :
    Settles fun n => application part (ctx.given n) head args k :=
  (settles_emit _ k).bind fun code => (parts ctx head code own).bind fun code =>
    settles_arguments parts own args code

theorem settles_body (frame : Frame) (expr : Value) :
    Settles fun n => body part (ctx.given n) frame expr :=
  (settles_emit _ .nil).bind fun code => parts (ctx.within frame) expr code own

theorem settles_function (args : List Value) (k : Value) :
    Settles fun n => function part (ctx.given n) args k := by
  unfold function
  split
  next parameters expr =>
    exact (settles_examine (Frame.ofParameters · ctx.symbols "fn" parameters)).bind fun frame =>
      (settles_body parts own frame expr).bind fun code => settles_emit [.op .ldf, code] k
  next => exact settles_fail _ _

theorem settles_branch (expr : Value) : Settles fun n => branch part (ctx.given n) expr :=
  (settles_emit _ .nil).bind fun code => parts ctx expr code own

theorem settles_conditional (args : List Value) (k : Value) :
    Settles fun n => conditional part (ctx.given n) args k := by
  have whole (x y z : Value) : Settles fun n => conditional part (ctx.given n) [x, y, z] k :=
    (settles_branch parts own y).bind fun code => (settles_branch parts own z).bind fun code' =>
      (settles_emit [.op .sel, code, code'] k).bind fun k => parts ctx x k own
  rcases args with _ | ⟨test, _ | ⟨consequent, _ | ⟨alternative, _ | ⟨_, _⟩⟩⟩⟩
  · exact settles_fail _ _
  · exact settles_fail _ _
  · exact whole test consequent .nil
  · exact whole test consequent alternative
  · exact settles_fail _ _

theorem settles_binding (args : List Value) (k : Value) :
    Settles fun n => binding part (ctx.given n) args k :=
  (settles_examine _).bind fun (frame, values, expr) =>
    (settles_body parts own frame expr).bind fun code =>
      (settles_emit [.op .ldf, code, .op .ap] k).bind fun k =>
        settles_arguments parts own values k

theorem settles_recursiveBinding (args : List Value) (k : Value) :
    Settles fun n => recursiveBinding part (ctx.given n) args k :=
  (settles_examine _).bind fun (frame, values, expr) =>
    (settles_body parts own frame expr).bind fun code =>
      (settles_emit [.op .ldf, code, .op .rap] k).bind fun k =>
        have inside : (ctx.within frame).recorder = starts := own
        (settles_arguments parts inside values k).bind fun k => settles_emit [.op .dum] k

omit parts own in
theorem settles_target (form : String) (v : Value) :
    Settles fun n => target (ctx.given n) form v := by
  cases v with
  | ident name =>
    unfold target
    dsimp only
    split
    · exact settles_fail form (.reservedTarget (ctx.name name))
    · exact settles_pure name
  | _ => exact settles_fail _ _

theorem settles_assignment (args : List Value) (k : Value) :
    Settles fun n => assignment part (ctx.given n) args k := by
  unfold assignment
  split
  next name expr =>
    refine (settles_target "set" name).bind fun name => ?_
    have finish (place : Value) : Settles fun n => (do
        part (ctx.given n) expr (← emit [.op .st, place] k)) :=
      (settles_emit _ k).bind fun code => parts ctx expr code own
    simp only [Context.locate?_given]
    split
    · exact (settles_fail "set" (.restAssignment (ctx.name name))).bind finish
    · exact (settles_address _ _).bind finish
    · exact (settles_define own .functions name).bind fun slot =>
        (settles_address (ctx.globalDepth Globals.functionDepth) slot).bind finish
  next => exact settles_fail _ _

theorem settles_definition (args : List Value) (k : Value) :
    Settles fun n => definition part (ctx.given n) args k := by
  unfold definition
  split
  next name parameters expr =>
    exact (settles_target "defm" name).bind fun name =>
      (settles_examine (Frame.ofParameters · ctx.symbols "defm" parameters)).bind fun frame =>
        (settles_body parts own frame expr).bind fun code =>
          (settles_define own .macros name).bind fun slot =>
            (settles_address (ctx.globalDepth Globals.macroDepth) slot).bind fun place =>
              settles_emit [.op .ldf, code, .op .st, place] k
  next => exact settles_fail _ _

theorem settles_expansion (name : Symbol) (slot : Nat) (args : List Value) (k : Value) :
    Settles fun n => expansion part (ctx.given n) name slot args k := by
  unfold expansion
  by_cases deep : maxExpansions ≤ ctx.expansions
  · have deep (n : Nat) : maxExpansions ≤ (ctx.given n).expansions := deep
    simp only [deep, if_true]
    exact settles_fail (ctx.name name) _
  · have deep (n : Nat) : ¬maxExpansions ≤ (ctx.given n).expansions := deep
    simp only [deep, if_false]
    exact (settles_list args).bind fun list => (settles_address _ slot).bind fun place =>
      (settles_list _).bind fun code => (settles_runNow own code).bind fun result =>
        (settles_report own (.expanded (ctx.name name))).bind fun _ =>
          parts ctx.expanded result k own

theorem settles_named (name : Symbol) (args : List Value) (k : Value) :
    Settles fun n => named part (ctx.given n) name args k := by
  unfold named
  split
  · exact settles_function parts own args k
  · exact settles_conditional parts own args k
  · exact settles_binding parts own args k
  · exact settles_recursiveBinding parts own args k
  · unfold quotation
    split
    · exact settles_emit _ k
    · exact settles_fail _ _
  · exact settles_assignment parts own args k
  · exact settles_definition parts own args k
  · split
    · exact settles_arguments parts own args k
    · split
      · exact settles_builtin parts own _ args k
      · refine (settles_inspect _).bind fun slot => ?_
        simp only [Context.locate?_given]
        split
        · exact settles_expansion parts own name _ args k
        · exact settles_application parts own (.ident name) args k

end Forms

theorem settles_identifier (name : Symbol) (k : Value) :
    Settles fun n => identifier (ctx.given n) name k := by
  have load (o : Opcode) (depth index : Nat) :
      Settles fun _ => (do emit [.op o, ← address depth index] k : CompileM _ Value) :=
    (settles_address depth index).bind fun place => settles_emit _ k
  unfold identifier
  simp only [Context.locate?_given]
  split
  · exact load _ _ _
  · exact load _ _ _
  · refine (settles_inspect _).bind fun slot => ?_
    split
    · exact load .ld (ctx.globalDepth Globals.functionDepth) _
    · exact settles_const (x := throw (.compile (.unknownIdentifier (ctx.name name))))
        fun _ => ⟨List.prefix_rfl, nofun⟩

theorem settles_whole {part : Part (List Started)} (parts : SettlesPart part) :
    SettlesPart (whole part) := by
  intro ctx v k own
  cases v with
  | nil => exact settles_emit _ k
  | ident name => exact settles_identifier name k
  | pair a =>
    refine (settles_onHeap fun h => Heap.ends_read.mpr trivial).bind fun p => ?_
    obtain ⟨head, args⟩ := p
    cases args with
    | none => exact settles_fail _ _
    | some args =>
      cases head with
      | ident name => exact settles_named parts own name args k
      | pair b => exact settles_application parts own (.pair b) args k
      | _ => exact settles_fail _ _
  | _ => exact settles_emit _ k

theorem settles_expression (room : Nat) : SettlesPart (expression room) := by
  induction room with
  | zero => exact fun _ _ _ _ => settles_fail _ _
  | succ room ih => exact settles_whole ih

/-- A top-level form, where no names are taken back if it does not compile. -/
def form (symbols : SymbolTable) (expr : Value) : Stepped Value := fun n =>
  program starts symbols n expr

theorem settles_form (symbols : SymbolTable) (expr : Value) : Settles (form symbols expr) :=
  (settles_emit _ .nil).bind fun code =>
    settles_expression maxNesting ⟨symbols, 0, starts, [], 0⟩ expr code rfl

theorem toplevel_eq_form (symbols : SymbolTable) (expr : Value) (n : Nat)
    (s : State (List Started)) : toplevel starts symbols n expr s =
      match form symbols expr n s with
      | .ok code t => .ok code t
      | .error e t => .error e
        { t with globals := ⟨t.globals.env, s.globals.functions, s.globals.macros⟩ } := by
  rw [toplevel_eq]
  unfold form
  cases program starts symbols n expr s <;> rfl

theorem settles_toplevel (symbols : SymbolTable) (expr : Value) :
    Settles fun n => toplevel starts symbols n expr := by
  have recorded (n : Nat) (s : State (List Started)) :
      recordOf (toplevel starts symbols n expr s) = recordOf (form symbols expr n s) := by
    rw [toplevel_eq_form]
    cases form symbols expr n s <;> rfl
  refine ⟨fun n s => ?_, fun N s within n le => ?_, fun s calm => ?_⟩
  · rw [recorded]
    exact (settles_form symbols expr).grows n s
  · rw [recorded] at within
    rw [toplevel_eq_form, toplevel_eq_form, (settles_form symbols expr).settled N s within n le]
  · obtain ⟨M, calm⟩ := calm
    obtain ⟨N, finished, same⟩ := (settles_form symbols expr).settles s
      ⟨M, fun n le run mem => calm n le run (by rwa [recorded])⟩
    refine ⟨N, ?_, fun n le => ?_⟩
    · rw [toplevel_eq_form]
      cases ended : form symbols expr N s with
      | ok => exact trivial
      | error e t =>
        rw [ended] at finished
        exact finished
    · rw [toplevel_eq_form, toplevel_eq_form, same n le]

end Compile

end SecdLisp
