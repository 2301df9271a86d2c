import SecdLisp.Proofs.Additions
import SecdLisp.Proofs.Parallel.Formals
import SecdLisp.Proofs.Parallel.Machine

/-!
# The compiler on both sides

Corresponding forms in corresponding scopes are compiled to corresponding code, or are refused
for the same reason. The records of the two compilations need not correspond.
-/

namespace SecdLisp

namespace Parallel

open World Compile

variable {ω ω' : Type} {left right : SymbolTable} {w w' : World} {v v' k k' : Value}

structure World.Tables (w : World) (g g' : Globals) : Prop where
  env : w.Values g.env g'.env
  functions : List.Forall₂ w.Names g.functions g'.functions
  macros : List.Forall₂ w.Names g.macros g'.macros

theorem World.Tables.mono {g g' : Globals} (tables : w.Tables g g') (le : w.Within w') :
    w'.Tables g g' :=
  ⟨tables.env.mono le, tables.functions.imp fun _ _ names => names.mono le,
    tables.macros.imp fun _ _ names => names.mono le⟩

theorem World.Tables.eq_of_exact {g g' : Globals} {h h' : Heap} (heaps : w.Heaps h h')
    (exact : w.exact) (tables : w.Tables g g') : g = g' := by
  have names {table table' : List Symbol} (all : List.Forall₂ w.Names table table') :
      table = table' := by
    rw [← List.forall₂_eq_eq_eq]
    exact all.imp fun _ _ names => names.eq_of_exact heaps exact
  obtain ⟨env, functions, macros⟩ := g
  obtain ⟨env', functions', macros'⟩ := g'
  obtain rfl : env = env' := tables.env.eq_of_exact heaps exact
  obtain rfl : functions = functions' := names tables.functions
  obtain rfl : macros = macros' := names tables.macros
  rfl

structure OnStates (left right : SymbolTable) (w : World) (s : State ω) (s' : State ω') : Prop where
  heaps : OnHeaps left right w s.heap s'.heap
  globals : w.Tables s.globals s'.globals

structure Contexts (left right : SymbolTable) (w : World) (ctx : Context ω) (ctx' : Context ω') :
    Prop where
  left : ctx.symbols = left
  right : ctx'.symbols = right
  steps : ctx.steps = ctx'.steps
  scopes : w.Scopes ctx.scopes ctx'.scopes
  expansions : ctx.expansions = ctx'.expansions

variable {ctx : Context ω} {ctx' : Context ω'}

theorem Contexts.mono (contexts : Contexts left right w ctx ctx') (le : w.Within w') :
    Contexts left right w' ctx ctx' :=
  ⟨contexts.left, contexts.right, contexts.steps, World.Scopes.mono contexts.scopes le,
    contexts.expansions⟩

theorem Contexts.within (contexts : Contexts left right w ctx ctx') {f f' : Frame}
    (frames : w.Frames f f') : Contexts left right w (ctx.within f) (ctx'.within f') :=
  ⟨contexts.left, contexts.right, contexts.steps, .cons frames contexts.scopes,
    contexts.expansions⟩

theorem Contexts.expanded (contexts : Contexts left right w ctx ctx') :
    Contexts left right w ctx.expanded ctx'.expanded :=
  ⟨contexts.left, contexts.right, contexts.steps, contexts.scopes,
    congrArg (· + 1) contexts.expansions⟩

theorem Contexts.depth_eq (contexts : Contexts left right w ctx ctx') (depth : Nat) :
    ctx.globalDepth depth = ctx'.globalDepth depth := by
  rw [Context.globalDepth, Context.globalDepth, contexts.scopes.length_eq]

theorem Contexts.name_eq (contexts : Contexts left right w ctx ctx')
    (pinned : w.left = left ∧ w.right = right) {i j : Symbol} (names : w.Names i j) :
    ctx.name i = ctx'.name j := by
  obtain ⟨rfl, rfl⟩ := pinned
  rw [Context.name, Context.name, contexts.left, contexts.right, names.same]

section State

variable {α β : Type} {Q : World → α → β → Prop}

theorem sim_known {x : CompileM ω α} {y : CompileM ω' β}
    (sim : w.left = left ∧ w.right = right → Sim (OnStates left right) w Q x y) :
    Sim (OnStates left right) w Q x y := by
  intro s s' states
  exact sim ⟨states.heaps.left, states.heaps.right⟩ s s' states

theorem sim_onHeap {x : HeapM α} {y : HeapM β} (sim : Sim (OnHeaps left right) w Q x y) :
    Sim (OnStates left right) w Q (onHeap x : CompileM ω α) (onHeap y : CompileM ω' β) := by
  intro s s' states
  obtain ⟨h, g, record⟩ := s
  obtain ⟨h', g', record'⟩ := s'
  have agree := sim h h' states.heaps
  unfold onHeap
  dsimp only
  generalize x h = r at agree ⊢
  generalize y h' = r' at agree ⊢
  cases agree with
  | ok le heaps values => exact .ok le ⟨heaps, states.globals.mono le⟩ values
  | error le heaps errors => exact .error le ⟨heaps, states.globals.mono le⟩ errors
  | leftFull loose => exact .leftFull loose
  | rightFull loose => exact .rightFull loose

theorem sim_fail {form form' : String} {m m' : Malformation} (forms : form = form')
    (reasons : m = m') :
    Sim (OnStates left right) w Q (fail form m : CompileM ω α) (fail form' m' : CompileM ω' β) := by
  subst forms reasons
  exact .throw (.other rfl)

theorem sim_examine {f : Heap → Except CompileError α} {f' : Heap → Except CompileError β}
    (checks : ∀ h h', w.left = left ∧ w.right = right → w.Heaps h h' → Checks (Q w) (f h) (f' h')) :
    Sim (OnStates left right) w Q (examine f : CompileM ω α) (examine f' : CompileM ω' β) := by
  intro s s' states
  have checked := checks s.heap s'.heap ⟨states.heaps.left, states.heaps.right⟩ states.heaps.heaps
  unfold examine
  generalize f s.heap = x at checked ⊢
  generalize f' s'.heap = y at checked ⊢
  cases checked with
  | ok values => exact .ok (.refl w) states values
  | error e => exact .error (.refl w) states (.other rfl)

theorem sim_inspect {f : Globals → α} {f' : Globals → β}
    (same : ∀ g g', w.Tables g g' → Q w (f g) (f' g')) :
    Sim (OnStates left right) w Q (inspect f : CompileM ω α) (inspect f' : CompileM ω' β) := by
  intro s s' states
  exact .ok (.refl w) states (same _ _ states.globals)

theorem sim_report (e e' : Event) :
    Sim (OnStates left right) w (fun _ _ _ => True) (report ctx e) (report ctx' e') := by
  intro s s' states
  exact .ok (.refl w) ⟨states.heaps, states.globals⟩ trivial

end State

theorem sim_emit {ws ws' : List Value} (words : List.Forall₂ w.Values ws ws')
    (rest : w.Values k k') :
    Sim (OnStates left right) w World.Values (emit ws k : CompileM ω Value)
      (emit ws' k' : CompileM ω' Value) := sim_onHeap (sim_listWithTail words rest)

theorem sim_address {depth index depth' index' : Nat} (first : depth = depth')
    (second : index = index') :
    Sim (OnStates left right) w World.Values (address depth index : CompileM ω Value)
      (address depth' index' : CompileM ω' Value) := by
  subst first second
  exact sim_onHeap (sim_cons (.int _) (.int _))

theorem defineIn_rel {t t' : List Symbol} {i j : Symbol} (tables : List.Forall₂ w.Names t t')
    (names : w.Names i j) : (Globals.defineIn t i).1 = (Globals.defineIn t' j).1 ∧
      List.Forall₂ w.Names (Globals.defineIn t i).2 (Globals.defineIn t' j).2 := by
  unfold Globals.defineIn
  rw [slotIn?_eq tables names]
  cases Globals.slotIn? t' j with
  | some slot => exact ⟨rfl, tables⟩
  | none => exact ⟨by simp [tables.length_eq], List.rel_append tables (.cons names .nil)⟩

theorem sim_define (table : Table) {i j : Symbol} (names : w.Names i j) :
    Sim (OnStates left right) w (fun _ => Eq) (define table ctx i) (define table ctx' j) := by
  intro s s' states
  obtain ⟨env, functions, macros⟩ := states.globals
  rw [define_eq, define_eq]
  cases table with
  | functions =>
    obtain ⟨same, tables⟩ := defineIn_rel functions names
    exact .ok (.refl w) ⟨states.heaps, env, tables, macros⟩ same
  | macros =>
    obtain ⟨same, tables⟩ := defineIn_rel macros names
    exact .ok (.refl w) ⟨states.heaps, env, functions, tables⟩ same

theorem sim_runNow (contexts : Contexts left right w ctx ctx') (code : w.Values v v') :
    Sim (OnStates left right) w World.Values (runNow ctx v) (runNow ctx' v') := by
  intro s s' states
  have ran : Sim (OnHeaps left right) w World.Values (Machine.run left ctx.steps s.globals.env v)
      (Machine.run right ctx.steps s'.globals.env v') := sim_run ctx.steps states.globals.env code
  rw [runNow_eq, runNow_eq, contexts.left, contexts.right, ← contexts.steps]
  exact sim_onHeap ran _ _ ⟨states.heaps, states.globals⟩

def Parts (left right : SymbolTable) (part : Compile.Part ω) (part' : Compile.Part ω') : Prop :=
  ∀ (w : World) (ctx : Context ω) (ctx' : Context ω') (v v' k k' : Value),
    Contexts left right w ctx ctx' → w.Values v v' → w.Values k k' →
      Sim (OnStates left right) w World.Values (part ctx v k) (part' ctx' v' k')

section Forms

variable {part : Compile.Part ω} {part' : Compile.Part ω'} (parts : Parts left right part part')
  (contexts : Contexts left right w ctx ctx') {args args' : List Value}
  (items : List.Forall₂ w.Values args args') (rest : w.Values k k')

include parts contexts items rest

theorem sim_arguments :
    Sim (OnStates left right) w World.Values (arguments part ctx args k)
      (arguments part' ctx' args' k') := by
  have conses : Sim (OnStates left right) w World.Values
      (args.foldlM (fun code arg => do part ctx arg (← emit [.op .cons] code)) k)
      (args'.foldlM (fun code arg => do part' ctx' arg (← emit [.op .cons] code)) k') := by
    refine Sim.foldlM items (fun _ _ _ le values => values.mono le) rest ?_
    intro w₁ code code' arg arg' le codes values
    refine (sim_emit (.cons (.op _) .nil) codes).bind ?_
    intro w₂ c c' le₂ codes
    exact parts w₂ _ _ _ _ _ _ ((contexts.mono le).mono le₂) (values.mono le₂) codes
  refine conses.bind ?_
  intro w₁ code code' le codes
  exact sim_emit (.cons (.op _) .nil) codes

theorem sim_builtinForm (b : Builtin) :
    Sim (OnStates left right) w World.Values (builtin part ctx b args k)
      (builtin part' ctx' b args' k') := by
  unfold builtin
  have known := w.names_wellKnown (i := b.symbol) (by cases b <;> decide)
  have rest : Sim (OnStates left right) w World.Values
      (do args.foldlM (fun code arg => part ctx arg code) (← emit [.ident b.symbol] k))
      (do args'.foldlM (fun code arg => part' ctx' arg code) (← emit [.ident b.symbol] k')) := by
    refine (sim_emit (.cons (.ident known) .nil) rest).bind ?_
    intro w₁ code code' le codes
    refine Sim.foldlM (items.imp fun _ _ values => values.mono le)
      (fun _ _ _ le values => values.mono le) codes ?_
    intro w₂ code code' arg arg' le₂ codes values
    exact parts w₂ _ _ _ _ _ _ ((contexts.mono le).mono le₂) values codes
  rw [items.length_eq]
  split
  · refine sim_known fun pinned => ?_
    exact sim_fail (contexts.name_eq pinned known) rfl
  · exact rest

end Forms

section Forms

variable {part : Compile.Part ω} {part' : Compile.Part ω'} (parts : Parts left right part part')
  (contexts : Contexts left right w ctx ctx') {args args' : List Value}
  (items : List.Forall₂ w.Values args args') (rest : w.Values k k')

include parts contexts rest items in
theorem sim_application (head : w.Values v v') :
    Sim (OnStates left right) w World.Values (application part ctx v args k)
      (application part' ctx' v' args' k') := by
  refine (sim_emit (.cons (.op _) .nil) rest).bind ?_
  intro w₁ c c' le₁ codes
  refine (parts w₁ _ _ _ _ _ _ (contexts.mono le₁) (head.mono le₁) codes).bind ?_
  intro w₂ c c' le₂ codes
  refine sim_arguments parts ((contexts.mono le₁).mono le₂) ?_ codes
  exact items.imp fun _ _ values => (values.mono le₁).mono le₂

include parts contexts in
theorem sim_body {f f' : Frame} (frames : w.Frames f f') (values : w.Values v v') :
    Sim (OnStates left right) w World.Values (body part ctx f v) (body part' ctx' f' v') := by
  refine (sim_emit (.cons (.op _) .nil) .nil).bind ?_
  intro w₁ c c' le₁ codes
  exact parts w₁ _ _ _ _ _ _ ((contexts.within frames).mono le₁) (values.mono le₁) codes

include contexts in
theorem sim_parameters (form : String) (values : w.Values v v') :
    Sim (OnStates left right) w World.Frames
      (examine (Frame.ofParameters · ctx.symbols form v) : CompileM ω Frame)
      (examine (Frame.ofParameters · ctx'.symbols form v') : CompileM ω' Frame) := by
  rw [contexts.left, contexts.right]
  exact sim_examine fun h h' pinned heaps => ofParameters_checks pinned heaps values

include parts contexts items rest in
theorem sim_function :
    Sim (OnStates left right) w World.Values (function part ctx args k)
      (function part' ctx' args' k') := by
  rcases items with _ | ⟨parameters, _ | ⟨expr, _ | ⟨_, _⟩⟩⟩
  · exact sim_fail rfl rfl
  · exact sim_fail rfl rfl
  · refine (sim_parameters contexts "fn" parameters).bind ?_
    intro w₁ f f' le₁ frames
    refine (sim_body parts (contexts.mono le₁) frames (expr.mono le₁)).bind ?_
    intro w₂ c c' le₂ codes
    exact sim_emit (.cons (.op _) (.cons codes .nil)) ((rest.mono le₁).mono le₂)
  · exact sim_fail rfl rfl

include parts contexts in
theorem sim_branch (values : w.Values v v') :
    Sim (OnStates left right) w World.Values (branch part ctx v) (branch part' ctx' v') := by
  refine (sim_emit (.cons (.op _) .nil) .nil).bind ?_
  intro w₁ c c' le₁ codes
  exact parts w₁ _ _ _ _ _ _ (contexts.mono le₁) (values.mono le₁) codes

include parts contexts items rest in
theorem sim_conditional :
    Sim (OnStates left right) w World.Values (conditional part ctx args k)
      (conditional part' ctx' args' k') := by
  have whole {x x' y y' z z' : Value} (test : w.Values x x') (consequent : w.Values y y')
      (alternative : w.Values z z') : Sim (OnStates left right) w World.Values
      (conditional part ctx [x, y, z] k) (conditional part' ctx' [x', y', z'] k') := by
    refine (sim_branch parts contexts consequent).bind ?_
    intro w₁ b b' le₁ first
    refine (sim_branch parts (contexts.mono le₁) (alternative.mono le₁)).bind ?_
    intro w₂ c c' le₂ second
    refine (sim_emit (.cons (.op _) (.cons (first.mono le₂) (.cons second .nil)))
      ((rest.mono le₁).mono le₂)).bind ?_
    intro w₃ d d' le₃ codes
    exact parts w₃ _ _ _ _ _ _ (((contexts.mono le₁).mono le₂).mono le₃)
      (((test.mono le₁).mono le₂).mono le₃) codes
  rcases items with _ | ⟨test, _ | ⟨consequent, _ | ⟨alternative, _ | ⟨_, _⟩⟩⟩⟩
  · exact sim_fail rfl rfl
  · exact sim_fail rfl rfl
  · exact whole test consequent .nil
  · exact whole test consequent alternative
  · exact sim_fail rfl rfl

include parts contexts items rest in
theorem sim_binding :
    Sim (OnStates left right) w World.Values (binding part ctx args k)
      (binding part' ctx' args' k') := by
  refine (sim_examine fun h h' _ heaps => ofBindings_checks heaps items).bind ?_
  intro w₁ p q le₁ bindings
  refine (sim_body parts (contexts.mono le₁) bindings.frames bindings.body).bind ?_
  intro w₂ c c' le₂ codes
  refine (sim_emit (.cons (.op _) (.cons codes (.cons (.op _) .nil)))
    ((rest.mono le₁).mono le₂)).bind ?_
  intro w₃ d d' le₃ codes
  refine sim_arguments parts (((contexts.mono le₁).mono le₂).mono le₃) ?_ codes
  exact bindings.values.imp fun _ _ values => (values.mono le₂).mono le₃

include parts contexts items rest in
theorem sim_recursiveBinding :
    Sim (OnStates left right) w World.Values (recursiveBinding part ctx args k)
      (recursiveBinding part' ctx' args' k') := by
  refine (sim_examine fun h h' _ heaps => ofBindings_checks heaps items).bind ?_
  intro w₁ p q le₁ bindings
  refine (sim_body parts (contexts.mono le₁) bindings.frames bindings.body).bind ?_
  intro w₂ c c' le₂ codes
  refine (sim_emit (.cons (.op _) (.cons codes (.cons (.op _) .nil)))
    ((rest.mono le₁).mono le₂)).bind ?_
  intro w₃ d d' le₃ codes
  have inner := (((contexts.mono le₁).within bindings.frames).mono le₂).mono le₃
  refine (sim_arguments parts inner (bindings.values.imp fun _ _ values =>
    (values.mono le₂).mono le₃) codes).bind ?_
  intro w₄ e e' le₄ codes
  exact sim_emit (.cons (.op _) .nil) codes

include items rest in
theorem sim_quotation :
    Sim (OnStates left right) w World.Values (quotation args k : CompileM ω Value)
      (quotation args' k' : CompileM ω' Value) := by
  rcases items with _ | ⟨literal, _ | ⟨_, _⟩⟩
  · exact sim_fail rfl rfl
  · exact sim_emit (.cons (.op _) (.cons literal .nil)) rest
  · exact sim_fail rfl rfl

include contexts in
theorem sim_target (form : String) (values : w.Values v v') :
    Sim (OnStates left right) w World.Names (target ctx form v) (target ctx' form v') := by
  cases values with
  | @ident i j names =>
    unfold target
    have bound := names.lt_wellKnown_iff (k := 22) (by decide)
    have same : i.isReserved = j.isReserved := by
      rw [Symbol.isReserved, Symbol.isReserved, decide_eq_decide]
      exact Nat.lt_succ_iff.symm.trans (bound.trans Nat.lt_succ_iff)
    dsimp only
    rw [same]
    split
    · exact sim_known fun pinned => sim_fail rfl (by rw [contexts.name_eq pinned names])
    · exact .pure names
  | _ => exact sim_fail rfl rfl

include parts contexts items rest in
theorem sim_assignment :
    Sim (OnStates left right) w World.Values (assignment part ctx args k)
      (assignment part' ctx' args' k') := by
  rcases items with _ | ⟨name, _ | ⟨expr, _ | ⟨_, _⟩⟩⟩
  · exact sim_fail rfl rfl
  · exact sim_fail rfl rfl
  · refine (sim_target contexts "set" name).bind ?_
    intro w₁ i j le₁ names
    have contexts₁ := contexts.mono le₁
    have rest₁ := rest.mono le₁
    have finish (x x' : Value) (expr : w.Values x x') (w₂ : World) (p p' : Value)
        (le₂ : w₁.Within w₂) (place : w₂.Values p p') :
        Sim (OnStates left right) w₂ World.Values (do part ctx x (← emit [.op .st, p] k))
          (do part' ctx' x' (← emit [.op .st, p'] k')) := by
      refine (sim_emit (.cons (.op _) (.cons place .nil)) (rest₁.mono le₂)).bind ?_
      intro w₃ c c' le₃ codes
      exact parts w₃ _ _ _ _ _ _ ((contexts₁.mono le₂).mono le₃)
        (((expr.mono le₁).mono le₂).mono le₃) codes
    have found := locate?_rel contexts₁.scopes names
    dsimp only
    unfold Context.locate?
    generalize Frame.locate? ctx.scopes i = x at found ⊢
    generalize Frame.locate? ctx'.scopes j = y at found ⊢
    cases found with
    | none =>
      refine (sim_define .functions names).bind ?_
      intro w₂ slot slot' le₂ same
      refine (sim_address (contexts.depth_eq _) same).bind ?_
      intro w₃ p p' le₃ place
      exact finish _ _ expr w₃ p p' (le₂.trans le₃) place
    | @some place place' places =>
      obtain ⟨depth, index, formal⟩ := place
      obtain ⟨depth', index', formal'⟩ := place'
      obtain ⟨first, second, formals⟩ := places
      cases formals with
      | plain _ =>
        refine (sim_address first second).bind ?_
        intro w₂ p p' le₂ place
        exact finish _ _ expr w₂ p p' le₂ place
      | rest _ => exact sim_known fun pinned => sim_fail rfl (by rw [contexts₁.name_eq pinned names])
  · exact sim_fail rfl rfl

include parts contexts items rest in
theorem sim_definition :
    Sim (OnStates left right) w World.Values (definition part ctx args k)
      (definition part' ctx' args' k') := by
  rcases items with _ | ⟨name, _ | ⟨parameters, _ | ⟨expr, _ | ⟨_, _⟩⟩⟩⟩
  · exact sim_fail rfl rfl
  · exact sim_fail rfl rfl
  · exact sim_fail rfl rfl
  · refine (sim_target contexts "defm" name).bind ?_
    intro w₁ i j le₁ names
    have contexts₁ := contexts.mono le₁
    refine (sim_parameters contexts₁ "defm" (parameters.mono le₁)).bind ?_
    intro w₂ f f' le₂ frames
    have contexts₂ := contexts₁.mono le₂
    refine (sim_body parts contexts₂ frames ((expr.mono le₁).mono le₂)).bind ?_
    intro w₃ c c' le₃ codes
    refine (sim_define .macros ((names.mono le₂).mono le₃)).bind ?_
    intro w₄ slot slot' le₄ same
    refine (sim_address (contexts.depth_eq _) same).bind ?_
    intro w₅ p p' le₅ place
    have rest := (((rest.mono le₁).mono le₂).mono le₃).mono (le₄.trans le₅)
    have code := codes.mono (le₄.trans le₅)
    exact sim_emit (.cons (.op _) (.cons code (.cons (.op _) (.cons place .nil)))) rest
  · exact sim_fail rfl rfl

include parts contexts items rest in
theorem sim_expansion {i j : Symbol} (names : w.Names i j) (slot : Nat) :
    Sim (OnStates left right) w World.Values (expansion part ctx i slot args k)
      (expansion part' ctx' j slot args' k') := by
  unfold expansion
  have work : Sim (OnStates left right) w World.Values
      (do
        let args ← onHeap (Heap.list args)
        let place ← address Globals.macroDepth slot
        let code ← onHeap (Heap.list [.op .ldc, args, .op .ld, place, .op .ap, .op .halt])
        let result ← runNow ctx code
        report ctx (.expanded (ctx.name i))
        part ctx.expanded result k)
      (do
        let args ← onHeap (Heap.list args')
        let place ← address Globals.macroDepth slot
        let code ← onHeap (Heap.list [.op .ldc, args, .op .ld, place, .op .ap, .op .halt])
        let result ← runNow ctx' code
        report ctx' (.expanded (ctx'.name j))
        part' ctx'.expanded result k') := by
    refine (sim_onHeap (sim_list items)).bind ?_
    intro w₁ list list' le₁ lists
    refine (sim_address rfl rfl).bind ?_
    intro w₂ p p' le₂ place
    refine (sim_onHeap (sim_list (.cons (.op _) (.cons (lists.mono le₂) (.cons (.op _)
      (.cons place (.cons (.op _) (.cons (.op _) .nil)))))))).bind ?_
    intro w₃ c c' le₃ codes
    have le := (le₁.trans le₂).trans le₃
    refine (sim_runNow (contexts.mono le) codes).bind ?_
    intro w₄ result result' le₄ results
    refine (sim_report _ _).bind ?_
    intro w₅ _ _ le₅ _
    have le := (le.trans le₄).trans le₅
    exact parts w₅ _ _ _ _ _ _ (contexts.mono le).expanded (results.mono le₅) (rest.mono le)
  rw [contexts.expansions]
  split
  · exact sim_known fun pinned => sim_fail (contexts.name_eq pinned names) rfl
  · exact work

theorem special_eq {i j : Symbol} (names : w.Names i j) :
    Special.ofSymbol? i = Special.ofSymbol? j := by
  refine names.apply_eq none fun (k : Nat) le => ?_
  have known : 24 ≤ k := le
  unfold Special.ofSymbol?
  split <;> first | rfl | omega

include parts contexts items rest in
theorem sim_named {i j : Symbol} (names : w.Names i j) :
    Sim (OnStates left right) w World.Values (named part ctx i args k)
      (named part' ctx' j args' k') := by
  unfold named
  rw [special_eq names]
  cases Special.ofSymbol? j with
  | some special =>
    cases special with
    | function => exact sim_function parts contexts items rest
    | conditional => exact sim_conditional parts contexts items rest
    | binding => exact sim_binding parts contexts items rest
    | recursiveBinding => exact sim_recursiveBinding parts contexts items rest
    | quotation => exact sim_quotation items rest
    | assignment => exact sim_assignment parts contexts items rest
    | definition => exact sim_definition parts contexts items rest
  | none =>
    have same := names.eq_wellKnown_iff (k := .list) (by decide)
    dsimp only
    by_cases list : i = .list
    · rw [if_pos list, if_pos (same.mp list)]
      exact sim_arguments parts contexts items rest
    · rw [if_neg list, if_neg fun there => list (same.mpr there), ofSymbol?_eq names]
      cases Builtin.ofSymbol? j with
      | some b => exact sim_builtinForm parts contexts items rest b
      | none =>
        have slots : Sim (OnStates left right) w (fun _ => Eq)
            (inspect (·.macroSlot? i) : CompileM ω (Option Nat))
            (inspect (·.macroSlot? j) : CompileM ω' (Option Nat)) :=
          sim_inspect fun g g' tables => slotIn?_eq tables.macros names
        refine slots.bind ?_
        intro w₁ slot slot' le₁ same
        subst same
        have names₁ := names.mono le₁
        have contexts₁ := contexts.mono le₁
        have items₁ := items.imp fun _ _ values => values.mono le₁
        have apply := sim_application parts contexts₁ items₁ (rest.mono le₁) (.ident names₁)
        have found := locate?_rel contexts₁.scopes names₁
        unfold Context.locate?
        generalize Frame.locate? ctx.scopes i = x at found ⊢
        generalize Frame.locate? ctx'.scopes j = y at found ⊢
        cases found with
        | some _ => exact apply
        | none =>
          cases slot with
          | none => exact apply
          | some slot => exact sim_expansion parts contexts₁ items₁ (rest.mono le₁) names₁ slot

include contexts rest in
theorem sim_identifier {i j : Symbol} (names : w.Names i j) :
    Sim (OnStates left right) w World.Values (identifier ctx i k) (identifier ctx' j k') := by
  have found := locate?_rel contexts.scopes names
  have load (o : Opcode) (w₁ : World) (le₁ : w.Within w₁) {depth index depth' index' : Nat}
      (first : depth = depth') (second : index = index') : Sim (OnStates left right) w₁ World.Values
      (do emit [.op o, ← address depth index] k : CompileM ω Value)
      (do emit [.op o, ← address depth' index'] k' : CompileM ω' Value) := by
    refine (sim_address first second).bind ?_
    intro w₂ p p' le₂ place
    exact sim_emit (.cons (.op _) (.cons place .nil)) ((rest.mono le₁).mono le₂)
  unfold identifier Context.locate?
  generalize Frame.locate? ctx.scopes i = x at found ⊢
  generalize Frame.locate? ctx'.scopes j = y at found ⊢
  cases found with
  | @some place place' places =>
    obtain ⟨depth, index, formal⟩ := place
    obtain ⟨depth', index', formal'⟩ := place'
    obtain ⟨first, second, formals⟩ := places
    cases formals with
    | plain _ => exact load .ld w (.refl w) first second
    | rest _ => exact load .ldr w (.refl w) first second
  | none =>
    have slots : Sim (OnStates left right) w (fun _ => Eq)
        (inspect (·.functionSlot? i) : CompileM ω (Option Nat))
        (inspect (·.functionSlot? j) : CompileM ω' (Option Nat)) :=
      sim_inspect fun g g' tables => slotIn?_eq tables.functions names
    refine slots.bind ?_
    intro w₁ slot slot' le₁ same
    subst same
    cases slot with
    | some slot => exact load .ld w₁ le₁ (contexts.depth_eq _) rfl
    | none =>
      refine sim_known fun pinned => .throw ?_
      rw [(contexts.mono le₁).name_eq pinned (names.mono le₁)]
      exact .other rfl

include parts in
theorem parts_whole : Parts left right (whole part) (whole part') := by
  intro w ctx ctx' v v' k k' contexts values rest
  unfold whole
  cases values with
  | nil => exact sim_emit (.cons (.op _) .nil) rest
  | ident names => exact sim_identifier contexts rest names
  | @pair a b cells =>
    have taken : Sim (OnStates left right) w
        (fun w' p q => w'.Values p.1 q.1 ∧ Option.Rel (List.Forall₂ w'.Values) p.2 q.2)
        (onHeap (Heap.read fun h => (h.car a, h.toList? (h.cdr a))) : CompileM ω _)
        (onHeap (Heap.read fun h => (h.car b, h.toList? (h.cdr b))) : CompileM ω' _) :=
      sim_onHeap (sim_read fun h h' heaps =>
        ⟨heaps.cars a b cells, heaps.toList? (heaps.cdrs a b cells)⟩)
    refine taken.bind ?_
    intro w₁ p q le₁ both
    obtain ⟨head, list⟩ := p
    obtain ⟨head', list'⟩ := q
    obtain ⟨heads, lists⟩ := both
    have contexts₁ := contexts.mono le₁
    dsimp only at heads lists ⊢
    cases lists with
    | none => exact sim_fail rfl rfl
    | some items =>
      cases heads with
      | ident names => exact sim_named parts contexts₁ items (rest.mono le₁) names
      | pair cells => exact sim_application parts contexts₁ items (rest.mono le₁) (.pair cells)
      | _ => exact sim_fail rfl rfl
  | truth => exact sim_emit (.cons (.op _) (.cons .truth .nil)) rest
  | int n => exact sim_emit (.cons (.op _) (.cons (.int n) .nil)) rest
  | op o => exact sim_emit (.cons (.op _) (.cons (.op o) .nil)) rest

theorem parts_expression (room : Nat) :
    Parts left right (expression room : Compile.Part ω) (expression room : Compile.Part ω') := by
  induction room with
  | zero =>
    intro w ctx ctx' v v' k k' _ _ _
    exact sim_fail rfl rfl
  | succ room ih => exact parts_whole ih

/-- A failed compilation takes back the same names on both sides. -/
theorem Agree.toplevel {recorder : Recorder ω} {recorder' : Recorder ω'} {steps steps' : Nat}
    {s : State ω} {s' : State ω'} (states : OnStates left right w s s')
    (agree : Agree (OnStates left right) w World.Values (program recorder left steps v s)
      (program recorder' right steps' v' s')) :
    Agree (OnStates left right) w World.Values (toplevel recorder left steps v s)
      (toplevel recorder' right steps' v' s') := by
  rw [toplevel_eq, toplevel_eq]
  generalize program recorder left steps v s = r at agree ⊢
  generalize program recorder' right steps' v' s' = r' at agree ⊢
  cases agree with
  | ok le states values => exact .ok le states values
  | error le after errors =>
    have before := states.globals.mono le
    exact .error le ⟨after.heaps, after.globals.env, before.functions, before.macros⟩ errors
  | leftFull loose => exact .leftFull loose
  | rightFull loose => exact .rightFull loose

theorem sim_toplevel (recorder : Recorder ω) (recorder' : Recorder ω') (steps : Nat)
    (values : w.Values v v') :
    Sim (OnStates left right) w World.Values (toplevel recorder left steps v)
      (toplevel recorder' right steps v') := by
  intro s s' states
  have contexts : Contexts left right w (⟨left, steps, recorder, [], 0⟩ : Context ω)
      (⟨right, steps, recorder', [], 0⟩ : Context ω') := ⟨rfl, rfl, rfl, .nil, rfl⟩
  have halt : Sim (OnStates left right) w World.Values
      (emit [.op .halt] .nil : CompileM ω Value) (emit [.op .halt] .nil : CompileM ω' Value) :=
    sim_emit (.cons (.op .halt) .nil) .nil
  have work : Sim (OnStates left right) w World.Values (program recorder left steps v)
      (program recorder' right steps v') := halt.bind fun w₁ k k' le₁ codes =>
    parts_expression maxNesting w₁ _ _ _ _ _ _ (contexts.mono le₁) (values.mono le₁) codes
  exact (work s s' states).toplevel states

end Forms

end Parallel

end SecdLisp
