import SecdLisp.Proofs.Compiling
import SecdLisp.Proofs.Continuation.Machine

/-!
# The compiler in front of two continuations

A form uses its continuation once, to put words in front of it, or it hands it on to one of its parts.
Bodies and branches are put in front of the end of a call or of a branch, and what a macro expands to
is found outside of the code. So the code in front of the two continuations grows alike.
-/

namespace SecdLisp

namespace Front

open Compile

variable {ω : Type} {f f' : Front} {writes : Bool} {k k' v c c' : Value} {α : Type}
  {P : Front → α → α → Prop} {p : Front → α → Prop} {ctx : Context ω} {part : Compile.Part ω}
  {args words : List Value}

structure Sides (k k' : Value) (f : Front) (s s' : State ω) : Prop where
  heaps : Twins k k' f s.heap s'.heap
  globals : s'.globals = s.globals
  env : f.Outside s.globals.env

/-- The two pieces of work put the same in front of the code that they are given. -/
abbrev Abreast (k k' : Value) (writes : Bool) (f : Front) (x y : CompileM ω Value) : Prop :=
  Steps (Sides k k') writes f (fun f => Codes k k' f writes) x y

theorem steps_onHeap {x y : HeapM α} (steps : Steps (Twins k k') writes f P x y) :
    Steps (Sides k k') writes f P (onHeap x : CompileM ω α) (onHeap y) := by
  intro s s' sides
  have lockstep := steps s.heap s'.heap sides.heaps
  unfold onHeap
  dsimp only
  generalize x s.heap = r at lockstep ⊢
  generalize y s'.heap = r' at lockstep ⊢
  cases lockstep with
  | ok moves heaps values => exact .ok moves ⟨heaps, sides.globals, sides.env.later moves⟩ values
  | error moves heaps => exact .error moves ⟨heaps, sides.globals, sides.env.later moves⟩

theorem steps_fail (form : String) (reason : Malformation) :
    Steps (Sides k k') writes f P (fail form reason : CompileM ω α) (fail form reason) :=
  steps_throw _

theorem blind_fail (form : String) (reason : Malformation) :
    Blind (Sides k k') f p (fail form reason : CompileM ω α) := steps_fail form reason

theorem steps_emit (outside : ∀ w ∈ words, f.Outside w) (codes : Codes k k' f writes c c') :
    Abreast k k' writes f (emit words c : CompileM ω Value) (emit words c') :=
  steps_onHeap (steps_listWithTail outside codes)

theorem blind_address (depth index : Nat) :
    Blind (Sides k k') f Outside (address depth index : CompileM ω Value) :=
  steps_onHeap (blind_cons (outside_int _) (outside_int _))

theorem blind_examine {look : Heap → Except CompileError α}
    (sees : ∀ h h', Twins k k' f h h' → look h' = look h ∧ ∀ a, look h = .ok a → p f a) :
    Blind (Sides k k') f p (examine look : CompileM ω α) := by
  intro s s' sides
  obtain ⟨same, known⟩ := sees s.heap s'.heap sides.heaps
  unfold examine
  rw [same]
  cases found : look s.heap with
  | ok a => exact .ok (.refl false f) sides ⟨rfl, known a found⟩
  | error cause => exact .error (.refl false f) sides

theorem blind_globals (change : Globals → α × Globals) (record : State ω → ω)
    (env : ∀ g, (change g).2.env = g.env) : Blind (Sides k k') f (fun _ _ => True)
      (fun s => .ok (change s.globals).1 ⟨s.heap, (change s.globals).2, record s⟩ : CompileM ω α) := by
  intro s s' sides
  have same : change s'.globals = change s.globals := congrArg change sides.globals
  dsimp only
  rw [same]
  exact .ok (.refl false f) ⟨sides.heaps, rfl, (env s.globals).symm ▸ sides.env⟩ ⟨rfl, trivial⟩

theorem blind_report (e : Event) : Blind (Sides k k') f (fun _ _ => True) (report ctx e) :=
  blind_globals (fun g => ((), g)) (fun s => ctx.recorder.event e s.record) fun _ => rfl

theorem blind_inspect (look : Globals → α) :
    Blind (Sides k k') f (fun _ _ => True) (inspect look : CompileM ω α) :=
  blind_globals (fun g => (look g, g)) State.record fun _ => rfl

theorem blind_define (table : Table) (name : Symbol) :
    Blind (Sides k k') f (fun _ _ => True) (define table ctx name) := by
  intro s s' sides
  have same : s'.globals = s.globals := sides.globals
  rw [define_eq, define_eq, same]
  exact .ok (.refl false f)
    ⟨sides.heaps, rfl, (s.globals.env_defineAt table name).symm ▸ sides.env⟩ ⟨rfl, trivial⟩

theorem blind_runNow (code : f.Outside v) : Blind (Sides k k') f Outside (runNow ctx v) := by
  rintro s s' ⟨heaps, same, env⟩
  rw [runNow_eq, runNow_eq, same]
  exact steps_onHeap (blind_run ctx.symbols ctx.steps env code) _ _ ⟨heaps, rfl, env⟩

section Formals

variable {h h' : Heap} (twins : Twins k k' f h h')

include twins

theorem ofItems_eq (symbols : SymbolTable) (form : String) (items : ∀ v ∈ args, f.Outside v) :
    Frame.ofItems h' symbols form args = Frame.ofItems h symbols form args := by
  induction args with
  | nil => rfl
  | cons v args ih =>
    rw [List.forall_mem_cons] at items
    cases v with
    | ident name => simp only [Frame.ofItems, ih items.2]
    | pair a => simp only [Frame.ofItems, (twins.toList? items.1).1]
    | _ => rfl

theorem ofParameters_eq (symbols : SymbolTable) (form : String) (outside : f.Outside v) :
    Frame.ofParameters h' symbols form v = Frame.ofParameters h symbols form v := by
  obtain ⟨same, items⟩ := twins.toList? outside
  unfold Frame.ofParameters
  rw [same]
  cases found : h.toList? v with
  | none => rfl
  | some vs => exact ofItems_eq twins symbols form (items vs found)

theorem ofBindings_eq (form : String) (items : ∀ v ∈ args, f.Outside v) :
    Frame.ofBindings h' form args = Frame.ofBindings h form args ∧
      ∀ p, Frame.ofBindings h form args = .ok p → (∀ v ∈ p.2.1, f.Outside v) ∧ f.Outside p.2.2 := by
  constructor
  · unfold Frame.ofBindings
    split
    next names values expr =>
      simp only [List.forall_mem_cons] at items
      rw [(twins.toList? items.1).1, (twins.toList? items.2.1).1]
    next => rfl
  · intro p taken
    obtain ⟨body, ⟨list, mem, values⟩, _⟩ := ofBindings_parts taken
    exact ⟨(twins.toList? (items list mem)).2 _ values, items _ body⟩

end Formals

theorem blind_parameters (form : String) (outside : f.Outside v) :
    Blind (Sides k k') f (fun _ _ => True)
      (examine (Frame.ofParameters · ctx.symbols form v) : CompileM ω Frame) :=
  blind_examine fun _ _ twins =>
    ⟨ofParameters_eq twins ctx.symbols form outside, fun _ _ => trivial⟩

theorem blind_bindings (form : String) (items : ∀ v ∈ args, f.Outside v) :
    Blind (Sides k k') f (fun f p => (∀ v ∈ p.2.1, f.Outside v) ∧ f.Outside p.2.2)
      (examine (Frame.ofBindings · form args) : CompileM ω _) :=
  blind_examine fun _ _ twins => ofBindings_eq twins form items

def PartSteps (k k' : Value) (part : Compile.Part ω) : Prop :=
  ∀ ⦃f writes ctx v c c'⦄, Outside f v → Codes k k' f writes c c' →
    Abreast k k' writes f (part ctx v c) (part ctx v c')

section Forms

variable (parts : PartSteps k k' part)

include parts

section Arguments

variable (items : ∀ v ∈ args, f.Outside v) (codes : Codes k k' f writes c c')

include items codes

theorem steps_arguments :
    Abreast k k' writes f (arguments part ctx args c) (arguments part ctx args c') := by
  refine (steps_foldlM items codes fun f₁ v d d' outside codes => ?_).bind fun f₁ d d' _ codes => ?_
  · refine (steps_emit (by simp) codes).bind fun f₂ e e' moves codes => ?_
    exact parts (outside.later moves) codes
  · exact steps_emit (by simp) codes

theorem steps_builtin (b : Builtin) :
    Abreast k k' writes f (builtin part ctx b args c) (builtin part ctx b args c') := by
  unfold builtin
  split
  · exact steps_fail _ _
  · refine (steps_emit (by simp) codes).bind fun f₁ d d' moves codes => ?_
    exact steps_foldlM (outside_all_later items moves) codes fun _ _ _ _ outside codes =>
      parts outside codes

theorem steps_application (head : f.Outside v) :
    Abreast k k' writes f (application part ctx v args c) (application part ctx v args c') := by
  refine (steps_emit (by simp) codes).bind fun f₁ d d' moves codes => ?_
  refine (parts (head.later moves) codes).bind fun f₂ e e' moves' codes => ?_
  exact steps_arguments parts (outside_all_later (outside_all_later items moves) moves') codes

end Arguments

/-- Code that ends on its own has nothing to do with the continuations. -/
theorem blind_ended (o : Opcode) (expr : f.Outside v) :
    Blind (Sides k k') f Outside (do part ctx v (← emit [.op o] .nil)) := by
  refine (steps_emit (by simp) (.apart outside_nil)).bind fun f₁ d d' moves codes => ?_
  exact (parts (expr.later moves) codes).mono fun _ _ _ => codes_apart_iff.mp

theorem blind_body (frame : Frame) (expr : f.Outside v) :
    Blind (Sides k k') f Outside (body part ctx frame v) := blind_ended parts .rtn expr

theorem blind_branch (expr : f.Outside v) : Blind (Sides k k') f Outside (branch part ctx v) :=
  blind_ended parts .join expr

variable (items : ∀ v ∈ args, f.Outside v) (codes : Codes k k' f writes c c')

include items codes

theorem steps_function :
    Abreast k k' writes f (function part ctx args c) (function part ctx args c') := by
  unfold function
  split
  next parameters expr =>
    simp only [List.forall_mem_cons] at items
    refine (blind_parameters "fn" items.1).bind fun f₁ frame moves _ => ?_
    have codes := codes.later moves
    refine (blind_body parts frame (items.2.1.later moves)).bind fun f₂ code moves body => ?_
    exact steps_emit (by simp [body]) (codes.later moves)
  next => exact steps_fail _ _

theorem steps_conditional :
    Abreast k k' writes f (conditional part ctx args c) (conditional part ctx args c') := by
  have whole {x y z : Value} (test : f.Outside x) (consequent : f.Outside y)
      (alternative : f.Outside z) : Abreast k k' writes f (conditional part ctx [x, y, z] c)
      (conditional part ctx [x, y, z] c') := by
    -- The branches end on their own, so the code in front of the continuations is still the same.
    refine (blind_branch parts consequent).bind fun f₁ d moves first => ?_
    have codes := codes.later moves
    have test := test.later moves
    refine (blind_branch parts (alternative.later moves)).bind fun f₂ e moves second => ?_
    have words : ∀ w ∈ [.op .sel, d, e], f₂.Outside w := by simp [first.later moves, second]
    refine (steps_emit words (codes.later moves)).bind fun f₃ k k' moves' codes => ?_
    exact parts ((test.later moves).later moves') codes
  rcases args with _ | ⟨test, _ | ⟨consequent, _ | ⟨alternative, _ | ⟨_, _⟩⟩⟩⟩
  · exact steps_fail _ _
  · exact steps_fail _ _
  · simp only [List.forall_mem_cons] at items
    exact whole items.1 items.2.1 outside_nil
  · simp only [List.forall_mem_cons] at items
    exact whole items.1 items.2.1 items.2.2.1
  · exact steps_fail _ _

theorem steps_binding :
    Abreast k k' writes f (binding part ctx args c) (binding part ctx args c') := by
  refine (blind_bindings "let" items).bind fun f₁ p moves known => ?_
  obtain ⟨frame, values, expr⟩ := p
  obtain ⟨values', expr'⟩ := known
  have codes := codes.later moves
  refine (blind_body parts frame expr').bind fun f₂ code moves body => ?_
  have values' := outside_all_later values' moves
  refine (steps_emit (by simp [body]) (codes.later moves)).bind fun f₃ d d' moves codes => ?_
  exact steps_arguments parts (outside_all_later values' moves) codes

theorem steps_recursiveBinding :
    Abreast k k' writes f (recursiveBinding part ctx args c) (recursiveBinding part ctx args c') := by
  refine (blind_bindings "letrec" items).bind fun f₁ p moves known => ?_
  obtain ⟨frame, values, expr⟩ := p
  obtain ⟨values', expr'⟩ := known
  have codes := codes.later moves
  refine (blind_body parts frame expr').bind fun f₂ code moves body => ?_
  have values' := outside_all_later values' moves
  refine (steps_emit (by simp [body]) (codes.later moves)).bind fun f₃ d d' moves codes => ?_
  refine (steps_arguments parts (outside_all_later values' moves) codes).bind fun f₄ e e' _ codes => ?_
  exact steps_emit (by simp) codes

omit parts in
theorem steps_quotation :
    Abreast k k' writes f (quotation args c : CompileM ω Value) (quotation args c') := by
  unfold quotation
  split
  next literal =>
    simp only [List.forall_mem_cons] at items
    exact steps_emit (by simp [items.1]) codes
  next => exact steps_fail _ _

omit parts items codes in
theorem blind_target (form : String) (v : Value) :
    Blind (Sides k k') f (fun _ _ => True) (target ctx form v) := by
  cases v with
  | ident name =>
    unfold target
    dsimp only
    split
    · exact steps_fail _ _
    · exact blind_pure trivial
  | _ => exact steps_fail _ _

theorem steps_assignment :
    Abreast k k' writes f (assignment part ctx args c) (assignment part ctx args c') := by
  unfold assignment
  split
  next name expr =>
    simp only [List.forall_mem_cons] at items
    refine (blind_target "set" name).bind fun f₁ name moves _ => ?_
    have codes := codes.later moves
    have expr' := items.2.1.later moves
    have finish (f₂ : Front) (place : Value) (moves : f₁.Moves false f₂) (place' : f₂.Outside place) :
        Abreast k k' writes f₂ (do part ctx expr (← emit [.op .st, place] c))
          (do part ctx expr (← emit [.op .st, place] c')) := by
      refine (steps_emit (by simp [place']) (codes.later moves)).bind fun f₃ d d' moves' codes => ?_
      exact parts ((expr'.later moves).later moves') codes
    split
    · exact (blind_fail _ _).bind finish
    · exact (blind_address _ _).bind finish
    · refine (blind_define .functions name).bind fun f₂ slot moves _ => ?_
      exact (blind_address _ _).bind fun f₃ place moves' => finish f₃ place (moves.trans moves')
  next => exact steps_fail _ _

theorem steps_definition :
    Abreast k k' writes f (definition part ctx args c) (definition part ctx args c') := by
  unfold definition
  split
  next name parameters expr =>
    simp only [List.forall_mem_cons] at items
    refine (blind_target "defm" name).bind fun f₁ name moves _ => ?_
    have codes := codes.later moves
    have expr' := items.2.2.1.later moves
    refine (blind_parameters "defm" (items.2.1.later moves)).bind fun f₂ frame moves _ => ?_
    have codes := codes.later moves
    refine (blind_body parts frame (expr'.later moves)).bind fun f₃ code moves body => ?_
    have codes := codes.later moves
    refine (blind_define .macros name).bind fun f₄ slot moves _ => ?_
    have codes := codes.later moves
    have body := body.later moves
    refine (blind_address _ slot).bind fun f₅ place moves place' => ?_
    exact steps_emit (by simp [body.later moves, place']) (codes.later moves)
  next => exact steps_fail _ _

theorem steps_expansion (name : Symbol) (slot : Nat) :
    Abreast k k' writes f (expansion part ctx name slot args c)
      (expansion part ctx name slot args c') := by
  unfold expansion
  split
  · exact steps_fail _ _
  have listed : Blind (Sides k k') f Outside (onHeap (Heap.list args) : CompileM ω Value) :=
    steps_onHeap (blind_list items)
  refine listed.bind fun f₁ list moves list' => ?_
  have codes := codes.later moves
  refine (blind_address _ slot).bind fun f₂ place moves place' => ?_
  have codes := codes.later moves
  have words : ∀ w ∈ [.op .ldc, list, .op .ld, place, .op .ap, .op .halt], f₂.Outside w := by
    simp [list'.later moves, place']
  have written : Blind (Sides k k') f₂ Outside
      (onHeap (Heap.list [.op .ldc, list, .op .ld, place, .op .ap, .op .halt]) : CompileM ω Value) :=
    steps_onHeap (blind_list words)
  refine written.bind fun f₃ code moves code' => ?_
  have codes := codes.later moves
  refine (blind_runNow code').bind fun f₄ result moves result' => ?_
  have codes := codes.later moves
  refine (blind_report _).bind fun f₅ _ moves _ => ?_
  exact parts (result'.later moves) (codes.later moves)

theorem steps_named (name : Symbol) :
    Abreast k k' writes f (named part ctx name args c) (named part ctx name args c') := by
  unfold named
  split
  · exact steps_function parts items codes
  · exact steps_conditional parts items codes
  · exact steps_binding parts items codes
  · exact steps_recursiveBinding parts items codes
  · exact steps_quotation items codes
  · exact steps_assignment parts items codes
  · exact steps_definition parts items codes
  · split
    · exact steps_arguments parts items codes
    · split
      · exact steps_builtin parts items codes _
      · refine (blind_inspect _).bind fun f₁ found moves _ => ?_
        have items := outside_all_later items moves
        have codes := codes.later moves
        split
        · exact steps_expansion parts items codes name _
        · exact steps_application parts items codes (outside_ident name)

end Forms

theorem steps_identifier (name : Symbol) (codes : Codes k k' f writes c c') :
    Abreast k k' writes f (identifier ctx name c) (identifier ctx name c') := by
  have load (o : Opcode) (depth index : Nat) {f₁ : Front} (moves : f.Moves false f₁) :
      Abreast k k' writes f₁
        (do emit [.op o, ← address depth index] c : CompileM ω Value)
        (do emit [.op o, ← address depth index] c') := by
    have codes := codes.later moves
    refine (blind_address depth index).bind fun f₂ place moves place' => ?_
    exact steps_emit (by simp [place']) (codes.later moves)
  unfold identifier
  split
  · exact load .ld _ _ (.refl false f)
  · exact load .ldr _ _ (.refl false f)
  · refine (blind_inspect _).bind fun f₁ found moves _ => ?_
    split
    · exact load .ld _ _ moves
    · exact steps_throw _

theorem partSteps_whole (parts : PartSteps k k' part) : PartSteps k k' (whole part) := by
  intro f writes ctx v c c' outside codes
  cases v with
  | nil => exact steps_emit (by simp) codes
  | ident name => exact steps_identifier name codes
  | pair a =>
    have opened : Blind (Sides k k') f
        (fun f (p : Value × Option (List Value)) =>
          f.Outside p.1 ∧ ∀ args, p.2 = some args → ∀ v ∈ args, f.Outside v)
        (onHeap (Heap.read fun h => (h.car a, h.toList? (h.cdr a))) : CompileM ω _) := by
      refine steps_onHeap (blind_read fun h h' twins => ?_)
      obtain ⟨head, rest⟩ := twins.halves outside
      obtain ⟨same, items⟩ := twins.toList? rest
      rw [twins.car, twins.cdr a (outside a rfl).2, same]
      exact ⟨rfl, head, items⟩
    refine opened.bind fun f₁ p moves known => ?_
    obtain ⟨head, args⟩ := p
    have codes := codes.later moves
    cases args with
    | none => exact steps_fail _ _
    | some args =>
      have items := known.2 args rfl
      cases head with
      | ident name => exact steps_named parts items codes name
      | pair b => exact steps_application parts items codes known.1
      | _ => exact steps_fail _ _
  | _ => exact steps_emit (by simp) codes

theorem partSteps_expression (k k' : Value) (room : Nat) :
    PartSteps k k' (expression room : Compile.Part ω) := by
  induction room with
  | zero => exact fun _ _ _ _ _ _ _ _ => steps_fail _ _
  | succ room ih => exact partSteps_whole ih

end Front

end SecdLisp
