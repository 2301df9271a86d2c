import SecdLisp.Proofs.Additions
import SecdLisp.Proofs.Capacity.Machine
import SecdLisp.Text.Form

/-!
# Reading and compiling pay no heed to the room

The reader and the compiler look at cells and names only, and the runs that expand macros are runs
like any others. What the compiler puts on record makes no difference to it either.
-/

namespace SecdLisp

open Bench

variable {α : Type} {exact : Prop}

namespace Template

theorem heedless_quoted (v : Value) : Heap.bench.Heedless exact (quoted v) := Heap.heedless_list _

theorem heedless_unquoted (v : Value) : Heap.bench.Heedless exact (unquoted v) :=
  (Heap.heedless_cons v .nil).bind fun _ => Heap.heedless_cons _ _

theorem heedless_refused (cause : ParseError) :
    Heap.bench.Heedless exact (throw (.parse cause) : HeapM α) := heedless_throw nofun

theorem heedless_expandWithin (height : Nat) (v : Value) :
    Heap.bench.Heedless exact (expandWithin height v) := by
  induction height generalizing v with
  | zero => exact heedless_refused _
  | succ height ih =>
    cases v with
    | pair a =>
      unfold expandWithin
      refine (Heap.heedless_read fun _ _ cells => congrFun (Heap.car_eq cells) a).bind fun head => ?_
      split
      · have shows' : Heap.Shows fun h => h.carOf? (h.cdr a) := by
          intro h h' cells
          dsimp only
          rw [Heap.cdr_eq cells]
          exact Heap.shows_carOf? _ h h' cells
        refine (Heap.heedless_read shows').bind fun found => ?_
        cases found with
        | some v => exact heedless_pure v
        | none => exact heedless_refused _
      · refine (Heap.heedless_read (Heap.shows_toList? (.pair a))).bind fun found => ?_
        cases found with
        | none => exact heedless_refused _
        | some items =>
          refine heedless_foldrM (fun item _ built => ?_) _
          exact (ih item).bind fun expanded => Heap.heedless_list _
    | _ => exact heedless_quoted _

theorem heedless_expand (v : Value) : Heap.bench.Heedless exact (expand v) :=
  (Heap.heedless_read fun _ _ cells => Heap.size_eq cells).bind fun _ => heedless_expandWithin _ v

end Template

namespace Reading

def bench : Bench Reading :=
  ⟨Reading.heap, fun r r' => r.source = r'.source ∧ r.symbols = r'.symbols⟩

def lens : Heap.bench.Lens bench where
  get := Reading.heap
  put r heap := { r with heap }
  heap_get _ := rfl
  heap_put _ _ := rfl
  same_get _ := trivial
  same_put same _ := same

theorem heedless_onHeap {x : HeapM α} (work : Heap.bench.Heedless exact x) :
    bench.Heedless exact (onHeap x) := by
  refine Heedless.lift lens (fun a _ => a) (fun _ => work) (fun r => ?_) (fun _ => rfl)
    fun _ _ => rfl
  unfold onHeap
  cases run : x r.heap <;> simp only [lens, run]

theorem heedless_fail (cause : ParseError) : bench.Heedless exact (fail cause : ReadM α) :=
  heedless_throw nofun

theorem heedless_apart (f : Source → SymbolTable → Except Error α × Source × SymbolTable)
    (other : ∀ source symbols, (f source symbols).1 ≠ .error .heapFull) {x : ReadM α}
    (eq : ∀ r, x r = match f r.source r.symbols with
      | (.ok a, source, symbols) => .ok a ⟨source, r.heap, symbols⟩
      | (.error e, source, symbols) => .error e ⟨source, r.heap, symbols⟩) :
    bench.Heedless exact x := by
  intro r r' alike
  obtain ⟨source, symbols⟩ := alike.same
  rw [eq, eq, ← source, ← symbols]
  have apart := other r.source r.symbols
  generalize f r.source r.symbols = result at apart ⊢
  obtain ⟨a | e, source, symbols⟩ := result
  · exact .error ⟨alike.heap, rfl, rfl⟩ (.refl _) fun eq => (apart (congrArg _ eq)).elim
  · exact .ok ⟨alike.heap, rfl, rfl⟩ (.refl _)

def nextApart (source : Source) (symbols : SymbolTable) :
    Except Error (Option Token) × Source × SymbolTable :=
  match Token.next? source with
  | .ok t source => (.ok t, source, symbols)
  | .error cause source => (.error (.parse cause), source, symbols)

theorem heedless_next? : bench.Heedless exact next? := by
  refine heedless_apart nextApart ?_ ?_
  · intro source symbols
    unfold nextApart
    cases Token.next? source <;> simp
  · intro r
    unfold next? nextApart
    dsimp only
    cases Token.next? r.source <;> rfl

theorem heedless_next : bench.Heedless exact next := by
  refine heedless_next?.bind fun t => ?_
  cases t with
  | some t => exact heedless_pure t
  | none => exact heedless_fail _

def peekApart (source : Source) (symbols : SymbolTable) :
    Except Error (Option Token) × Source × SymbolTable :=
  match Token.peek? source with
  | .ok t => (.ok t, source, symbols)
  | .error cause => (.error (.parse cause), source, symbols)

theorem heedless_peek? : bench.Heedless exact peek? := by
  refine heedless_apart peekApart ?_ ?_
  · intro source symbols
    unfold peekApart
    cases Token.peek? source <;> simp
  · intro r
    unfold peek? peekApart
    cases Token.peek? r.source <;> rfl

theorem heedless_atom (word : String) : bench.Heedless exact (atom word) := by
  have names : bench.Heedless exact (intern word) :=
    heedless_apart (fun source symbols =>
      (.ok (symbols.intern word).1, source, (symbols.intern word).2)) (fun _ _ => nofun) fun _ => rfl
  unfold atom
  split
  · exact heedless_pure _
  · split
    · exact heedless_pure _
    · exact names.bind fun _ => heedless_pure _

theorem heedless_elements {element : Token → ReadM Value}
    (each : ∀ t, bench.Heedless exact (element t)) (bound : List Char) (read : List Value) :
    bench.Heedless exact (elements element bound read) := by
  induction bound generalizing read with
  | nil => exact heedless_fail _
  | cons _ bound ih =>
    have more (t : Token) : bench.Heedless exact (do
        elements element bound ((← element t) :: read)) :=
      (each t).bind fun v => ih (v :: read)
    refine heedless_next?.bind fun t => ?_
    cases t with
    | none => exact heedless_fail _
    | some t =>
      cases t with
      | closing => exact heedless_pure _
      | _ => exact more _

theorem heedless_unquote {datum : Token → ReadM Value}
    (each : ∀ t, bench.Heedless exact (datum t)) : bench.Heedless exact (unquote datum) := by
  have work : bench.Heedless exact (do onHeap (Template.unquoted (← datum (← next)))) :=
    heedless_next.bind fun t => (each t).bind fun v => heedless_onHeap (Template.heedless_unquoted v)
  refine heedless_peek?.bind fun t => ?_
  dsimp only
  split
  · exact heedless_fail _
  · exact work

theorem heedless_datum (room templates : Nat) (token : Token) :
    bench.Heedless exact (datum room templates token) := by
  induction room generalizing templates token with
  | zero => exact heedless_fail _
  | succ room ih =>
    cases token with
    | opening =>
      have bounds : bench.Heedless exact (fun r => .ok r.source.unread r : ReadM (List Char)) :=
        heedless_apart (fun source symbols => (.ok source.unread, source, symbols))
          (fun _ _ => nofun) fun _ => rfl
      refine bounds.bind fun bound => ?_
      exact (heedless_elements (ih templates) bound []).bind fun vs =>
        heedless_onHeap (Heap.heedless_list vs)
    | closing => exact heedless_fail _
    | quote =>
      exact heedless_next.bind fun t => (ih templates t).bind fun v =>
        heedless_onHeap (Template.heedless_quoted v)
    | backquote =>
      exact heedless_next.bind fun t => (ih (templates + 1) t).bind fun v =>
        heedless_onHeap (Template.heedless_expand v)
    | comma =>
      cases templates with
      | zero => exact heedless_fail _
      | succ outer => exact heedless_unquote (ih outer)
    | atSign => exact heedless_fail _
    | int n => exact heedless_pure _
    | ident word => exact heedless_atom word

theorem heedless_form? : bench.Heedless exact form? := by
  have ends : bench.Heedless exact atEnd :=
    heedless_apart (fun source symbols =>
      (.ok source.skipBlanks.unread.isEmpty, source.skipBlanks, symbols)) (fun _ _ => nofun)
      fun _ => rfl
  refine ends.bind fun done => ?_
  cases done with
  | true => exact heedless_pure _
  | false =>
    exact heedless_next.bind fun t => (heedless_datum maxNesting 0 t).bind fun _ => heedless_pure _

theorem heedless_form : bench.Heedless exact form := by
  refine heedless_form?.bind fun found => ?_
  cases found with
  | some v => exact heedless_pure v
  | none => exact heedless_fail _

end Reading

namespace Compile

variable {ω : Type}

def bench : Bench (State ω) := ⟨State.heap, fun s s' => s.globals = s'.globals⟩

variable {ctx : Context ω} {k : Value} {part : Part ω}

def lens (record : State ω → ω) : Heap.bench.Lens (bench (ω := ω)) where
  get := State.heap
  put s heap := ⟨heap, s.globals, record s⟩
  heap_get _ := rfl
  heap_put _ _ := rfl
  same_get _ := trivial
  same_put same _ := same

theorem heedless_onHeap {x : HeapM α} (work : Heap.bench.Heedless exact x) :
    bench.Heedless exact (onHeap x : CompileM ω α) := by
  refine Heedless.lift (lens State.record) (fun a _ => a) (fun _ => work) (fun s => ?_)
    (fun _ => rfl) fun _ _ => rfl
  unfold onHeap
  cases run : x s.heap <;> simp only [lens, run]

theorem heedless_fail (form : String) (reason : Malformation) :
    bench.Heedless exact (fail form reason : CompileM ω α) := heedless_throw nofun

theorem heedless_examine {f : Heap → Except CompileError α} (shows' : Heap.Shows f) :
    bench.Heedless exact (examine f : CompileM ω α) := by
  intro s s' alike
  unfold examine
  rw [shows' s.heap s'.heap alike.heap.cells]
  cases f s'.heap with
  | ok a => exact .ok alike (.refl _)
  | error cause => exact .error alike (.refl _) nofun

theorem heedless_apart (f : Globals → α × Globals) (record : State ω → ω) :
    bench.Heedless exact (fun s => .ok (f s.globals).1 ⟨s.heap, (f s.globals).2, record s⟩ :
      CompileM ω α) := by
  intro s s' alike
  have same : s.globals = s'.globals := alike.same
  dsimp only
  rw [same]
  exact .ok ⟨alike.heap, rfl⟩ (.refl _)

theorem heedless_report (e : Event) : bench.Heedless exact (report ctx e) :=
  heedless_apart (fun g => ((), g)) fun s => ctx.recorder.event e s.record

theorem heedless_inspect (f : Globals → α) : bench.Heedless exact (inspect f : CompileM ω α) :=
  heedless_apart (fun g => (f g, g)) State.record

theorem heedless_define (table : Table) (name : Symbol) :
    bench.Heedless exact (define table ctx name) := by
  intro s s' alike
  have same : s.globals = s'.globals := alike.same
  rw [define_eq, define_eq, same]
  exact .ok ⟨alike.heap, rfl⟩ (.refl _)

theorem heedless_emit (words : List Value) (k : Value) :
    bench.Heedless exact (emit words k : CompileM ω Value) :=
  heedless_onHeap (Heap.heedless_listWithTail words k)

theorem heedless_address (depth index : Nat) :
    bench.Heedless exact (address depth index : CompileM ω Value) :=
  heedless_onHeap (Heap.heedless_cons _ _)

theorem heedless_runNow (code : Value) : bench.Heedless exact (runNow ctx code) := by
  let record (s : State ω) :=
    ctx.recorder.run ctx.symbols ctx.steps s.globals.env code s.heap s.record
  refine Heedless.lift (lens record) (fun a _ => a)
    (x := fun s => Machine.run ctx.symbols ctx.steps s.globals.env code)
    (fun s => Machine.heedless_run ctx.symbols ctx.steps s.globals.env code) (fun s => ?_) ?_
    fun _ _ => rfl
  · unfold runNow
    cases run : Machine.run ctx.symbols ctx.steps s.globals.env code s.heap <;>
      simp only [lens, run, record]
  · intro s s' same
    have same : s.globals = s'.globals := same
    rw [same]

theorem shows_ofItems (symbols : SymbolTable) (form : String) (items : List Value) :
    Heap.Shows (Frame.ofItems · symbols form items) := by
  intro h h' cells
  dsimp only
  induction items with
  | nil => rfl
  | cons v items ih =>
    cases v with
    | ident name => simp only [Frame.ofItems, ih]
    | pair a =>
      have list : h.toList? (.pair a) = h'.toList? (.pair a) := Heap.shows_toList? _ h h' cells
      simp only [Frame.ofItems, list]
    | _ => rfl

theorem shows_ofParameters (symbols : SymbolTable) (form : String) (parameters : Value) :
    Heap.Shows (Frame.ofParameters · symbols form parameters) := by
  intro h h' cells
  have list : h.toList? parameters = h'.toList? parameters := Heap.shows_toList? _ h h' cells
  simp only [Frame.ofParameters, list]
  cases h'.toList? parameters with
  | some items => exact shows_ofItems symbols form items h h' cells
  | none => rfl

theorem shows_ofBindings (form : String) (args : List Value) :
    Heap.Shows (Frame.ofBindings · form args) := by
  intro h h' cells
  have list (v : Value) : h.toList? v = h'.toList? v := Heap.shows_toList? v h h' cells
  dsimp only
  unfold Frame.ofBindings
  split
  · simp only [list]
  · rfl

section Forms

variable (each : ∀ (ctx : Context ω) (expr k : Value), bench.Heedless exact (part ctx expr k))

include each

theorem heedless_arguments (args : List Value) (k : Value) :
    bench.Heedless exact (arguments part ctx args k) := by
  refine (heedless_foldlM (fun code arg _ => ?_) k).bind fun code => heedless_emit _ code
  exact (heedless_emit _ code).bind fun code => each ctx arg code

theorem heedless_builtin (b : Builtin) (args : List Value) (k : Value) :
    bench.Heedless exact (builtin part ctx b args k) := by
  have work : bench.Heedless exact (do
      let code ← emit [.ident b.symbol] k
      args.foldlM (fun code arg => part ctx arg code) code) :=
    (heedless_emit _ k).bind fun code => heedless_foldlM (fun code arg _ => each ctx arg code) code
  unfold builtin
  dsimp only
  split
  · exact heedless_fail _ _
  · exact work

theorem heedless_application (head : Value) (args : List Value) (k : Value) :
    bench.Heedless exact (application part ctx head args k) :=
  (heedless_emit _ k).bind fun code => (each ctx head code).bind fun code =>
    heedless_arguments each args code

theorem heedless_body (frame : Frame) (expr : Value) :
    bench.Heedless exact (body part ctx frame expr) :=
  (heedless_emit _ .nil).bind fun code => each (ctx.within frame) expr code

theorem heedless_function (args : List Value) (k : Value) :
    bench.Heedless exact (function part ctx args k) := by
  unfold function
  split
  · exact (heedless_examine (shows_ofParameters _ _ _)).bind fun frame =>
      (heedless_body each frame _).bind fun _ => heedless_emit _ k
  · exact heedless_fail _ _

theorem heedless_branch (expr : Value) : bench.Heedless exact (branch part ctx expr) :=
  (heedless_emit _ .nil).bind fun code => each ctx expr code

theorem heedless_conditional (args : List Value) (k : Value) :
    bench.Heedless exact (conditional part ctx args k) := by
  have whole (test consequent alternative : Value) :
      bench.Heedless exact (conditional part ctx [test, consequent, alternative] k) :=
    (heedless_branch each consequent).bind fun _ => (heedless_branch each alternative).bind fun _ =>
      (heedless_emit _ k).bind fun code => each ctx test code
  rcases args with _ | ⟨test, _ | ⟨consequent, _ | ⟨alternative, _ | ⟨_, _⟩⟩⟩⟩
  · exact heedless_fail _ _
  · exact heedless_fail _ _
  · exact whole test consequent .nil
  · exact whole test consequent alternative
  · exact heedless_fail _ _

theorem heedless_binding (args : List Value) (k : Value) :
    bench.Heedless exact (binding part ctx args k) :=
  (heedless_examine (shows_ofBindings "let" args)).bind fun _ =>
    (heedless_body each _ _).bind fun _ => (heedless_emit _ k).bind fun k =>
      heedless_arguments each _ k

theorem heedless_recursiveBinding (args : List Value) (k : Value) :
    bench.Heedless exact (recursiveBinding part ctx args k) :=
  (heedless_examine (shows_ofBindings "letrec" args)).bind fun _ =>
    (heedless_body each _ _).bind fun _ => (heedless_emit _ k).bind fun k =>
      (heedless_arguments each _ k).bind fun code => heedless_emit _ code

omit each in
theorem heedless_quotation (args : List Value) (k : Value) :
    bench.Heedless exact (quotation args k : CompileM ω Value) := by
  unfold quotation
  split
  · exact heedless_emit _ k
  · exact heedless_fail _ _

omit each in
theorem heedless_target (form : String) (v : Value) :
    bench.Heedless exact (target ctx form v) := by
  unfold target
  split
  · split
    · exact heedless_fail _ _
    · exact heedless_pure _
  · exact heedless_fail _ _

theorem heedless_assignment (args : List Value) (k : Value) :
    bench.Heedless exact (assignment part ctx args k) := by
  unfold assignment
  split
  · refine (heedless_target "set" _).bind fun name => ?_
    have finish (expr place : Value) :
        bench.Heedless exact (do part ctx expr (← emit [.op .st, place] k)) :=
      (heedless_emit _ k).bind fun code => each ctx expr code
    dsimp only
    split
    · exact heedless_fail _ _
    · exact (heedless_address _ _).bind (finish _)
    · exact (heedless_define .functions name).bind fun slot => (heedless_address _ slot).bind (finish _)
  · exact heedless_fail _ _

theorem heedless_definition (args : List Value) (k : Value) :
    bench.Heedless exact (definition part ctx args k) := by
  unfold definition
  split
  · exact (heedless_target "defm" _).bind fun name =>
      (heedless_examine (shows_ofParameters _ _ _)).bind fun frame =>
        (heedless_body each frame _).bind fun _ => (heedless_define .macros name).bind fun slot =>
          (heedless_address _ slot).bind fun _ => heedless_emit _ k
  · exact heedless_fail _ _

theorem heedless_expansion (name : Symbol) (slot : Nat) (args : List Value) (k : Value) :
    bench.Heedless exact (expansion part ctx name slot args k) := by
  have work : bench.Heedless exact (do
      let args ← onHeap (Heap.list args)
      let place ← address Globals.macroDepth slot
      let code ← onHeap (Heap.list [.op .ldc, args, .op .ld, place, .op .ap, .op .halt])
      let result ← runNow ctx code
      report ctx (.expanded (ctx.name name))
      part ctx.expanded result k) :=
    (heedless_onHeap (Heap.heedless_list args)).bind fun args =>
      (heedless_address Globals.macroDepth slot).bind fun place =>
        (heedless_onHeap (Heap.heedless_list _)).bind fun code =>
          (heedless_runNow code).bind fun result => (heedless_report _).bind fun _ =>
            each ctx.expanded result k
  unfold expansion
  dsimp only
  split
  · exact heedless_fail _ _
  · exact work

theorem heedless_named (name : Symbol) (args : List Value) (k : Value) :
    bench.Heedless exact (named part ctx name args k) := by
  unfold named
  split
  · exact heedless_function each args k
  · exact heedless_conditional each args k
  · exact heedless_binding each args k
  · exact heedless_recursiveBinding each args k
  · exact heedless_quotation args k
  · exact heedless_assignment each args k
  · exact heedless_definition each args k
  · split
    · exact heedless_arguments each args k
    · split
      · exact heedless_builtin each _ args k
      · refine (heedless_inspect _).bind fun slot => ?_
        split
        · exact heedless_expansion each name _ args k
        · exact heedless_application each _ args k

omit each in
theorem heedless_identifier (name : Symbol) (k : Value) :
    bench.Heedless exact (identifier ctx name k) := by
  unfold identifier
  split
  · exact (heedless_address _ _).bind fun place => heedless_emit _ k
  · exact (heedless_address _ _).bind fun place => heedless_emit _ k
  · refine (heedless_inspect _).bind fun slot => ?_
    cases slot with
    | some slot => exact (heedless_address _ slot).bind fun place => heedless_emit _ k
    | none => exact heedless_throw nofun

theorem heedless_whole (expr k : Value) : bench.Heedless exact (whole part ctx expr k) := by
  unfold whole
  cases expr with
  | nil => exact heedless_emit _ k
  | ident name => exact heedless_identifier name k
  | pair a =>
    have shows' : Heap.Shows fun h => (h.car a, h.toList? (h.cdr a)) := by
      intro h h' cells
      dsimp only
      rw [Heap.car_eq cells, Heap.cdr_eq cells]
      exact congrArg _ (Heap.shows_toList? _ h h' cells)
    refine (heedless_onHeap (Heap.heedless_read shows')).bind fun parts => ?_
    split
    · exact heedless_fail _ _
    · exact heedless_named each _ _ k
    · exact heedless_application each _ _ k
    · exact heedless_fail _ _
  | _ => exact heedless_emit _ k

end Forms

theorem heedless_expression (room : Nat) (ctx : Context ω) (expr k : Value) :
    bench.Heedless exact (expression room ctx expr k) := by
  induction room generalizing ctx expr k with
  | zero => exact heedless_fail _ _
  | succ room ih => exact heedless_whole ih expr k

theorem heedless_program (recorder : Recorder ω) (symbols : SymbolTable) (steps : Nat)
    (expr : Value) : bench.Heedless exact (program recorder symbols steps expr) :=
  (heedless_emit _ .nil).bind fun code => heedless_expression maxNesting _ expr code

theorem heedless_toplevel (recorder : Recorder ω) (symbols : SymbolTable) (steps : Nat)
    (expr : Value) : bench.Heedless exact (toplevel recorder symbols steps expr) := by
  intro s s' alike
  have same : s.globals = s'.globals := alike.same
  have matched := heedless_program recorder symbols steps expr s s' alike
  rw [toplevel_eq, toplevel_eq]
  generalize program recorder symbols steps expr s = r at matched ⊢
  generalize program recorder symbols steps expr s' = r' at matched ⊢
  cases matched with
  | ok alike lasts => exact .ok alike lasts
  | @error e t t' alike lasts full =>
    have after : t.globals = t'.globals := alike.same
    refine .error ⟨alike.heap, ?_⟩ lasts full
    show Globals.mk _ s.globals.functions s.globals.macros =
      Globals.mk _ s'.globals.functions s'.globals.macros
    rw [same, after]
  | full uneven lasts full => exact .full uneven lasts full

end Compile

end SecdLisp
