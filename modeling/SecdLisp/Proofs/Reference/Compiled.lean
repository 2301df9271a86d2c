import SecdLisp.Proofs.Reference.Code

/-!
# Compiling gives the code of the expression

One lemma for each form, by what the compiler does for it; the parts are compiled by something
that is sound, which at the end is the compiler with less room.
-/

namespace SecdLisp

namespace Reference

open Compile

variable {ω : Type} {h₀ : Heap} {macros : List Symbol} {means : Value → Datum → Prop}

structure Ready (h₀ : Heap) (macros : List Symbol) (s : State ω) : Prop where
  heap : h₀.Grows s.heap
  macros : s.globals.macros = macros

theorem Ready.after {s s' : State ω} (ready : Ready h₀ macros s) (adds : Adds s s') :
    Ready h₀ macros s' :=
  ⟨ready.heap.trans adds.heap, adds.macros.trans ready.macros⟩

/-- A part is sound if it compiles what spells an expression to code of that expression. -/
def Sound (h₀ : Heap) (macros : List Symbol) (means : Value → Datum → Prop) (part : Compile.Part ω) :
    Prop :=
  ∀ {ctx : Context ω} {x k c : Value} {s s' : State ω} {e : Expr},
    part ctx x k s = .ok c s' → Spells h₀ macros means ctx.scopes x e → Ready h₀ macros s →
    Emits means s s' fun P => Code P ctx.scopes (.expr e) k c

theorem ofItems_of_parameters {h h' : Heap} {items : List Value} {params : Frame}
    (spelled : Parameters h items params) (grows : h.Grows h') (symbols : SymbolTable)
    (form : String) : Frame.ofItems h' symbols form items = .ok params := by
  induction spelled with
  | nil => rfl
  | plain ordinary _ ih => simp [Frame.ofItems, ordinary, ih, bind, Except.bind, pure, Except.pure]
  | marked => simp [Frame.ofItems]
  | annotated items =>
    have list := (items.mono grows).toList?
    simp [Frame.ofItems, list, Frame.annotated, bind, Except.bind, pure, Except.pure]

theorem length_of_parameters {h : Heap} {items : List Value} {params : Frame}
    (spelled : Parameters h items params) : params.length ≤ items.length := by
  induction spelled with
  | nil => exact Nat.le_refl _
  | plain _ _ ih => exact Nat.succ_le_succ ih
  | marked => simp
  | annotated _ => simp

theorem ofParameters_of_parameters {h h' : Heap} {ps : Value} {items : List Value}
    {params : Frame} (list : h.Lists ps items) (spelled : Parameters h items params)
    (grows : h.Grows h') (symbols : SymbolTable) (form : String) :
    Frame.ofParameters h' symbols form ps = .ok params := by
  have elements := (list.mono grows).toList?
  simp only [Frame.ofParameters, elements]
  exact ofItems_of_parameters spelled grows symbols form

theorem ofNames_map (form : String) (names : List Symbol) :
    Frame.ofNames form (names.map .ident) = .ok (names.map .plain) := by
  induction names with
  | nil => rfl
  | cons name names ih =>
    simp [Frame.ofNames, ih, bind, Except.bind, pure, Except.pure]

theorem ofBindings_eq_ok {h h' : Heap} {ns vs x body : Value} {names : List Symbol}
    {xs values : List Value} {frame : Frame} {form : String} (bound : h.Lists ns (names.map .ident))
    (list : h.Lists vs xs) (grows : h.Grows h')
    (run : Frame.ofBindings h' form [ns, vs, x] = .ok (frame, values, body)) :
    frame = names.map .plain ∧ values = xs ∧ body = x := by
  have names? := (bound.mono grows).toList?
  have values? := (list.mono grows).toList?
  simp only [Frame.ofBindings, names?, values?, ofNames_map, bind, Except.bind, pure,
    Except.pure] at run
  split at run
  · cases run
  · cases run
    exact ⟨rfl, rfl, rfl⟩

theorem examine_eq_ok {α : Type} {f : Heap → Except CompileError α} {s s' : State ω} {a : α} :
    examine f s = .ok a s' ↔ f s.heap = .ok a ∧ s' = s := by
  unfold examine
  cases f s.heap <;> simp [eq_comm]

section Parts

variable {part : Compile.Part ω} {ctx : Context ω} {k c : Value} {s s' : State ω}

theorem conses_code (sound : Sound h₀ macros means part) {xs : List Value} {es : List Expr}
    (run : (xs.foldlM (fun code arg => do part ctx arg (← emit [.op .cons] code)) k :
      CompileM ω Value) s = .ok c s')
    (spelled : List.Forall₂ (Spells h₀ macros means ctx.scopes) xs es)
    (ready : Ready h₀ macros s) :
    Emits means s s' fun P => Code P ctx.scopes (.conses es) k c := by
  induction spelled generalizing k s with
  | nil =>
    rw [List.foldlM_nil, pure_eq_ok] at run
    obtain ⟨rfl, rfl⟩ := run
    exact ⟨.refl _, fun _ _ _ => .noConses⟩
  | cons spells _ ih =>
    simp only [List.foldlM_cons, bind_eq_ok] at run
    obtain ⟨c₂, s₂, ⟨c₁, s₁, consed, first⟩, others⟩ := run
    have words := emit_words means consed
    have code := sound first spells (ready.after words.1)
    have front := words.bind code fun _ => And.intro
    have rest := ih others (ready.after front.1)
    exact front.bind rest fun P both others => .conses both.1 both.2 others

theorem operands_code (sound : Sound h₀ macros means part) {xs : List Value} {es : List Expr}
    (run : (xs.foldlM (fun code arg => part ctx arg code) k : CompileM ω Value) s = .ok c s')
    (spelled : List.Forall₂ (Spells h₀ macros means ctx.scopes) xs es)
    (ready : Ready h₀ macros s) :
    Emits means s s' fun P => Code P ctx.scopes (.operands es) k c := by
  induction spelled generalizing k s with
  | nil =>
    rw [List.foldlM_nil, pure_eq_ok] at run
    obtain ⟨rfl, rfl⟩ := run
    exact ⟨.refl _, fun _ _ _ => .noOperands⟩
  | cons spells _ ih =>
    simp only [List.foldlM_cons, bind_eq_ok] at run
    obtain ⟨c₁, s₁, first, others⟩ := run
    have code := sound first spells ready
    have rest := ih others (ready.after code.1)
    exact code.bind rest fun P first others => .operands first others

theorem arguments_code (sound : Sound h₀ macros means part) {xs : List Value} {es : List Expr}
    (run : arguments part ctx xs k s = .ok c s')
    (spelled : List.Forall₂ (Spells h₀ macros means ctx.scopes) xs es)
    (ready : Ready h₀ macros s) :
    Emits means s s' fun P => Code P ctx.scopes (.arguments es) k c := by
  obtain ⟨c₁, s₁, inner, front⟩ := bind_eq_ok.mp run
  have code := conses_code sound inner spelled ready
  exact code.bind (emit_words means front) fun P inner words => .arguments inner words

theorem body_code (sound : Sound h₀ macros means part) {params : Frame} {x : Value} {e : Expr}
    (run : body part ctx params x s = .ok c s')
    (spells : Spells h₀ macros means (params :: ctx.scopes) x e) (ready : Ready h₀ macros s) :
    Emits means s s' fun P =>
      ∃ r, Words P.code [.op .rtn] .nil r ∧ Code P (params :: ctx.scopes) (.expr e) r c := by
  obtain ⟨r, s₁, rtn, inner⟩ := bind_eq_ok.mp run
  have words := emit_words means rtn
  have code := @sound (ctx.within params) _ _ _ _ _ _ inner spells (ready.after words.1)
  exact words.bind code fun P words code => ⟨r, words, code⟩

theorem function_code (sound : Sound h₀ macros means part) {ps x : Value} {items : List Value}
    {params : Frame} {e : Expr} (run : function part ctx [ps, x] k s = .ok c s')
    (list : h₀.Lists ps items) (spelled : Parameters h₀ items params)
    (spells : Spells h₀ macros means (params :: ctx.scopes) x e) (ready : Ready h₀ macros s) :
    Emits means s s' fun P => Code P ctx.scopes (.expr (.function params e)) k c := by
  simp only [function, bind_eq_ok, examine_eq_ok] at run
  obtain ⟨frame, s₁, ⟨parsed, rfl⟩, b, s₂, inner, front⟩ := run
  rw [ofParameters_of_parameters list spelled ready.heap] at parsed
  cases parsed
  have code := body_code sound inner spells ready
  have few := Nat.lt_of_le_of_lt (length_of_parameters spelled) list.length_lt
  exact code.bind (emit_words means front) fun P ⟨r, rtn, inner⟩ words => .function few rtn inner words

theorem branch_code (sound : Sound h₀ macros means part) {x : Value} {e : Expr}
    (run : branch part ctx x s = .ok c s') (spells : Spells h₀ macros means ctx.scopes x e)
    (ready : Ready h₀ macros s) :
    Emits means s s' fun P =>
      ∃ j, Words P.code [.op .join] .nil j ∧ Code P ctx.scopes (.expr e) j c := by
  obtain ⟨j, s₁, join, inner⟩ := bind_eq_ok.mp run
  have words := emit_words means join
  have code := sound inner spells (ready.after words.1)
  exact words.bind code fun P words code => ⟨j, words, code⟩

theorem conditional_code (sound : Sound h₀ macros means part) {args : List Value} {x y z : Value}
    {test consequent alternative : Expr} (run : conditional part ctx args k s = .ok c s')
    (three : args = [x, y, z] ∨ args = [x, y] ∧ z = .nil)
    (first : Spells h₀ macros means ctx.scopes x test)
    (second : Spells h₀ macros means ctx.scopes y consequent)
    (third : Spells h₀ macros means ctx.scopes z alternative) (ready : Ready h₀ macros s) :
    Emits means s s' fun P =>
      Code P ctx.scopes (.expr (.cond test consequent alternative)) k c := by
  have run : (do
      let consequent ← branch part ctx y
      let alternative ← branch part ctx z
      part ctx x (← emit [.op .sel, consequent, alternative] k)) s = .ok c s' := by
    rcases three with rfl | ⟨rfl, rfl⟩ <;> exact run
  simp only [bind_eq_ok] at run
  obtain ⟨c₁, s₁, run₁, c₂, s₂, run₂, c₃, s₃, sel, run₃⟩ := run
  have code₁ := branch_code sound run₁ second ready
  have ready₁ := ready.after code₁.1
  have code₂ := branch_code sound run₂ third ready₁
  have ready₂ := ready₁.after code₂.1
  have words := emit_words means sel
  have code₃ := sound run₃ first (ready₂.after words.1)
  refine (code₁.bind code₂ fun _ => And.intro).bind (words.bind code₃ fun _ => And.intro) ?_
  rintro P ⟨⟨j₁, join₁, second⟩, ⟨j₂, join₂, third⟩⟩ ⟨words, first⟩
  exact .cond join₁ second join₂ third words first

theorem binding_code (sound : Sound h₀ macros means part) {ns vs x : Value} {names : List Symbol}
    {xs : List Value} {values : List Expr} {e : Expr}
    (run : binding part ctx [ns, vs, x] k s = .ok c s') (bound : h₀.Lists ns (names.map .ident))
    (list : h₀.Lists vs xs) (outer : List.Forall₂ (Spells h₀ macros means ctx.scopes) xs values)
    (spells : Spells h₀ macros means (names.map .plain :: ctx.scopes) x e)
    (ready : Ready h₀ macros s) :
    Emits means s s' fun P =>
      Code P ctx.scopes (.expr (.bind (names.map .plain) values e)) k c := by
  simp only [binding, bind_eq_ok, examine_eq_ok] at run
  obtain ⟨⟨frame, vs, x'⟩, s₁, ⟨parsed, rfl⟩, b, s₂, inner, c₁, s₃, front, before⟩ := run
  obtain ⟨rfl, rfl, rfl⟩ := ofBindings_eq_ok bound list ready.heap parsed
  have code := body_code sound inner spells ready
  have ready₂ := ready.after code.1
  have words := emit_words means front
  have values := arguments_code sound before outer (ready₂.after words.1)
  refine (code.bind words fun _ => And.intro).bind values ?_
  rintro P ⟨⟨r, rtn, inner⟩, words⟩ outer
  exact .bind (by simpa using bound.length_lt) rtn inner words outer

theorem recursiveBinding_code (sound : Sound h₀ macros means part) {ns vs x : Value}
    {names : List Symbol} {xs : List Value} {values : List Expr} {e : Expr}
    (run : recursiveBinding part ctx [ns, vs, x] k s = .ok c s')
    (bound : h₀.Lists ns (names.map .ident)) (list : h₀.Lists vs xs)
    (within : List.Forall₂ (Spells h₀ macros means (names.map .plain :: ctx.scopes)) xs values)
    (spells : Spells h₀ macros means (names.map .plain :: ctx.scopes) x e)
    (ready : Ready h₀ macros s) :
    Emits means s s' fun P =>
      Code P ctx.scopes (.expr (.recursive (names.map .plain) values e)) k c := by
  simp only [recursiveBinding, bind_eq_ok, examine_eq_ok] at run
  obtain ⟨⟨frame, vs, x'⟩, s₁, ⟨parsed, rfl⟩, b, s₂, inner, c₁, s₃, front, c₂, s₄, before,
    dum⟩ := run
  obtain ⟨rfl, rfl, rfl⟩ := ofBindings_eq_ok bound list ready.heap parsed
  have code := body_code sound inner spells ready
  have ready₂ := ready.after code.1
  have words := emit_words means front
  have values : Emits means _ _ fun P =>
      Code P (names.map .plain :: ctx.scopes) (.arguments values) c₁ c₂ :=
    arguments_code sound before within (ready₂.after words.1)
  refine ((code.bind words fun _ => And.intro).bind values fun _ => And.intro).bind
    (emit_words means dum) ?_
  rintro P ⟨⟨⟨r, rtn, inner⟩, words⟩, within⟩ dum
  exact .recursive (by simpa using bound.length_lt) rtn inner words within dum

theorem defineFunction_spec {name : Symbol} {slot : Nat}
    (run : defineFunction ctx name s = .ok slot s') :
    Adds s s' ∧ Globals.slotIn? s'.globals.functions name = some slot := by
  cases run
  exact ⟨⟨.refl _, Globals.le_defineIn .., rfl⟩, Globals.slotIn?_defineIn ..⟩

theorem slotIn?_mono {table table' : List Symbol} {name : Symbol} {slot : Nat}
    (found : Globals.slotIn? table name = some slot) (le : table <+: table') :
    Globals.slotIn? table' name = some slot := by
  obtain ⟨more, rfl⟩ := le
  obtain ⟨i, here, rfl⟩ := Option.map_eq_some_iff.mp found
  rw [List.idxOf?] at here
  simp [Globals.slotIn?, List.idxOf?, here]

theorem target_eq_ok {form : String} {name name' : Symbol}
    (run : target ctx form (.ident name) s = .ok name' s') : name' = name ∧ s' = s := by
  simp only [target] at run
  split at run
  · cases run
  · exact pure_eq_ok.mp run

theorem store_code (sound : Sound h₀ macros means part) {v x : Value}
    {e : Expr} (run : (do part ctx x (← emit [.op .st, v] k) : CompileM ω Value) s = .ok c s')
    (spells : Spells h₀ macros means ctx.scopes x e) (ready : Ready h₀ macros s) :
    Emits means s s' fun P => ∀ name slot, Placed P ctx.scopes name (.plain slot) v →
      Code P ctx.scopes (.expr (.assign name e)) k c := by
  obtain ⟨c₁, s₁, front, inner⟩ := bind_eq_ok.mp run
  have words := emit_words means front
  have code := sound inner spells (ready.after words.1)
  exact words.bind code fun P words inner name slot placed => .assign placed words inner

theorem assignment_code (sound : Sound h₀ macros means part) {name : Symbol} {x : Value}
    {e : Expr} (run : assignment part ctx [.ident name, x] k s = .ok c s')
    (spells : Spells h₀ macros means ctx.scopes x e) (ready : Ready h₀ macros s) :
    Emits means s s' fun P => Code P ctx.scopes (.expr (.assign name e)) k c := by
  obtain ⟨name', s₁, targeted, rest⟩ := bind_eq_ok.mp run
  obtain ⟨rfl, rfl⟩ := target_eq_ok targeted
  rcases found : ctx.locate? name' with _ | ⟨depth, index, slot | slot⟩ <;> rw [found] at rest
  · obtain ⟨slot, s₁, defined, rest⟩ := bind_eq_ok.mp rest
    obtain ⟨v, s₂, placed, stored⟩ := bind_eq_ok.mp rest
    obtain ⟨adds, known⟩ := defineFunction_spec defined
    have code := address_address means placed
    have ready₁ := ready.after adds
    have stored := store_code sound stored spells (ready₁.after code.1)
    refine ⟨(adds.trans code.1).trans stored.1, fun P means covers => ?_⟩
    have later := covers.after adds
    have address := code.2 P means (later.before stored.1)
    have table := (code.1.trans stored.1).functions.trans covers.table
    refine stored.2 P means (later.after code.1) name' name' ?_
    exact .outer found (slotIn?_mono known table) address
  · obtain ⟨v, s₁, placed, stored⟩ := bind_eq_ok.mp rest
    have code := address_address means placed
    have stored := store_code sound stored spells (ready.after code.1)
    exact code.bind stored fun P address stored => stored name' slot (.inner found address)
  · cases rest

theorem builtin_code (sound : Sound h₀ macros means part) {b : Builtin} {xs : List Value}
    {es : List Expr} (run : builtin part ctx b xs k s = .ok c s')
    (spelled : List.Forall₂ (Spells h₀ macros means ctx.scopes) xs es)
    (ready : Ready h₀ macros s) :
    Emits means s s' fun P => Code P ctx.scopes (.expr (.builtin b es)) k c := by
  rw [builtin] at run
  by_cases count : xs.length = b.arity
  · have same : (xs.length != b.arity) = false := by simpa using count
    rw [same] at run
    obtain ⟨c₁, s₁, front, inner⟩ := bind_eq_ok.mp run
    have words := emit_words means front
    have code := operands_code sound inner spelled (ready.after words.1)
    refine words.bind code fun P words inner => .builtin ?_ words inner
    rw [← spelled.length_eq, count]
  · have differ : (xs.length != b.arity) = true := by simpa using count
    rw [differ] at run
    cases run

theorem application_code (sound : Sound h₀ macros means part) {head : Value} {xs : List Value}
    {operator : Expr} {es : List Expr} (run : application part ctx head xs k s = .ok c s')
    (first : Spells h₀ macros means ctx.scopes head operator)
    (spelled : List.Forall₂ (Spells h₀ macros means ctx.scopes) xs es)
    (ready : Ready h₀ macros s) :
    Emits means s s' fun P => Code P ctx.scopes (.expr (.apply operator es)) k c := by
  simp only [application, bind_eq_ok] at run
  obtain ⟨c₁, s₁, front, c₂, s₂, called, before⟩ := run
  have words := emit_words means front
  have ready₁ := ready.after words.1
  have code := sound called first ready₁
  have args := arguments_code sound before spelled (ready₁.after code.1)
  refine (words.bind code fun _ => And.intro).bind args ?_
  rintro P ⟨words, first⟩ inner
  exact .apply words first inner

theorem load_code (means : Value → Datum → Prop) {depth index : Nat} {formal : Formal}
    (run : (do emit [.op (loadCode formal), ← address depth index] k : CompileM ω Value) s =
      .ok c s') :
    Emits means s s' fun P => ∀ scopes name,
      (∀ v, Address P.code depth index v → Placed P scopes name formal v) →
        Code P scopes (.expr (.ident name)) k c := by
  obtain ⟨v, s₁, placed, front⟩ := bind_eq_ok.mp run
  refine (address_address means placed).bind (emit_words means front) ?_
  intro P address words scopes name placed
  exact .ident (placed v address) words

theorem identifier_code {name : Symbol} (run : identifier ctx name k s = .ok c s') :
    Emits means s s' fun P => Code P ctx.scopes (.expr (.ident name)) k c := by
  rw [identifier] at run
  rcases found : ctx.locate? name with _ | ⟨depth, index, slot | slot⟩ <;> rw [found] at run
  · obtain ⟨slot?, s₁, seen, run⟩ := bind_eq_ok.mp run
    cases seen
    dsimp only at run
    rcases known : s.globals.functionSlot? name with _ | slot <;> rw [known] at run
    · cases run
    · have code := @load_code _ _ _ _ _ means _ _ (.plain name) run
      refine ⟨code.1, fun P means covers => code.2 P means covers _ _ fun v address => ?_⟩
      have table := code.1.functions.trans covers.table
      exact .outer found (slotIn?_mono known table) address
  · have code := @load_code _ _ _ _ _ means _ _ (.plain slot) run
    exact code.mono fun P code => code _ _ fun v address => .inner found address
  · have code := @load_code _ _ _ _ _ means _ _ (.rest slot) run
    exact code.mono fun P code => code _ _ fun v address => .inner found address

def headed (part : Compile.Part ω) (ctx : Context ω) (args : List Value) (k : Value) :
    Value → CompileM ω Value
  | .ident name => named part ctx name args k
  | .pair b => application part ctx (.pair b) args k
  | head => fail "application" (.notCallable head.kind)

theorem whole_of_lists {v head : Value} {args : List Value} (items : h₀.Lists v (head :: args))
    (ready : Ready h₀ macros s) (run : whole part ctx v k s = .ok c s') :
    headed part ctx args k head s = .ok c s' := by
  obtain ⟨a, rfl, owned, here, others⟩ := (items.mono ready.heap).uncons
  obtain ⟨⟨head', args?⟩, s₁, seen, run⟩ := bind_eq_ok.mp run
  cases seen
  simp only [here, others.toList?] at run
  cases head <;> exact run

def keyed (part : Compile.Part ω) (ctx : Context ω) (args : List Value) (k : Value) :
    Special → CompileM ω Value
  | .function => function part ctx args k
  | .conditional => conditional part ctx args k
  | .binding => binding part ctx args k
  | .recursiveBinding => recursiveBinding part ctx args k
  | .quotation => quotation args k
  | .assignment => assignment part ctx args k
  | .definition => definition part ctx args k

theorem keyed_of_lists {v : Value} {args : List Value} {keyword : Symbol} {special : Special}
    (items : h₀.Lists v (.ident keyword :: args)) (means : Special.ofSymbol? keyword = some special)
    (ready : Ready h₀ macros s) (run : whole part ctx v k s = .ok c s') :
    keyed part ctx args k special s = .ok c s' := by
  have run := whole_of_lists items ready run
  simp only [headed, named, means] at run
  cases special <;> exact run

theorem application_of_callee {head : Value} {args : List Value}
    (callee : Callee macros ctx.scopes head) (ready : Ready h₀ macros s)
    (run : headed part ctx args k head s = .ok c s') :
    application part ctx head args k s = .ok c s' := by
  cases callee with
  | pair a => exact run
  | @ident name ordinary notList notBuiltin noMacro =>
    simp only [headed, named, ordinary, notList, notBuiltin, if_false] at run
    obtain ⟨slot?, s₁, seen, run⟩ := bind_eq_ok.mp run
    cases seen
    dsimp only at run
    rcases noMacro with hidden | free
    · obtain ⟨place, found⟩ := Option.ne_none_iff_exists'.mp hidden
      have here : ctx.locate? name = some place := found
      rw [here] at run
      exact run
    · have none : s.globals.macroSlot? name = none := by
        rw [← ready.macros] at free
        simpa [Globals.macroSlot?, Globals.slotIn?] using free
      rw [none] at run
      cases found : ctx.locate? name <;> rw [found] at run <;> exact run

theorem quote_code {x : Value} {d : Datum} (run : emit [.op .ldc, x] k s = .ok c s')
    (literal : means x d) :
    Emits means s s' fun P => Code P ctx.scopes (.expr (.quote d)) k c := by
  have words := emit_words means run
  exact ⟨words.1, fun P covered covers => .quote (covered _ _ literal) (words.2 P covered covers)⟩

theorem whole_code (sound : Sound h₀ macros means part) :
    Sound h₀ macros means (whole part) := by
  intro ctx x k c s s' e run spells ready
  have all {xs : List Value} {es : List Expr} {scopes : List Frame}
      (count : xs.length = es.length)
      (inner : ∀ p ∈ xs.zip es, Spells h₀ macros means scopes p.1 p.2) :
      List.Forall₂ (Spells h₀ macros means scopes) xs es :=
    List.forall₂_iff_zip.mpr ⟨count, fun mem => inner _ mem⟩
  cases spells with
  | nil => exact (emit_words means run).mono fun P words => .nil words
  | atom constant literal =>
    have code : emit [.op .ldc, x] k s = .ok c s' := by
      obtain rfl | ⟨n, rfl⟩ | ⟨o, rfl⟩ := constant <;> exact run
    exact quote_code code literal
  | ident name => exact identifier_code run
  | quote special items literal =>
    exact quote_code (keyed_of_lists items special ready run) literal
  | function special items list spelled inner =>
    exact function_code sound (keyed_of_lists items special ready run) list spelled inner ready
  | @cond _ _ t u v _ _ _ _ special items first second third =>
    have run : conditional part ctx [t, u, v] k s = .ok c s' :=
      keyed_of_lists items special ready run
    exact conditional_code sound run (.inl rfl) first second third ready
  | @condShort _ _ t u _ _ _ special items first second =>
    have run : conditional part ctx [t, u] k s = .ok c s' :=
      keyed_of_lists items special ready run
    exact conditional_code sound run (.inr ⟨rfl, rfl⟩) first second .nil ready
  | bind special items bound list count outer inner =>
    have run := keyed_of_lists items special ready run
    exact binding_code sound run bound list (all count outer) inner ready
  | recursive special items bound list count within inner =>
    have run := keyed_of_lists items special ready run
    exact recursiveBinding_code sound run bound list (all count within) inner ready
  | assign special items inner =>
    exact assignment_code sound (keyed_of_lists items special ready run) inner ready
  | list items count inner =>
    have run := whole_of_lists items ready run
    have code := arguments_code (k := k) sound run (all count inner) ready
    exact code.mono fun P code => .list code
  | @builtin _ _ xs args b items count inner =>
    have run := whole_of_lists items ready run
    have code : builtin part ctx b xs k s = .ok c s' := by
      cases b <;> exact run
    exact builtin_code sound code (all count inner) ready
  | apply items callee first count inner =>
    have run := application_of_callee callee ready (whole_of_lists items ready run)
    exact application_code sound run first (all count inner) ready

/-- The compiler is sound, whatever room it is given. -/
theorem expression_code (room : Nat) : Sound h₀ macros means (expression (ω := ω) room) := by
  induction room with
  | zero =>
    intro ctx x k c s s' e run
    cases run
  | succ room ih => exact whole_code ih

end Parts

end Reference

end SecdLisp
