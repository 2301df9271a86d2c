import SecdLisp.Proofs.Reference.Delivery

/-!
# Code simulates the evaluator

The code of each form delivers the form's value if the code of its parts, and the bodies of
closures, do. By induction on the evaluator's fuel, so does the code of every expression.
-/

namespace SecdLisp

namespace Reference

open Layout

/-- A caller's registers on the dump, in cells without a role. -/
structure Saved (L : Layout) (h : Heap) (d : Addr) (S E k D : Value) : Prop where
  stack : h.cell (d + 2) = ⟨S, .pair (d + 1)⟩
  env : h.cell (d + 1) = ⟨E, .pair d⟩
  code : h.cell d = ⟨k, D⟩
  owned : d + 2 < h.size
  free : ∀ b, d ≤ b → b ≤ d + 2 → L.role b = none

variable {symbols : SymbolTable} {P : Program} {g n m : Nat} {L L₁ : Layout} {σ σ' : Store}
  {h h₁ : Heap} {S E k c D v : Value} {d : Datum} {ds : List Datum} {locals : Locals}
  {sub : Env → Expr → EvalM Datum}

theorem Saved.keep {a : Addr} (saved : Saved L h a S E k D) (ext : Extends h.size L h L₁ h₁) :
    Saved L₁ h₁ a S E k D := by
  have owned := saved.owned
  have same (b : Addr) (low : a ≤ b) (high : b ≤ a + 2) : h₁.cell b = h.cell b :=
    ext.quiet b (Nat.lt_of_le_of_lt high owned) (saved.free b low high)
  refine ⟨?_, ?_, ?_, Nat.lt_of_lt_of_le owned ext.size_le, fun b low high => ?_⟩
  · rw [same _ (Nat.le_add_right ..) (Nat.le_refl _), saved.stack]
  · rw [same _ (Nat.le_add_right ..) (Nat.le_succ _), saved.env]
  · rw [same _ (Nat.le_refl _) (Nat.le_add_right ..), saved.code]
  · exact ext.idle b (Nat.lt_of_le_of_lt high owned) (saved.free b low high)

theorem saved_of_calls (calls : Calls h h₁ S E k D) (free : ∀ b, h.size ≤ b → L.role b = none) :
    Saved L h₁ h.size S E k D := by
  refine ⟨calls.stack, calls.env, calls.code, ?_, fun b low _ => free b low⟩
  rw [calls.size]
  exact Nat.lt_succ_self _

theorem Words.isPair {w : Value} {ws : List Value} (words : Words P.code (w :: ws) k c) :
    c.isPair = true := by
  cases words with
  | cons _ _ => rfl

theorem Code.isPair {scopes : List Frame} {phrase : Phrase} (code : Code P scopes phrase k c)
    (isPair : k.isPair = true) : c.isPair = true := by
  induction code with
  | nil words | quote _ words | ident _ words => exact words.isPair
  | function _ _ _ words => exact words.isPair
  | cond _ _ _ _ words _ _ _ ih => exact ih words.isPair
  | bind _ _ _ words _ _ ih => exact ih words.isPair
  | recursive _ _ _ _ _ dum _ _ => exact dum.isPair
  | assign _ words _ ih => exact ih words.isPair
  | list _ ih => exact ih isPair
  | builtin _ words _ ih => exact ih words.isPair
  | apply words _ _ first others => exact others (first words.isPair)
  | arguments _ words _ => exact words.isPair
  | noConses | noOperands => exact isPair
  | conses words _ _ first others => exact others (first words.isPair)
  | operands _ _ first others => exact others (first isPair)

/-- The body of a closure, when it has delivered, returns to the caller. -/
theorem leads_body (simulates : Simulates symbols P g sub) (mirrors : Mirrors P g L σ h)
    (env : L.EnvAt g locals v) {body : Expr} {r b : Value} {a : Addr}
    (saved : Saved L h a S E k D) (low : n ≤ h.size) (rtn : Words P.code [.op .rtn] .nil r)
    (code : Code P (locals.map Prod.fst) (.expr body) r b)
    (run : sub ⟨locals, P.table, g⟩ body σ = some (d, σ')) :
    Leads symbols (Delivers P g n L h S E k D d σ') ⟨.nil, v, b, .pair (a + 2)⟩ h := by
  refine (simulates _ _ _ _ _ L h .nil v r b _ run code mirrors env).trans ?_
  rintro _ h₁ ⟨L₁, s, w, rfl, ext, mirrors₁, cell, _, means⟩
  have saved₁ := saved.keep ext
  refine leads_rtn mirrors₁.holds rtn cell saved₁.stack saved₁.env saved₁.code fun room => .here ?_
  exact delivers_push (ext.mono low) mirrors₁ means (Nat.le_trans low ext.size_le) room

/-- A closure is pushed, which is no object of the program. -/
theorem leads_closure {goal : Registers → Heap → Prop} {ws : List Value} {b : Value}
    (held : Holds P.code h) (words : Words P.code (.op .ldf :: b :: ws) k c)
    (next : ∀ c' h₁, Words P.code ws k c' → h.Grows h₁ → h₁.cell h.size = ⟨b, E⟩ →
      h₁.cell (h.size + 1) = ⟨.pair h.size, S⟩ →
      Leads symbols goal ⟨.pair (h.size + 1), E, c', D⟩ h₁) :
    Leads symbols goal ⟨S, E, c, D⟩ h := by
  obtain ⟨c₁, first, words⟩ := words.split
  obtain ⟨c₂, second, words⟩ := words.split
  have ldf : Words P.code [.op .ldf, b] c₂ c := by
    obtain _ | ⟨here, rest⟩ := first
    cases rest
    exact .cons here second
  refine leads_ldf held ldf fun room room' => ?_
  refine next c₂ _ words ((Heap.grows_grown ..).trans (Heap.grows_grown ..)) ?_ ?_
  · have ne : h.size ≠ (h.grown ⟨b, E⟩ room).size := by simp
    rw [Heap.cell_grown_of_ne ne, Heap.cell_grown_size]
  · have size : (h.grown ⟨b, E⟩ room).size = h.size + 1 := Heap.size_grown ..
    rw [← size, Heap.cell_grown_size]

/-- A closure on top of an argument list is applied. -/
theorem leads_call (simulates : Simulates symbols P g sub) (mirrors : Mirrors P g L σ h)
    {s s' f : Addr} {as : List Addr} {body : Expr} {params : Frame} {r b env : Value}
    (words : Words P.code [.op .ap] k c) (top : h.cell s = ⟨.pair f, .pair s'⟩)
    (below : h.cell s' = ⟨v, S⟩) (loose : Loose L h n s' v ds as) (low : n ≤ s' ∧ s' ≤ h.size)
    (closure : h.cell f = ⟨b, env⟩) (few : params.length < 2 ^ 63)
    (rtn : Words P.code [.op .rtn] .nil r)
    (code : Code P (params :: locals.map Prod.fst) (.expr body) r b)
    (outer : L.EnvAt g locals env) {slots : Slots} {σ₁ : Store}
    (bound : bindArguments params ds σ = some (slots, σ₁))
    (run : sub ⟨(params, σ₁.frames.length) :: locals, P.table, g⟩ body (σ₁.addFrame slots) =
      some (d, σ')) :
    Leads symbols (Delivers P g n L h S E k D d σ') ⟨.pair s, E, c, D⟩ h := by
  have isPair := code.isPair rtn.isPair
  obtain ⟨L₁, as₁, w, ext₁, mirrors₁, spare⟩ := bindArguments_spec mirrors loose bound
  have n_le := Nat.le_trans low.1 low.2
  refine leads_ap mirrors.holds words top below closure isPair fun h₂ calls room => ?_
  have size_le := calls.grows.size_le
  have n_le₂ := Nat.le_trans n_le size_le
  have ext₂ : Extends n L₁ h L₁ h₂ := .of_grows calls.grows n_le L₁
  have mirrors₂ := mirrors₁.grows calls.grows
  have saved : Saved L₁ h₂ h.size S E k D :=
    saved_of_calls calls fun b high => mirrors₁.fresh high
  obtain ⟨L₃, ext₃, mirrors₃, env₃, idle⟩ := mirrors₂.enter (spare.grows calls.grows low.2)
    (Nat.le_trans low.2 size_le) n_le₂ room ((outer.mono ext₁).mono ext₂) few
  have saved₃ : Saved L₃ (h₂.grown ⟨v, env⟩ room) h.size S E k D := by
    have kept (b : Addr) (high : b ≤ h.size + 2) :
        (h₂.grown ⟨v, env⟩ room).cell b = h₂.cell b :=
      Heap.cell_grown_of_lt (Nat.lt_of_le_of_lt high saved.owned)
    refine ⟨?_, ?_, ?_, ?_, fun b below above => ?_⟩
    · rw [kept _ (Nat.le_refl _), saved.stack]
    · rw [kept _ (Nat.le_succ _), saved.env]
    · rw [kept _ (Nat.le_add_right ..), saved.code]
    · rw [Heap.size_grown]
      exact Nat.lt_succ_of_lt saved.owned
    · exact idle b (Nat.le_trans low.2 below) (Nat.ne_of_lt (Nat.lt_of_le_of_lt above saved.owned))
        (saved.free b below above)
  have ext := (ext₁.trans ext₂).trans ext₃
  refine (leads_body simulates mirrors₃ env₃ saved₃ (Nat.le_trans n_le₂ ?_) rtn code run).trans
    fun r h' delivers => .here (delivers.after ext (Nat.le_refl _))
  rw [Heap.size_grown]
  exact Nat.le_succ _

/-- What the evaluator finds in a slot is what the machine loads. -/
theorem loads_of_bound (mirrors : Mirrors P g L σ h) {depth : Nat} {b : Binding} {slots : Slots}
    (bound : BoundAt L h E depth b) (contents : σ.frames[b.frame]? = some slots)
    (run : (match b.formal with
      | .plain _ => EvalM.ofOption (slots.get? b.index)
      | .rest _ => EvalM.ofOption (slots.rest? b.index)) σ = some (d, σ')) :
    ∃ w, loaded? h E depth b.index b.formal = some w ∧ L.Means w d ∧ σ' = σ := by
  cases formal : b.formal with
  | plain _ =>
    simp only [formal] at run
    obtain ⟨_, value, eq⟩ := EvalM.ofOption_eq_some.mp run
    cases eq
    obtain ⟨w, found, means⟩ := lookup?_of_bound mirrors bound contents value
    exact ⟨w, found, means, rfl⟩
  | rest _ =>
    simp only [formal] at run
    obtain ⟨_, value, eq⟩ := EvalM.ofOption_eq_some.mp run
    cases eq
    obtain ⟨w, found, means⟩ := lookupRest?_of_bound mirrors bound contents value
    exact ⟨w, found, means, rfl⟩

section Forms

variable (simulates : Simulates symbols P g sub) (mirrors : Mirrors P g L σ h)
  (env : L.EnvAt g locals E)

include mirrors in
theorem leads_quote {q : Datum}
    (run : evalWith sub ⟨locals, P.table, g⟩ (.quote q) σ = some (d, σ'))
    (code : Code P (locals.map Prod.fst) (.expr (.quote q)) k c) :
    Leads symbols (Delivers P g h.size L h S E k D d σ') ⟨S, E, c, D⟩ h := by
  cases run
  cases code with
  | quote literal words =>
    refine leads_ldc mirrors.holds words fun room => .here ?_
    exact delivers_push (.refl _ L h) mirrors (mirrors.literals _ _ literal) (Nat.le_refl _) room

include mirrors env in
theorem leads_ident {name : Symbol} (run : lookup ⟨locals, P.table, g⟩ name σ = some (d, σ'))
    (code : Code P (locals.map Prod.fst) (.expr (.ident name)) k c) :
    Leads symbols (Delivers P g h.size L h S E k D d σ') ⟨S, E, c, D⟩ h := by
  cases code with
  | @ident _ _ formal v _ _ placed words =>
    obtain ⟨b, σ₁, found, run⟩ := EvalM.bind_eq_some.mp run
    obtain ⟨b', known, eq⟩ := EvalM.ofOption_eq_some.mp found
    cases eq
    obtain ⟨slots, σ₂, framed, run⟩ := EvalM.bind_eq_some.mp run
    obtain ⟨slots', contents, eq⟩ := EvalM.frame_eq_some.mp framed
    cases eq
    obtain ⟨rfl, depth, address, bound⟩ := placed_bound mirrors env placed known
    obtain ⟨w, loads, means, rfl⟩ := loads_of_bound mirrors bound contents run
    refine leads_load mirrors.holds words address loads fun room => .here ?_
    exact delivers_push (.refl _ L h) mirrors means (Nat.le_refl _) room

include simulates mirrors env in
theorem leads_cond {test consequent alternative : Expr}
    (run : evalWith sub ⟨locals, P.table, g⟩ (.cond test consequent alternative) σ = some (d, σ'))
    (code : Code P (locals.map Prod.fst) (.expr (.cond test consequent alternative)) k c) :
    Leads symbols (Delivers P g h.size L h S E k D d σ') ⟨S, E, c, D⟩ h := by
  cases code with
  | @cond _ _ _ _ c₁ c₂ _ j₁ j₂ _ _ join₁ second join₂ third words first =>
    obtain ⟨t, σ₁, tested, run⟩ := EvalM.bind_eq_some.mp run
    refine (simulates _ _ _ _ _ L h S E _ _ D tested first mirrors env).trans ?_
    rintro _ h₁ ⟨L₁, a, v, rfl, ext₁, mirrors₁, cell, ⟨low, owned, free⟩, means⟩
    refine leads_sel mirrors₁.holds words cell fun room => ?_
    -- The branch ends in a join, which takes the code after the conditional from the dump.
    have grows := Heap.grows_grown h₁ ⟨k, D⟩ room
    have ext₂ : Extends h.size L h L₁ (h₁.grown ⟨k, D⟩ room) :=
      ext₁.trans (.of_grows grows ext₁.size_le L₁)
    have mirrors₂ := mirrors₁.grows grows
    have branch (e : Expr) (j b : Value) (join : Words P.code [.op .join] .nil j)
        (run : sub ⟨locals, P.table, g⟩ e σ₁ = some (d, σ'))
        (code : Code P (locals.map Prod.fst) (.expr e) j b) :
        Leads symbols (Delivers P g h.size L h S E k D d σ') ⟨S, E, b, .pair h₁.size⟩
          (h₁.grown ⟨k, D⟩ room) := by
      refine (simulates _ _ _ _ _ L₁ _ S E _ _ _ run code mirrors₂ (env.mono ext₂)).trans ?_
      rintro _ h₃ ⟨L₃, a₃, w, rfl, ext₃, mirrors₃, cell₃, ⟨low₃, owned₃, free₃⟩, means₃⟩
      have dump : h₃.cell h₁.size = ⟨k, D⟩ := by
        rw [ext₃.quiet _ (by simp) (mirrors₁.fresh (Nat.le_refl _)), Heap.cell_grown_size]
      refine leads_join mirrors₃.holds join dump (.here ?_)
      have low := Nat.le_trans ext₂.size_le low₃
      exact ⟨L₃, a₃, w, rfl, ext₂.trans (ext₃.mono ext₂.size_le), mirrors₃, cell₃,
        ⟨low, owned₃, free₃⟩, means₃⟩
    by_cases truthy : v.isTruthy = true
    · have true := (isTruthy_of_means means).mp truthy
      rw [if_neg true] at run
      rw [if_pos truthy]
      exact branch consequent j₁ c₁ join₁ run second
    · have false : t = .nil := not_not.mp fun ne => truthy ((isTruthy_of_means means).mpr ne)
      rw [if_pos false] at run
      rw [if_neg truthy]
      exact branch alternative j₂ c₂ join₂ run third

include mirrors env in
theorem leads_function {params : Frame} {body : Expr}
    (run : evalWith sub ⟨locals, P.table, g⟩ (.function params body) σ = some (d, σ'))
    (code : Code P (locals.map Prod.fst) (.expr (.function params body)) k c) :
    Leads symbols (Delivers P g h.size L h S E k D d σ') ⟨S, E, c, D⟩ h := by
  cases run
  cases code with
  | @function _ _ _ r b _ _ few rtn inner words =>
    refine leads_ldf mirrors.holds words fun room room' => .here ?_
    have grows := Heap.grows_grown h ⟨b, E⟩ room
    have free := mirrors.fresh (Nat.le_refl h.size)
    have size : (h.grown ⟨b, E⟩ room).size = h.size + 1 := Heap.size_grown ..
    have cell : (h.grown ⟨b, E⟩ room).cell h.size = ⟨b, E⟩ := Heap.cell_grown_size ..
    have portrays : L.Portrays P g ((h.grown ⟨b, E⟩ room).cell h.size)
        (.closure params body locals) := by
      rw [cell]
      exact .closure few rtn inner env
    have mirrors₁ := (mirrors.grows grows).adopt (by rw [size]; exact Nat.lt_succ_self _) free portrays
    have ext : Extends h.size L h _ (h.grown ⟨b, E⟩ room) :=
      (Extends.of_grows grows (Nat.le_refl _) L).trans (extends_adopt free (Nat.le_refl _) _
        ((h.grown ⟨b, E⟩ room).cell h.size))
    have pushed := @delivers_push P g h.size L _ _ h _ S E k D _ _ ext mirrors₁
      (means_newest L h.size _) (by rw [size]; exact Nat.le_succ _) room'
    rw [mirrors.objectCount, size] at pushed
    exact pushed

include simulates mirrors env in
theorem leads_assign {name : Symbol} {value : Expr}
    (run : evalWith sub ⟨locals, P.table, g⟩ (.assign name value) σ = some (d, σ'))
    (code : Code P (locals.map Prod.fst) (.expr (.assign name value)) k c) :
    Leads symbols (Delivers P g h.size L h S E k D d σ') ⟨S, E, c, D⟩ h := by
  cases code with
  | @assign _ _ slot _ v _ _ _ placed words inner =>
    obtain ⟨d, σ₁, evaluated, run⟩ := EvalM.bind_eq_some.mp run
    obtain ⟨_, σ₂, assigned, eq⟩ := EvalM.bind_eq_some.mp run
    cases eq
    refine (simulates _ _ _ _ _ L h S E _ _ D evaluated inner mirrors env).trans ?_
    rintro _ h₁ ⟨L₁, a, w, rfl, ext₁, mirrors₁, cell, ⟨low, owned, free⟩, means⟩
    obtain ⟨b, σ₃, found, assigned⟩ := EvalM.bind_eq_some.mp assigned
    obtain ⟨b', known, eq⟩ := EvalM.ofOption_eq_some.mp found
    cases eq
    obtain ⟨formal, depth, address, bound⟩ := placed_bound mirrors₁ (env.mono ext₁) placed known
    simp only [formal] at assigned
    obtain ⟨slots, σ₄, framed, assigned⟩ := EvalM.bind_eq_some.mp assigned
    obtain ⟨slots', contents, eq⟩ := EvalM.frame_eq_some.mp framed
    cases eq
    obtain ⟨slots'', σ₅, set, assigned⟩ := EvalM.bind_eq_some.mp assigned
    obtain ⟨_, grown, eq⟩ := EvalM.ofOption_eq_some.mp set
    cases eq
    cases assigned
    have stored := ends_store mirrors₁ bound contents grown means (Nat.le_refl h₁.size)
    refine leads_st mirrors₁.holds words address (congrArg Cell.car cell) (stored.mono ?_ fun _ _ => id)
    rintro _ h₂ ⟨found, L₂, ext₂, mirrors₂⟩
    refine ⟨found, .here ⟨L₂, a, w, rfl, ext₁.trans (ext₂.mono ext₁.size_le), mirrors₂, ?_,
      ⟨low, Nat.lt_of_lt_of_le owned ext₂.size_le, ext₂.idle a owned free⟩,
      means.mono ext₂.objects⟩⟩
    rw [ext₂.quiet a owned free, cell]

include simulates mirrors env in
theorem leads_list {args : List Expr}
    (run : evalWith sub ⟨locals, P.table, g⟩ (.list args) σ = some (d, σ'))
    (code : Code P (locals.map Prod.fst) (.expr (.list args)) k c) :
    Leads symbols (Delivers P g h.size L h S E k D d σ') ⟨S, E, c, D⟩ h := by
  cases code with
  | list inner =>
    obtain ⟨ds, σ₁, evaluated, made⟩ := EvalM.bind_eq_some.mp run
    refine (leads_arguments simulates mirrors env evaluated inner).trans ?_
    rintro _ h₁ ⟨L₁, a, v, as, rfl, ext₁, mirrors₁, cell, ⟨low, owned, free⟩, loose⟩
    obtain ⟨L₂, ext₂, mirrors₂, means, same⟩ := makeList_spec mirrors₁ loose made
    have out : a ∉ as := fun mem => Nat.lt_irrefl _ (loose.free a mem).2.1
    have free₂ : L₂.role a = none := by rw [same a out, free]
    exact .here ⟨L₂, a, v, rfl, ext₁.trans ext₂, mirrors₂, cell, ⟨low, owned, free₂⟩, means⟩

theorem length_of_evalArguments {sub : Expr → EvalM Datum} {es : List Expr}
    (run : evalArguments sub es σ = some (ds, σ')) : ds.length = es.length := by
  induction es generalizing ds σ' with
  | nil =>
    cases run
    rfl
  | cons e es ih =>
    obtain ⟨rest, σ₁, others, run⟩ := EvalM.bind_eq_some.mp run
    obtain ⟨d, σ₂, first, eq⟩ := EvalM.bind_eq_some.mp run
    cases eq
    rw [List.length_cons, List.length_cons, ih others]

theorem arity_eq (b : Builtin) : b.arity = 1 ∨ b.arity = 2 := by
  cases b <;> decide

include simulates mirrors env in
theorem leads_operation {b : Builtin} {args : List Expr}
    (run : evalWith sub ⟨locals, P.table, g⟩ (.builtin b args) σ = some (d, σ'))
    (code : Code P (locals.map Prod.fst) (.expr (.builtin b args)) k c) :
    Leads symbols (Delivers P g h.size L h S E k D d σ') ⟨S, E, c, D⟩ h := by
  cases code with
  | builtin count words inner =>
    obtain ⟨ds, σ₁, evaluated, applied⟩ := EvalM.bind_eq_some.mp run
    have length := length_of_evalArguments evaluated
    rw [count] at length
    refine (leads_operands simulates mirrors env evaluated inner).trans ?_
    rintro _ h₁ ⟨L₁, s, rfl, ext₁, mirrors₁, stacked⟩
    have pushed (v : Value) (h₂ : Heap) (computes : Computes P g h.size L₁ h₁ d σ' v h₂)
        (room : h₂.size < h₂.capacity) :
        Leads symbols (Delivers P g h.size L h S E k D d σ') ⟨.pair h₂.size, E, k, D⟩
          (h₂.grown ⟨v, S⟩ room) := by
      obtain ⟨L₂, ext₂, mirrors₂, means⟩ := computes
      have ext := ext₁.trans ext₂
      exact .here (delivers_push ext mirrors₂ means ext.size_le room)
    rcases arity_eq b with one | two
    · rw [one] at length
      obtain ⟨d₁, rfl⟩ := List.length_eq_one_iff.mp length
      obtain ⟨a, x, rest, rfl, cell, _, means, rfl⟩ := stacked
      have operands : Operands h₁ rest (if b.arity = 2 then [x, .nil] else [x]) (.pair a) := by
        rw [if_neg (by omega)]
        exact ⟨a, rest, rfl, cell, rfl⟩
      refine leads_builtin mirrors₁.holds words operands ?_
      exact (ends_unary mirrors₁ means applied).mono pushed fun _ _ => id
    · rw [two] at length
      obtain ⟨d₁, d₂, rfl⟩ := List.length_eq_two.mp length
      obtain ⟨a, x, rest, rfl, cell, _, means, a', y, rest', rfl, cell', _, means', rfl⟩ := stacked
      have operands : Operands h₁ rest' (if b.arity = 2 then [x, y] else [x]) (.pair a) := by
        rw [if_pos two]
        exact ⟨a, .pair a', rfl, cell, a', rest', rfl, cell', rfl⟩
      refine leads_builtin mirrors₁.holds words operands ?_
      rw [if_pos two]
      exact (ends_binary mirrors₁ ext₁.size_le means means' applied).mono pushed fun _ _ => id

theorem closure_of_means (mirrors : Mirrors P g L σ h) {id : Nat} {params : Frame} {body : Expr}
    {captured : Locals} (means : L.Means v (.object id))
    (known : σ.objects[id]? = some (.closure params body captured)) :
    ∃ f b r outer, v = .pair f ∧ h.cell f = ⟨b, outer⟩ ∧ params.length < 2 ^ 63 ∧
      Words P.code [.op .rtn] .nil r ∧
      Code P (params :: captured.map Prod.fst) (.expr body) r b ∧ L.EnvAt g captured outer := by
  obtain ⟨f, rfl, here⟩ := means_object_iff.mp means
  obtain ⟨cell, role, portrays⟩ := mirrors.objects id f _ here known
  have fixed := mirrors.fixed f cell role
  cases portrays with
  | @closure b outer r _ _ _ few rtn inner env =>
    exact ⟨f, b, r, outer, rfl, fixed, few, rtn, inner, env⟩

include simulates mirrors env in
theorem leads_apply {operator : Expr} {args : List Expr}
    (run : evalWith sub ⟨locals, P.table, g⟩ (.apply operator args) σ = some (d, σ'))
    (code : Code P (locals.map Prod.fst) (.expr (.apply operator args)) k c) :
    Leads symbols (Delivers P g h.size L h S E k D d σ') ⟨S, E, c, D⟩ h := by
  cases code with
  | apply words first inner =>
    obtain ⟨ds, σ₁, evaluated, run⟩ := EvalM.bind_eq_some.mp run
    obtain ⟨o, σ₂, operated, run⟩ := EvalM.bind_eq_some.mp run
    refine (leads_arguments simulates mirrors env evaluated inner).trans ?_
    rintro _ h₁ ⟨L₁, s', v, as, rfl, ext₁, mirrors₁, cell₁, ⟨low₁, owned₁, free₁⟩, loose₁⟩
    refine (simulates _ _ _ _ _ L₁ h₁ (.pair s') E _ _ D operated first mirrors₁
      (env.mono ext₁)).trans ?_
    rintro _ h₂ ⟨L₂, s, u, rfl, ext₂, mirrors₂, cell₂, _, means⟩
    have below : h₂.cell s' = ⟨v, S⟩ := by rw [ext₂.quiet s' owned₁ free₁, cell₁]
    cases o with
    | object id =>
      obtain ⟨object, σ₃, found, run⟩ := EvalM.bind_eq_some.mp run
      obtain ⟨object', known, eq⟩ := EvalM.object_eq_some.mp found
      cases eq
      cases object with
      | pair => cases run
      | closure params body captured =>
        obtain ⟨slots, σ₄, bound, run⟩ := EvalM.bind_eq_some.mp run
        obtain ⟨number, σ₅, framed, run⟩ := EvalM.bind_eq_some.mp run
        cases EvalM.newFrame_eq_some.mp framed
        obtain ⟨f, b, r, outer, rfl, closure, few, rtn, code, env'⟩ := closure_of_means mirrors₂ means known
        have ext := ext₁.trans (ext₂.mono ext₁.size_le)
        refine (leads_call simulates mirrors₂ words cell₂ below
          (loose₁.keep ext₂ (Nat.le_of_lt owned₁))
          ⟨low₁, Nat.le_trans (Nat.le_of_lt owned₁) ext₂.size_le⟩ closure few rtn code env' bound
          run).trans fun r h' delivers => .here (delivers.after ext (Nat.le_refl _))
    | _ => cases run

include simulates mirrors env in
theorem leads_bind {params : Frame} {values : List Expr} {body : Expr}
    (run : evalWith sub ⟨locals, P.table, g⟩ (.bind params values body) σ = some (d, σ'))
    (code : Code P (locals.map Prod.fst) (.expr (.bind params values body)) k c) :
    Leads symbols (Delivers P g h.size L h S E k D d σ') ⟨S, E, c, D⟩ h := by
  cases code with
  | @bind _ _ _ _ r b _ _ _ few rtn inner words outer =>
    obtain ⟨ds, σ₁, evaluated, run⟩ := EvalM.bind_eq_some.mp run
    obtain ⟨slots, σ₂, bound, run⟩ := EvalM.bind_eq_some.mp run
    obtain ⟨number, σ₃, framed, run⟩ := EvalM.bind_eq_some.mp run
    cases EvalM.newFrame_eq_some.mp framed
    refine (leads_arguments simulates mirrors env evaluated outer).trans ?_
    rintro _ h₁ ⟨L₁, s', v, as, rfl, ext₁, mirrors₁, cell₁, ⟨low₁, owned₁, free₁⟩, loose₁⟩
    refine leads_closure mirrors₁.holds words fun c' h₂ ap grows closure top => ?_
    have ext₂ : Extends h₁.size L₁ h₁ L₁ h₂ := .of_grows grows (Nat.le_refl _) L₁
    have below : h₂.cell s' = ⟨v, S⟩ := by rw [grows.cell s' owned₁, cell₁]
    have ext := ext₁.trans (ext₂.mono ext₁.size_le)
    exact (leads_call simulates (mirrors₁.grows grows) ap top below
      (loose₁.keep ext₂ (Nat.le_of_lt owned₁))
      ⟨low₁, Nat.le_trans (Nat.le_of_lt owned₁) ext₂.size_le⟩ closure few rtn inner (env.mono ext)
      bound run).trans fun r h' delivers => .here (delivers.after ext (Nat.le_refl _))

include simulates mirrors env in
theorem leads_recursive {params : Frame} {values : List Expr} {body : Expr}
    (run : evalWith sub ⟨locals, P.table, g⟩ (.recursive params values body) σ = some (d, σ'))
    (code : Code P (locals.map Prod.fst) (.expr (.recursive params values body)) k c) :
    Leads symbols (Delivers P g h.size L h S E k D d σ') ⟨S, E, c, D⟩ h := by
  cases code with
  | @recursive _ _ _ _ r b _ _ _ _ few rtn inner words within dum =>
    obtain ⟨number, σ₀, framed, run⟩ := EvalM.bind_eq_some.mp run
    cases EvalM.newFrame_eq_some.mp framed
    obtain ⟨ds, σ₁, evaluated, run⟩ := EvalM.bind_eq_some.mp run
    obtain ⟨slots, σ₂, bound, run⟩ := EvalM.bind_eq_some.mp run
    obtain ⟨_, σ₃, filled, run⟩ := EvalM.bind_eq_some.mp run
    cases filled
    refine leads_dum mirrors.holds dum fun room => ?_
    -- The placeholder holds the new frame, which is empty until the values are there.
    obtain ⟨ext₀, mirrors₀, env₀, frame₀⟩ := mirrors.enterEmpty (Nat.le_refl h.size) room env few
    have holder : (L.hold h.size E).role h.size = some (.holder L.frames.length E) := mark_self ..
    refine (leads_arguments simulates mirrors₀ env₀ evaluated within).trans ?_
    rintro _ h₁ ⟨L₁, s', v, as, rfl, ext₁, mirrors₁, cell₁, ⟨low₁, owned₁, free₁⟩, loose₁⟩
    refine leads_closure mirrors₁.holds words fun c' h₂ rap grows closure top => ?_
    have ext₂ : Extends h₁.size L₁ h₁ L₁ h₂ := .of_grows grows (Nat.le_refl _) L₁
    have mirrors₂ := mirrors₁.grows grows
    have below : h₂.cell s' = ⟨v, S⟩ := by rw [grows.cell s' owned₁, cell₁]
    have loose₂ := loose₁.keep ext₂ (Nat.le_of_lt owned₁)
    have le : s' ≤ h₂.size := Nat.le_trans (Nat.le_of_lt owned₁) grows.size_le
    obtain ⟨L₃, as', w, ext₃, mirrors₃, spare⟩ := bindArguments_spec mirrors₂ loose₂ bound
    have ext₀₃ := (ext₁.trans (ext₂.mono ext₁.size_le)).trans ext₃
    have frame : L₃.frames[σ.frames.length]? = some h.size := getElem?_mono ext₀₃.frames frame₀
    have link : h₂.cdr h.size = E :=
      mirrors₃.links _ _ _ (ext₀₃.holders _ _ _ holder)
    obtain ⟨L₄, ext₄, mirrors₄, _⟩ := mirrors₃.fill frame spare le
    refine leads_rap mirrors₂.holds rap top below closure (inner.isPair rtn.isPair) fun h₃ calls => ?_
    rw [link] at calls
    have size : (h₂.updated h.size fun c => { c with car := v }).size = h₂.size :=
      Heap.size_updated ..
    have saved := saved_of_calls calls fun b => mirrors₄.fresh
    rw [size] at saved
    have low := Nat.le_trans low₁ le
    have ext₅ : Extends (h.grown ⟨.nil, E⟩ room).size L₄ _ L₄ h₃ :=
      .of_grows calls.grows (by rwa [size]) L₄
    have ext := (ext₀₃.trans ext₄).trans ext₅
    have low' := Nat.le_trans ext₀.size_le ext.size_le
    refine (leads_body simulates (mirrors₄.grows calls.grows) (env₀.mono ext) saved low' rtn inner
      run).trans fun r h' delivers => .here (delivers.after ?_ (Nat.le_refl _))
    exact ext₀.trans (ext.mono ext₀.size_le)

end Forms

theorem simulates_evalWith (simulates : Simulates symbols P g sub) :
    Simulates symbols P g (evalWith sub) := by
  intro locals e σ σ' d L h S E k c D run code mirrors env
  cases e with
  | nil =>
    cases run
    cases code with
    | nil words =>
      refine leads_nil mirrors.holds words fun room => .here ?_
      have means : L.Means .nil .nil := rfl
      exact delivers_push (.refl _ L h) mirrors means (Nat.le_refl _) room
  | quote q => exact leads_quote mirrors run code
  | ident name => exact leads_ident mirrors env run code
  | cond test consequent alternative => exact leads_cond simulates mirrors env run code
  | function params body => exact leads_function mirrors env run code
  | bind params values body => exact leads_bind simulates mirrors env run code
  | recursive params values body => exact leads_recursive simulates mirrors env run code
  | assign name value => exact leads_assign simulates mirrors env run code
  | list args => exact leads_list simulates mirrors env run code
  | builtin b args => exact leads_operation simulates mirrors env run code
  | apply operator args => exact leads_apply simulates mirrors env run code

theorem simulates_eval (symbols : SymbolTable) (P : Program) (g fuel : Nat) :
    Simulates symbols P g (eval fuel) := by
  induction fuel with
  | zero =>
    intro locals e σ σ' d L h S E k c D run
    cases run
  | succ fuel ih => exact simulates_evalWith ih

end Reference

end SecdLisp
