import SecdLisp.Proofs.Continuation.Heap

/-!
# The machine in front of two continuations

The registers of a run lie outside of the code, since the run starts outside of it and cells that lie
outside lead to such cells only. So no instruction meets the code, and the run of a macro takes the
same steps on both sides.
-/

namespace SecdLisp

namespace Front

open Machine

variable {f f' : Front} {writes : Bool} {k k' v u : Value} {α : Type} {p : Front → α → Prop}
  {r : Registers}

theorem bear_later (bear : Bear f.Outside r) (moves : f.Moves writes f') : Bear f'.Outside r :=
  ⟨bear.stack.later moves, bear.env.later moves, bear.code.later moves, bear.dump.later moves⟩

theorem blind_fault (e : Fault) : Blind (Twins k k') f p (throw (.fault e) : HeapM α) :=
  steps_throw _

theorem blind_integers (b : Builtin) (x y : Value) :
    Blind (Twins k k') f (fun _ _ => True) (b.integers x y) := by
  unfold Builtin.integers
  split
  · exact blind_pure trivial
  · exact blind_fault _
  · exact blind_fault _

theorem blind_word (b : Builtin) (n : Int) : Blind (Twins k k') f Outside (b.word n) := by
  unfold Builtin.word
  split
  · exact blind_pure (outside_int _)
  · exact blind_fault _

theorem blind_arithmetic (b : Builtin) (op : Int → Int → Int) (x y : Value) :
    Blind (Twins k k') f Outside (b.arithmetic op x y) :=
  (blind_integers b x y).bind fun _ _ _ _ => blind_word b _

theorem blind_quotient (x y : Value) : Blind (Twins k k') f Outside (Builtin.quotient x y) := by
  refine (blind_integers .div x y).bind fun f₁ operands _ _ => ?_
  obtain ⟨m, n⟩ := operands
  dsimp only
  split
  · exact blind_fault _
  · exact blind_word .div _

theorem blind_comparison (b : Builtin) (test : Int64 → Int64 → Bool) (x y : Value) :
    Blind (Twins k k') f Outside (b.comparison test x y) :=
  (blind_integers b x y).bind fun _ _ _ _ => blind_pure (outside_ofBool _)

theorem blind_half (b : Builtin) {look : Heap → Value → Option Value}
    (sees : ∀ h h', Twins k k' f h h' →
      look h' v = look h v ∧ ∀ u, look h v = some u → f.Outside u) :
    Blind (Twins k k') f Outside (b.half look v) := by
  have find : Blind (Twins k k') f (fun f found => ∀ u, found = some u → f.Outside u)
      (Heap.read (look · v)) := blind_read sees
  refine find.bind fun f₁ found _ known => ?_
  cases found with
  | none => exact blind_fault _
  | some u => exact blind_pure (known u rfl)

theorem blind_builtin (b : Builtin) (first : f.Outside u) (second : f.Outside v) :
    Blind (Twins k k') f Outside (b.apply u v) := by
  cases b with
  | add | sub | mul => exact blind_arithmetic _ _ u v
  | div => exact blind_quotient u v
  | car => exact blind_half .car fun _ _ twins => twins.carOf? first
  | cdr => exact blind_half .cdr fun _ _ twins => twins.cdrOf? first
  | cons => exact blind_cons first second
  | eq => exact blind_pure (outside_ofBool _)
  | lt => exact blind_comparison .lt (fun m n => m < n) u v
  | gt => exact blind_comparison .gt (fun m n => n < m) u v
  | le => exact blind_comparison .le (fun m n => m ≤ n) u v
  | ge => exact blind_comparison .ge (fun m n => n ≤ m) u v

theorem blind_split (outside : f.Outside v) (e : Fault) :
    Blind (Twins k k') f (fun f p => f.Outside p.1 ∧ f.Outside p.2) (split v e) := by
  cases v with
  | pair a =>
    refine blind_read fun h h' twins => ?_
    rw [twins.cell_eq (outside a rfl).2]
    exact ⟨rfl, twins.halves outside⟩
  | _ => exact blind_fault _

theorem blind_push (outside : f.Outside v) (bear : Bear f.Outside r) :
    Blind (Twins k k') f (fun f => Bear f.Outside) (push v r) :=
  (blind_cons outside bear.stack).bind fun _ _ moves stack =>
    blind_pure { bear_later bear moves with stack }

theorem blind_pop (bear : Bear f.Outside r) :
    Blind (Twins k k') f (fun f p => f.Outside p.1 ∧ Bear f.Outside p.2) (pop r) :=
  (blind_split bear.stack _).bind fun _ _ moves halves =>
    blind_pure ⟨halves.1, { bear_later bear moves with stack := halves.2 }⟩

theorem blind_popDump (bear : Bear f.Outside r) :
    Blind (Twins k k') f (fun f p => f.Outside p.1 ∧ Bear f.Outside p.2) (popDump r) :=
  (blind_split bear.dump _).bind fun _ _ moves halves =>
    blind_pure ⟨halves.1, { bear_later bear moves with dump := halves.2 }⟩

theorem blind_operand (bear : Bear f.Outside r) :
    Blind (Twins k k') f (fun f p => f.Outside p.1 ∧ Bear f.Outside p.2) (operand r) :=
  (blind_split bear.code _).bind fun _ _ moves halves =>
    blind_pure ⟨halves.1, { bear_later bear moves with code := halves.2 }⟩

theorem blind_addressOperand (bear : Bear f.Outside r) :
    Blind (Twins k k') f (fun f p => Bear f.Outside p.2) (addressOperand r) := by
  refine (blind_operand bear).bind fun f₁ p _ parts => ?_
  have spelled : Blind (Twins k k') f₁ (fun _ _ => True) (Heap.read (address? · p.1)) := by
    refine blind_read fun h h' twins => ⟨?_, trivial⟩
    unfold address?
    rw [(twins.carOf? parts.1).1, (twins.cdrOf? parts.1).1]
  refine spelled.bind fun f₂ found moves _ => ?_
  cases found with
  | none => exact blind_fault _
  | some address => exact blind_pure (bear_later parts.2 moves)

theorem blind_popClosure (bear : Bear f.Outside r) :
    Blind (Twins k k') f (fun f p => f.Outside p.1.1 ∧ f.Outside p.1.2 ∧ Bear f.Outside p.2)
      (popClosure r) := by
  refine (blind_pop bear).bind fun f₁ p _ parts => ?_
  refine (blind_split parts.1 _).bind fun f₂ q moves halves => ?_
  dsimp only
  split
  · exact blind_pure ⟨halves.1, halves.2, bear_later parts.2 moves⟩
  · exact blind_fault _

theorem blind_load {find : Heap → Value → Nat → Nat → Option Value} (bear : Bear f.Outside r)
    (sees : ∀ f h h' env depth index, Twins k k' f h h' → f.Outside env →
      find h' env depth index = find h env depth index ∧
        ∀ v, find h env depth index = some v → f.Outside v) :
    Blind (Twins k k') f (fun f => Bear f.Outside) (load find r) := by
  refine (blind_addressOperand bear).bind fun f₁ p _ bear => ?_
  obtain ⟨⟨depth, index⟩, r⟩ := p
  have look : Blind (Twins k k') f₁ (fun f found => ∀ v, found = some v → f.Outside v)
      (Heap.read (find · r.env depth index)) :=
    blind_read fun h h' twins => sees f₁ h h' r.env depth index twins bear.env
  refine look.bind fun f₂ found moves known => ?_
  cases found with
  | none => exact blind_fault _
  | some v => exact blind_push (known v rfl) (bear_later bear moves)

theorem blind_machineStore (bear : Bear f.Outside r) :
    Blind (Twins k k') f (fun f => Bear f.Outside) (store r) := by
  refine (blind_addressOperand bear).bind fun f₁ p _ bear => ?_
  obtain ⟨⟨depth, index⟩, r⟩ := p
  refine (blind_split bear.stack _).bind fun f₂ q moves halves => ?_
  have bear := bear_later bear moves
  refine (blind_store depth index bear.env halves.1).bind fun f₃ stored moves _ => ?_
  split
  · exact blind_pure (bear_later bear moves)
  · exact blind_fault _

theorem blind_enter {body caller : Value} (outside : f.Outside body) (env : f.Outside u)
    (callerEnv : f.Outside caller) (bear : Bear f.Outside r) :
    Blind (Twins k k') f (fun f => Bear f.Outside) (enter body u caller r) := by
  have entries : ∀ v ∈ [r.stack, caller, r.code], f.Outside v := by
    simp only [List.forall_mem_cons]
    exact ⟨bear.stack, callerEnv, bear.code, nofun⟩
  exact (blind_listWithTail entries bear.dump).bind fun f₁ dump moves saved =>
    blind_pure ⟨outside_nil, env.later moves, outside.later moves, saved⟩

theorem blind_apply (bear : Bear f.Outside r) :
    Blind (Twins k k') f (fun f => Bear f.Outside) (apply r) := by
  refine (blind_popClosure bear).bind fun f₁ p _ closure => ?_
  obtain ⟨⟨body, env⟩, r₁⟩ := p
  obtain ⟨body', env', bear⟩ := closure
  refine (blind_pop bear).bind fun f₂ q moves parts => ?_
  obtain ⟨arguments, r₂⟩ := q
  obtain ⟨arguments', bear⟩ := parts
  have env' := env'.later moves
  dsimp only
  refine (blind_enter (body'.later moves) env' bear.env bear).bind fun f₃ r₃ moves bear => ?_
  refine (blind_cons (arguments'.later moves) (env'.later moves)).bind fun f₄ frame moves known => ?_
  exact blind_pure { bear_later bear moves with env := known }

theorem blind_applyRecursive (bear : Bear f.Outside r) :
    Blind (Twins k k') f (fun f => Bear f.Outside) (applyRecursive r) := by
  refine (blind_popClosure bear).bind fun f₁ p _ closure => ?_
  obtain ⟨⟨body, env⟩, r₁⟩ := p
  obtain ⟨body', env', bear⟩ := closure
  refine (blind_pop bear).bind fun f₂ q moves parts => ?_
  have body' := body'.later moves
  have env' := env'.later moves
  cases env with
  | pair placeholder =>
    refine (blind_setCar env' parts.1).bind fun f₃ _ moves _ => ?_
    have env' := env'.later moves
    have outer : Blind (Twins k k') f₃ Outside (Heap.read (·.cdr placeholder)) :=
      blind_read fun h h' twins => ⟨twins.cdr _ (env' _ rfl).2, (twins.halves env').2⟩
    refine outer.bind fun f₄ caller moves' known => ?_
    have bear := bear_later (bear_later parts.2 moves) moves'
    exact blind_enter ((body'.later moves).later moves') (env'.later moves') known bear
  | _ => exact blind_fault _

theorem blind_leave (bear : Bear f.Outside r) :
    Blind (Twins k k') f (fun f => Bear f.Outside) (leave r) := by
  refine (blind_pop bear).bind fun f₁ p _ result => ?_
  refine (blind_popDump result.2).bind fun f₂ q moves stack => ?_
  have result := result.1.later moves
  refine (blind_popDump stack.2).bind fun f₃ q moves env => ?_
  have result := result.later moves
  have stack := stack.1.later moves
  refine (blind_popDump env.2).bind fun f₄ q moves code => ?_
  refine blind_push (result.later moves) ?_
  exact ⟨stack.later moves, env.1.later moves, code.1, code.2.dump⟩

theorem blind_select (bear : Bear f.Outside r) :
    Blind (Twins k k') f (fun f => Bear f.Outside) (select r) := by
  refine (blind_pop bear).bind fun f₁ p _ test => ?_
  refine (blind_operand test.2).bind fun f₂ q _ consequent => ?_
  refine (blind_operand consequent.2).bind fun f₃ q moves alternative => ?_
  have consequent := consequent.1.later moves
  obtain ⟨alternative, bear⟩ := alternative
  refine (blind_cons bear.code bear.dump).bind fun f₄ dump moves saved => blind_pure ?_
  refine { bear_later bear moves with dump := saved, code := ?_ }
  split
  · exact consequent.later moves
  · exact alternative.later moves

theorem blind_execute (bear : Bear f.Outside r) (o : Opcode) :
    Blind (Twins k k') f (fun f => Bear f.Outside) (execute r o) := by
  cases o with
  | nil => exact blind_push outside_nil bear
  | ldc => exact (blind_operand bear).bind fun _ _ _ parts => blind_push parts.1 parts.2
  | ld => exact blind_load bear fun _ _ _ _ depth index twins env => twins.lookup? depth index env
  | ldr =>
    exact blind_load bear fun _ _ _ _ depth index twins env => twins.lookupRest? depth index env
  | st => exact blind_machineStore bear
  | cons =>
    refine (blind_pop bear).bind fun f₁ p _ car => ?_
    refine (blind_pop car.2).bind fun f₂ q moves cdr => ?_
    refine (blind_cons (car.1.later moves) cdr.1).bind fun f₃ cell moves known => ?_
    exact blind_push known (bear_later cdr.2 moves)
  | sel => exact blind_select bear
  | join =>
    exact (blind_popDump bear).bind fun _ _ _ parts => blind_pure { parts.2 with code := parts.1 }
  | ldf =>
    refine (blind_operand bear).bind fun f₁ p _ parts => ?_
    refine (blind_cons parts.1 parts.2.env).bind fun f₂ closure moves known => ?_
    exact blind_push known (bear_later parts.2 moves)
  | ap => exact blind_apply bear
  | rtn => exact blind_leave bear
  | dum =>
    exact (blind_cons outside_nil bear.env).bind fun f₁ env moves known =>
      blind_pure { bear_later bear moves with env := known }
  | rap => exact blind_applyRecursive bear
  | halt => exact blind_pure bear

theorem blind_applyBuiltin (symbols : SymbolTable) (name : Symbol) (bear : Bear f.Outside r) :
    Blind (Twins k k') f (fun f => Bear f.Outside) (applyBuiltin symbols name r) := by
  unfold applyBuiltin
  split
  · exact blind_fault _
  next b _ =>
    refine (blind_pop bear).bind fun f₁ p _ first => ?_
    obtain ⟨x, r₁⟩ := p
    have finish (q : Value × Registers) (f₂ : Front) (moves : f₁.Moves false f₂)
        (second : f₂.Outside q.1 ∧ Bear f₂.Outside q.2) :
        Blind (Twins k k') f₂ (fun f => Bear f.Outside) (do push (← b.apply x q.1) q.2) :=
      (blind_builtin b (first.1.later moves) second.1).bind fun f₃ v moves known =>
        blind_push known (bear_later second.2 moves)
    dsimp only
    split
    · exact (blind_pop first.2).bind fun f₂ q moves second => finish q f₂ moves second
    · exact finish (.nil, r₁) f₁ (.refl false f₁) ⟨outside_nil, first.2⟩

theorem blind_dispatch (symbols : SymbolTable) (bear : Bear f.Outside r) (v : Value) :
    Blind (Twins k k') f (fun f => Outcome.Bear f.Outside) (dispatch symbols r v) := by
  have run (o : Opcode) : Blind (Twins k k') f (fun f => Outcome.Bear f.Outside)
      (do return .running (← execute r o)) :=
    (blind_execute bear o).bind fun _ _ _ bear => blind_pure bear
  cases v with
  | op o =>
    cases o with
    | halt => exact blind_pure bear
    | _ => exact run _
  | ident name => exact (blind_applyBuiltin symbols name bear).bind fun _ _ _ bear => blind_pure bear
  | _ => exact blind_fault _

theorem blind_step (symbols : SymbolTable) (bear : Bear f.Outside r) :
    Blind (Twins k k') f (fun f => Outcome.Bear f.Outside) (step symbols r) := by
  have work : Blind (Twins k k') f (fun f => Outcome.Bear f.Outside)
      (operand r >>= fun p => dispatch symbols p.2 p.1) :=
    (blind_operand bear).bind fun _ p _ parts => blind_dispatch symbols parts.2 p.1
  intro h h' twins
  have lockstep := work h h' twins
  unfold step
  generalize (operand r >>= fun p => dispatch symbols p.2 p.1) h = x at lockstep ⊢
  generalize (operand r >>= fun p => dispatch symbols p.2 p.1) h' = y at lockstep ⊢
  cases lockstep with
  | ok moves states values => exact .ok moves states values
  | error moves states => exact .error moves states

theorem blind_runFrom (symbols : SymbolTable) (steps : Nat) (bear : Bear f.Outside r) :
    Blind (Twins k k') f Outside (runFrom symbols steps r) := by
  induction steps generalizing f r with
  | zero => exact steps_throw _
  | succ steps ih =>
    refine (blind_step symbols bear).bind fun f₁ outcome _ bear => ?_
    cases outcome with
    | running r₁ => exact ih bear
    | halted r₁ =>
      refine blind_read fun h h' twins => ?_
      obtain ⟨same, found⟩ := twins.carOf? bear.stack
      rw [same]
      refine ⟨rfl, ?_⟩
      cases top : h.carOf? r₁.stack with
      | none => exact outside_nil
      | some v => exact found v top

/-- A run that starts outside of the code does the same on both sides. -/
theorem blind_run (symbols : SymbolTable) (steps : Nat) (env : f.Outside u) (code : f.Outside v) :
    Blind (Twins k k') f Outside (run symbols steps u v) :=
  blind_runFrom symbols steps ⟨outside_nil, env, code, outside_nil⟩

end Front

end SecdLisp
