import SecdLisp.Machine.Run
import SecdLisp.Proofs.Parallel.Heap

/-!
# The machine on both sides

One instruction takes corresponding registers to corresponding registers, or fails on both sides
with the same fault. So does a run.
-/

namespace SecdLisp

namespace Parallel

open World

variable {left right : SymbolTable} {w w' : World} {h h' : Heap} {v v' u u' : Value}
  {r r' : Registers}

theorem sim_pinned {α β : Type} {Q : World → α → β → Prop} {x : HeapM α} {y : HeapM β}
    (sim : w.left = left → w.right = right → Sim (OnHeaps left right) w Q x y) :
    Sim (OnHeaps left right) w Q x y := by
  intro h h' states
  exact sim states.left states.right h h' states

theorem machines_empty (w : World) : w.Machines .empty .empty := ⟨.nil, .nil, .nil, .nil⟩

theorem sim_fault {α β : Type} {Q : World → α → β → Prop} {f f' : Fault} (same : f = f') :
    Sim (OnHeaps left right) w Q (throw (.fault f) : HeapM α) (throw (.fault f') : HeapM β) := by
  subst same
  exact .throw (.runtime (machines_empty w))

theorem ofSymbol?_eq {i j : Symbol} (names : w.Names i j) :
    Builtin.ofSymbol? i = Builtin.ofSymbol? j := by
  refine names.apply_eq none fun k le => ?_
  have known : 24 ≤ k := le
  have small : ¬k < 8 := by omega
  have beyond : Builtin.all.length ≤ k - 8 := by
    simp [Builtin.all]
    omega
  rw [Builtin.ofSymbol?, if_neg small]
  exact List.getElem?_eq_none beyond

section Integers

variable {b : Builtin}

theorem sim_integers (first : w.Values v v') (second : w.Values u u') :
    Sim (OnHeaps left right) w (fun _ => Eq) (b.integers v u) (b.integers v' u') := by
  cases first <;> cases second <;> first | exact .pure rfl | exact sim_fault rfl

theorem sim_word {n n' : Int} (same : n = n') :
    Sim (OnHeaps left right) w World.Values (b.word n) (b.word n') := by
  subst same
  unfold Builtin.word
  cases word? n with
  | some k => exact .pure (.int k)
  | none => exact sim_fault rfl

theorem sim_arithmetic (f : Int → Int → Int) (first : w.Values v v') (second : w.Values u u') :
    Sim (OnHeaps left right) w World.Values (b.arithmetic f v u) (b.arithmetic f v' u') := by
  refine (sim_integers first second).bind fun w' p q _ same => ?_
  subst same
  exact sim_word rfl

theorem sim_quotient (first : w.Values v v') (second : w.Values u u') :
    Sim (OnHeaps left right) w World.Values (Builtin.quotient v u) (Builtin.quotient v' u') := by
  refine (sim_integers first second).bind fun w' p q _ same => ?_
  subst same
  obtain ⟨m, n⟩ := p
  dsimp only
  split
  · exact (sim_fault (Q := fun _ _ _ => True) rfl).bind fun _ _ _ _ _ => sim_word rfl
  · exact sim_word rfl

theorem sim_comparison (f : Int64 → Int64 → Bool) (first : w.Values v v')
    (second : w.Values u u') :
    Sim (OnHeaps left right) w World.Values (b.comparison f v u) (b.comparison f v' u') := by
  refine (sim_integers first second).bind fun w' p q _ same => ?_
  subst same
  exact .pure (values_ofBool ..)

end Integers

theorem sim_half {b : Builtin} {part : Heap → Value → Option Value} (values : w.Values v v')
    (parts : ∀ h h', w.Heaps h h' → Option.Rel w.Values (part h v) (part h' v')) :
    Sim (OnHeaps left right) w World.Values (b.half part v) (b.half part v') := by
  have read : Sim (OnHeaps left right) w (fun w' => Option.Rel w'.Values)
      (Heap.read (part · v)) (Heap.read (part · v')) := sim_read parts
  refine read.bind fun w' x y le found => ?_
  cases found with
  | some values => exact .pure values
  | none => exact sim_fault (by rw [values.kind_eq])

theorem World.Heaps.carOf? (heaps : w.Heaps h h') (values : w.Values v v') :
    Option.Rel w.Values (h.carOf? v) (h'.carOf? v') := by
  cases values with
  | pair cells => exact .some (heaps.cars _ _ cells)
  | _ => exact .none

theorem World.Heaps.cdrOf? (heaps : w.Heaps h h') (values : w.Values v v') :
    Option.Rel w.Values (h.cdrOf? v) (h'.cdrOf? v') := by
  cases values with
  | pair cells => exact .some (heaps.cdrs _ _ cells)
  | _ => exact .none

theorem sim_eq (first : w.Values v v') (second : w.Values u u') :
    Sim (OnHeaps left right) w World.Values (pure (.ofBool (v == u)) : HeapM Value)
      (pure (.ofBool (v' == u'))) := by
  intro h h' states
  have same : (v == u) = (v' == u') := by
    rw [Bool.eq_iff_iff, beq_iff_eq, beq_iff_eq]
    exact first.eq_iff states.heaps second
  rw [same]
  exact .ok (.refl w) states (values_ofBool ..)

theorem sim_builtin (b : Builtin) (first : w.Values v v') (second : w.Values u u') :
    Sim (OnHeaps left right) w World.Values (b.apply v u) (b.apply v' u') := by
  cases b with
  | add | sub | mul => exact sim_arithmetic _ first second
  | div => exact sim_quotient first second
  | car => exact sim_half first fun h h' heaps => heaps.carOf? first
  | cdr => exact sim_half first fun h h' heaps => heaps.cdrOf? first
  | cons => exact sim_cons first second
  | eq => exact sim_eq first second
  | lt => exact sim_comparison (fun m n => m < n) first second
  | gt => exact sim_comparison (fun m n => n < m) first second
  | le => exact sim_comparison (fun m n => m ≤ n) first second
  | ge => exact sim_comparison (fun m n => n ≤ m) first second

open Machine

def World.Pairs (w : World) (p q : Value × Value) : Prop := w.Values p.1 q.1 ∧ w.Values p.2 q.2

def World.Popped (w : World) (p q : Value × Registers) : Prop :=
  w.Values p.1 q.1 ∧ w.Machines p.2 q.2

theorem sim_split {f f' : Fault} (values : w.Values v v') (same : f = f') :
    Sim (OnHeaps left right) w World.Pairs (split v f) (split v' f') := by
  cases values with
  | pair cells =>
    exact sim_read fun h h' heaps => ⟨heaps.cars _ _ cells, heaps.cdrs _ _ cells⟩
  | _ => exact sim_fault same

theorem sim_fetch (values : w.Values v v') :
    Sim (OnHeaps left right) w World.Pairs (fetch v) (fetch v') :=
  sim_split values (by rw [values.isNil_eq, values.kind_eq])

theorem sim_push (values : w.Values v v') (machines : w.Machines r r') :
    Sim (OnHeaps left right) w World.Machines (push v r) (push v' r') := by
  refine (sim_cons values machines.stack).bind fun w' s s' le stack => .pure ?_
  have machines := machines.mono le
  exact ⟨stack, machines.env, machines.code, machines.dump⟩

theorem sim_pop (machines : w.Machines r r') :
    Sim (OnHeaps left right) w World.Popped (pop r) (pop r') := by
  refine (sim_split machines.stack rfl).bind fun w' p q le both => .pure ⟨both.1, ?_⟩
  have machines := machines.mono le
  exact ⟨both.2, machines.env, machines.code, machines.dump⟩

theorem sim_popDump (machines : w.Machines r r') :
    Sim (OnHeaps left right) w World.Popped (popDump r) (popDump r') := by
  refine (sim_split machines.dump rfl).bind fun w' p q le both => .pure ⟨both.1, ?_⟩
  have machines := machines.mono le
  exact ⟨machines.stack, machines.env, machines.code, both.2⟩

theorem sim_operand (machines : w.Machines r r') :
    Sim (OnHeaps left right) w World.Popped (operand r) (operand r') := by
  refine (sim_fetch machines.code).bind fun w' p q le both => .pure ⟨both.1, ?_⟩
  have machines := machines.mono le
  exact ⟨machines.stack, machines.env, both.2, machines.dump⟩

theorem World.Heaps.address?_eq (heaps : w.Heaps h h') (values : w.Values v v') :
    address? h v = address? h' v' := by
  have cars := heaps.carOf? values
  have cdrs := heaps.cdrOf? values
  unfold address?
  generalize h.carOf? v = x at cars ⊢
  generalize h'.carOf? v' = x' at cars ⊢
  generalize h.cdrOf? v = y at cdrs ⊢
  generalize h'.cdrOf? v' = y' at cdrs ⊢
  cases cars with
  | none => rfl
  | some first =>
    cases cdrs with
    | none => cases first <;> rfl
    | some second => cases first <;> cases second <;> rfl

theorem sim_addressOperand (machines : w.Machines r r') :
    Sim (OnHeaps left right) w (fun w' p q => p.1 = q.1 ∧ w'.Machines p.2 q.2)
      (addressOperand r) (addressOperand r') := by
  refine (sim_operand machines).bind fun w₁ p q le both => ?_
  have read : Sim (OnHeaps left right) w₁ (fun _ => Eq) (Heap.read (address? · p.1))
      (Heap.read (address? · q.1)) := sim_read fun h h' heaps => heaps.address?_eq both.1
  refine read.bind fun w₂ x y le₂ same => ?_
  subst same
  cases x with
  | none => exact sim_fault rfl
  | some address => exact .pure ⟨rfl, both.2.mono le₂⟩

theorem sim_popClosure (machines : w.Machines r r') :
    Sim (OnHeaps left right) w (fun w' p q => w'.Pairs p.1 q.1 ∧ w'.Machines p.2 q.2)
      (popClosure r) (popClosure r') := by
  refine (sim_pop machines).bind fun w₁ p q le both => ?_
  have kinds : p.1.kind = q.1.kind := both.1.kind_eq
  refine (sim_split both.1 (by rw [kinds])).bind fun w₂ c c' le₂ halves => ?_
  dsimp only
  rw [halves.1.isPair_eq]
  cases c'.1.isPair with
  | true => exact .pure ⟨halves, both.2.mono le₂⟩
  | false => exact sim_fault (by rw [kinds])

theorem sim_load {find : Heap → Value → Nat → Nat → Option Value} (machines : w.Machines r r')
    (finds : ∀ w h h' v v' depth index, World.Heaps w h h' → w.Values v v' →
      Option.Rel w.Values (find h v depth index) (find h' v' depth index)) :
    Sim (OnHeaps left right) w World.Machines (load find r) (load find r') := by
  refine (sim_addressOperand machines).bind fun w₁ p q le both => ?_
  obtain ⟨⟨depth, index⟩, r₁⟩ := p
  obtain ⟨⟨depth', index'⟩, r₁'⟩ := q
  obtain ⟨same, machines⟩ := both
  cases same
  have read : Sim (OnHeaps left right) w₁ (fun w' => Option.Rel w'.Values)
      (Heap.read (find · r₁.env depth index)) (Heap.read (find · r₁'.env depth index)) :=
    sim_read fun h h' heaps => finds _ h h' _ _ depth index heaps machines.env
  refine read.bind fun w₂ x y le₂ found => ?_
  cases found with
  | none => exact sim_fault rfl
  | some values => exact sim_push values (machines.mono le₂)

theorem sim_machineStore (machines : w.Machines r r') :
    Sim (OnHeaps left right) w World.Machines (Machine.store r) (Machine.store r') := by
  refine (sim_addressOperand machines).bind fun w₁ p q le both => ?_
  obtain ⟨⟨depth, index⟩, r₁⟩ := p
  obtain ⟨⟨depth', index'⟩, r₁'⟩ := q
  obtain ⟨same, machines⟩ := both
  cases same
  refine (sim_split machines.stack rfl).bind fun w₂ c c' le₂ top => ?_
  have machines := machines.mono le₂
  refine (sim_store machines.env top.1 depth index).bind fun w₃ x y le₃ same => ?_
  subst same
  cases x with
  | true => exact .pure (machines.mono le₃)
  | false => exact sim_fault rfl

theorem sim_enter {caller caller' : Value} (body : w.Values v v') (env : w.Values u u')
    (callers : w.Values caller caller') (machines : w.Machines r r') :
    Sim (OnHeaps left right) w World.Machines (enter v u caller r) (enter v' u' caller' r') := by
  have entries : List.Forall₂ w.Values [r.stack, caller, r.code] [r'.stack, caller', r'.code] :=
    .cons machines.stack (.cons callers (.cons machines.code .nil))
  refine (sim_listWithTail entries machines.dump).bind fun w' d d' le dump => .pure ?_
  exact ⟨.nil, env.mono le, body.mono le, dump⟩

theorem sim_apply (machines : w.Machines r r') :
    Sim (OnHeaps left right) w World.Machines (Machine.apply r) (Machine.apply r') := by
  refine (sim_popClosure machines).bind fun w₁ p q le₁ both => ?_
  obtain ⟨⟨body, env⟩, machines⟩ := both
  refine (sim_pop machines).bind fun w₂ a b le₂ both => ?_
  obtain ⟨arguments, machines⟩ := both
  refine (sim_enter (body.mono le₂) (env.mono le₂) machines.env machines).bind
    fun w₃ s s' le₃ machines => ?_
  refine (sim_cons (arguments.mono le₃) ((env.mono le₂).mono le₃)).bind
    fun w₄ e e' le₄ frame => .pure ?_
  have machines := machines.mono le₄
  exact ⟨machines.stack, frame, machines.code, machines.dump⟩

theorem sim_applyRecursive (machines : w.Machines r r') :
    Sim (OnHeaps left right) w World.Machines (applyRecursive r) (applyRecursive r') := by
  refine (sim_popClosure machines).bind fun w₁ p q le₁ both => ?_
  obtain ⟨⟨body, env⟩, r₁⟩ := p
  obtain ⟨⟨body', env'⟩, r₁'⟩ := q
  obtain ⟨⟨bodies, envs⟩, popped⟩ := both
  refine (sim_pop popped).bind fun w₂ a b le₂ both => ?_
  obtain ⟨arguments, rest⟩ := both
  have bodies := bodies.mono le₂
  have envs := envs.mono le₂
  dsimp only at envs ⊢
  cases envs with
  | @pair c c' cells =>
    refine (sim_setCar cells arguments).bind fun w₃ _ _ le₃ _ => ?_
    have cells := le₃.cells _ _ cells
    have link : Sim (OnHeaps left right) w₃ World.Values (Heap.read (·.cdr c))
        (Heap.read (·.cdr c')) := sim_read fun h h' heaps => heaps.cdrs _ _ cells
    refine link.bind fun w₄ e e' le₄ caller => ?_
    exact sim_enter ((bodies.mono le₃).mono le₄) (.pair (le₄.cells _ _ cells)) caller
      ((rest.mono le₃).mono le₄)
  | _ => exact sim_fault rfl

theorem sim_leave (machines : w.Machines r r') :
    Sim (OnHeaps left right) w World.Machines (leave r) (leave r') := by
  refine (sim_pop machines).bind ?_
  intro w₁ a b le₁ both
  obtain ⟨result, machines⟩ := both
  refine (sim_popDump machines).bind ?_
  intro w₂ a b le₂ both
  obtain ⟨stack, machines⟩ := both
  refine (sim_popDump machines).bind ?_
  intro w₃ a b le₃ both
  obtain ⟨env, machines⟩ := both
  refine (sim_popDump machines).bind ?_
  intro w₄ a b le₄ both
  obtain ⟨code, machines⟩ := both
  refine sim_push (((result.mono le₂).mono le₃).mono le₄) ?_
  exact ⟨(stack.mono le₃).mono le₄, env.mono le₄, code, machines.dump⟩

theorem sim_select (machines : w.Machines r r') :
    Sim (OnHeaps left right) w World.Machines (select r) (select r') := by
  refine (sim_pop machines).bind ?_
  intro w₁ a b le₁ both
  obtain ⟨test, machines⟩ := both
  refine (sim_operand machines).bind ?_
  intro w₂ c c' le₂ both
  obtain ⟨consequent, machines⟩ := both
  refine (sim_operand machines).bind ?_
  intro w₃ d d' le₃ both
  obtain ⟨alternative, machines⟩ := both
  refine (sim_cons machines.code machines.dump).bind fun w₄ e e' le₄ dump => .pure ?_
  have machines := machines.mono le₄
  refine ⟨machines.stack, machines.env, ?_, dump⟩
  dsimp only
  rw [test.isTruthy_eq]
  cases b.1.isTruthy with
  | true => exact (consequent.mono le₃).mono le₄
  | false => exact alternative.mono le₄

theorem sim_execute (machines : w.Machines r r') (o : Opcode) :
    Sim (OnHeaps left right) w World.Machines (execute r o) (execute r' o) := by
  cases o with
  | nil => exact sim_push .nil machines
  | ldc => exact (sim_operand machines).bind fun _ _ _ _ both => sim_push both.1 both.2
  | ld =>
    exact sim_load machines fun _ _ _ _ _ depth index heaps env => heaps.lookup? env depth index
  | ldr =>
    exact sim_load machines fun _ _ _ _ _ depth index heaps env =>
      heaps.lookupRest? env depth index
  | st => exact sim_machineStore machines
  | cons =>
    refine (sim_pop machines).bind ?_
    intro w₁ a b le₁ both
    obtain ⟨car, machines⟩ := both
    refine (sim_pop machines).bind ?_
    intro w₂ c d le₂ both
    obtain ⟨cdr, machines⟩ := both
    exact (sim_cons (car.mono le₂) cdr).bind fun w₃ v v' le₃ cell =>
      sim_push cell (machines.mono le₃)
  | sel => exact sim_select machines
  | join =>
    refine (sim_popDump machines).bind ?_
    intro w₁ a b le₁ both
    obtain ⟨code, machines⟩ := both
    refine .pure ?_
    exact ⟨machines.stack, machines.env, code, machines.dump⟩
  | ldf =>
    refine (sim_operand machines).bind ?_
    intro w₁ a b le₁ both
    obtain ⟨body, machines⟩ := both
    exact (sim_cons body machines.env).bind fun w₂ v v' le₂ closure =>
      sim_push closure (machines.mono le₂)
  | ap => exact sim_apply machines
  | rtn => exact sim_leave machines
  | dum =>
    refine (sim_cons .nil machines.env).bind fun w₁ e e' le₁ env => .pure ?_
    have machines := machines.mono le₁
    exact ⟨machines.stack, env, machines.code, machines.dump⟩
  | rap => exact sim_applyRecursive machines
  | halt => exact .pure machines

theorem sim_applyBuiltin {i j : Symbol} (names : w.Names i j) (machines : w.Machines r r') :
    Sim (OnHeaps left right) w World.Machines (Machine.applyBuiltin left i r)
      (Machine.applyBuiltin right j r') := by
  unfold Machine.applyBuiltin
  rw [ofSymbol?_eq names]
  cases Builtin.ofSymbol? j with
  | none =>
    refine sim_pinned fun first second => sim_fault ?_
    rw [← first, ← second, names.same]
  | some b =>
    refine (sim_pop machines).bind ?_
    intro w₁ p q le₁ both
    obtain ⟨x, r₁⟩ := p
    obtain ⟨x', r₁'⟩ := q
    obtain ⟨first, machines⟩ := both
    have finish (w₂ : World) (y y' : Value) (r₂ r₂' : Registers) (le : w₁.Within w₂)
        (second : w₂.Values y y') (machines : w₂.Machines r₂ r₂') :
        Sim (OnHeaps left right) w₂ World.Machines (do push (← b.apply x y) r₂)
          (do push (← b.apply x' y') r₂') := by
      refine (sim_builtin b (first.mono le) second).bind ?_
      intro w₃ v v' le₃ value
      exact sim_push value (machines.mono le₃)
    dsimp only
    split
    · refine (sim_pop machines).bind ?_
      intro w₂ p q le₂ both
      exact finish w₂ _ _ _ _ le₂ both.1 both.2
    · exact finish w₁ _ _ _ _ (.refl w₁) .nil machines

inductive World.Outcomes (w : World) : Outcome → Outcome → Prop where
  | running {r r' : Registers} (machines : w.Machines r r') :
    Outcomes w (.running r) (.running r')
  | halted {r r' : Registers} (machines : w.Machines r r') : Outcomes w (.halted r) (.halted r')

theorem sim_dispatch (machines : w.Machines r r') (instruction : w.Values v v') :
    Sim (OnHeaps left right) w World.Outcomes (dispatch left r v) (dispatch right r' v') := by
  cases instruction with
  | op o =>
    have run : Sim (OnHeaps left right) w World.Outcomes (do return .running (← execute r o))
        (do return .running (← execute r' o)) :=
      (sim_execute machines o).bind fun _ _ _ _ machines => .pure (.running machines)
    cases o with
    | halt => exact .pure (.halted machines)
    | _ => exact run
  | ident names =>
    exact (sim_applyBuiltin names machines).bind fun _ _ _ _ machines =>
      .pure (.running machines)
  | _ => exact sim_fault rfl

theorem World.Errors.withRegisters {e e' : Error} (errors : w.Errors e e')
    (machines : w.Machines r r') : w.Errors (e.withRegisters r) (e'.withRegisters r') := by
  cases errors with
  | runtime _ => exact .runtime machines
  | other none =>
    cases e with
    | runtime f r => cases none
    | _ => exact .other rfl

theorem sim_step (machines : w.Machines r r') :
    Sim (OnHeaps left right) w World.Outcomes (step left r) (step right r') := by
  have work : Sim (OnHeaps left right) w World.Outcomes
      (operand r >>= fun p => dispatch left p.2 p.1) (operand r' >>= fun p => dispatch right p.2 p.1) := by
    refine (sim_operand machines).bind ?_
    intro w₁ p q le both
    exact sim_dispatch both.2 both.1
  intro h h' states
  have agree := work h h' states
  unfold step
  change Agree _ _ _ ((operand r >>= fun p => dispatch left p.2 p.1) h) _ at agree
  generalize (operand r >>= fun p => dispatch left p.2 p.1) h = x at agree ⊢
  generalize (operand r' >>= fun p => dispatch right p.2 p.1) h' = y at agree ⊢
  cases agree with
  | ok le states outcomes => exact .ok le states outcomes
  | error le states errors => exact .error le states (errors.withRegisters (machines.mono le))
  | leftFull loose => exact .leftFull loose
  | rightFull loose => exact .rightFull loose

theorem sim_runFrom (steps : Nat) (machines : w.Machines r r') :
    Sim (OnHeaps left right) w World.Values (runFrom left steps r) (runFrom right steps r') := by
  induction steps generalizing w r r' with
  | zero => exact .throw (.other rfl)
  | succ steps ih =>
    refine (sim_step machines).bind ?_
    intro w₁ o o' le outcomes
    cases outcomes with
    | running machines => exact ih machines
    | halted machines =>
      refine sim_read fun h h' heaps => ?_
      have top := heaps.carOf? machines.stack
      generalize h.carOf? _ = x at top ⊢
      generalize h'.carOf? _ = y at top ⊢
      cases top with
      | none => exact .nil
      | some values => exact values

theorem sim_run (steps : Nat) (env : w.Values v v') (code : w.Values u u') :
    Sim (OnHeaps left right) w World.Values (run left steps v u) (run right steps v' u') :=
  sim_runFrom steps ⟨.nil, env, code, .nil⟩

end Parallel

end SecdLisp
