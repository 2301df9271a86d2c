import SecdLisp.Proofs.Instruction
import SecdLisp.Proofs.Reference.Code

/-!
# Machine steps

A run that does not run out of heap gets from some registers to others. Each instruction is
given by what must be reached after it.
-/

namespace SecdLisp

namespace Reference

open Machine

/-- From these registers the machine reaches ones that satisfy `goal`, unless the heap is full
before. -/
inductive Leads (symbols : SymbolTable) (goal : Registers → Heap → Prop) :
    Registers → Heap → Prop where
  | here {r : Registers} {h : Heap} (reached : goal r h) : Leads symbols goal r h
  | step {r r' : Registers} {h h' : Heap} (run : Machine.step symbols r h = .ok (.running r') h')
    (next : Leads symbols goal r' h') : Leads symbols goal r h
  | full {r : Registers} {h h' : Heap} (run : Machine.step symbols r h = .error .heapFull h') :
    Leads symbols goal r h

variable {symbols : SymbolTable} {goal : Registers → Heap → Prop}

theorem Leads.trans {goal' : Registers → Heap → Prop} {r : Registers} {h : Heap}
    (leads : Leads symbols goal r h) (next : ∀ r h, goal r h → Leads symbols goal' r h) :
    Leads symbols goal' r h := by
  induction leads with
  | here reached => exact next _ _ reached
  | step run _ ih => exact .step run ih
  | full run => exact .full run

def OutOfRoom (e : Error) (_ : Heap) : Prop := e = .heapFull

theorem Leads.of_ends {r : Registers} {h : Heap}
    (ends : Ends (Machine.step symbols r) h
      (fun o h => ∃ r, o = .running r ∧ Leads symbols goal r h) OutOfRoom) :
    Leads symbols goal r h := by
  unfold Ends at ends
  cases run : Machine.step symbols r h with
  | ok o h' =>
    rw [run] at ends
    obtain ⟨r', rfl, next⟩ := ends
    exact .step run next
  | error e h' =>
    rw [run] at ends
    have full : e = .heapFull := ends
    subst full
    exact .full run

/-- The cells that hold code hold it. -/
def Holds (code : Addr → Option Cell) (h : Heap) : Prop := ∀ a c, code a = some c → h.cell a = c

theorem withRegisters_eq_heapFull {e : Error} {r : Registers} :
    e.withRegisters r = .heapFull ↔ e = .heapFull := by
  cases e <;> simp [Error.withRegisters]

section Instructions

variable {code : Addr → Option Cell} {h : Heap} {S E D c k v w : Value}

theorem leads_of_dispatch (held : Holds code h) {i : Value} (words : Words code [i] k c)
    (ends : Ends (dispatch symbols ⟨S, E, k, D⟩ i) h
      (fun o h => ∃ r, o = .running r ∧ Leads symbols goal r h) OutOfRoom) :
    Leads symbols goal ⟨S, E, c, D⟩ h := by
  obtain _ | ⟨here, rest⟩ := words
  cases rest
  have cell := held _ _ here
  refine .of_ends (ends_step.mpr ?_)
  simp only [operand, fetch, ends_bind, ends_split, ends_pure, Heap.car, Heap.cdr, cell]
  exact ends.mono (fun _ _ => id) fun e _ full => withRegisters_eq_heapFull.mpr full

theorem leads_of_execute (held : Holds code h) {o : Opcode} (words : Words code [.op o] k c)
    (running : o ≠ .halt)
    (ends : Ends (execute ⟨S, E, k, D⟩ o) h (Leads symbols goal) OutOfRoom) :
    Leads symbols goal ⟨S, E, c, D⟩ h := by
  refine leads_of_dispatch held words ?_
  have ends := ends.mono (fun r h leads => (⟨r, rfl, leads⟩ : ∃ r', Outcome.running r = .running r' ∧
    Leads symbols goal r' h)) fun _ _ => id
  cases o with
  | halt => exact absurd rfl running
  | _ => exact ends_map.mpr ends

theorem Words.split {words : List Value} (all : Words code (w :: words) k c) :
    ∃ c₁, Words code [w] c₁ c ∧ Words code words k c₁ := by
  obtain _ | ⟨here, rest⟩ := all
  exact ⟨_, .cons here .nil, rest⟩

theorem ends_operand (held : Holds code h) (words : Words code [v] k c)
    {p : Value × Registers → Heap → Prop} {q : Error → Heap → Prop} :
    Ends (operand ⟨S, E, c, D⟩) h p q ↔ p (v, ⟨S, E, k, D⟩) h := by
  obtain _ | ⟨here, rest⟩ := words
  cases rest
  have cell := held _ _ here
  simp only [operand, fetch, ends_bind, ends_split, ends_pure, Heap.car, Heap.cdr, cell]

theorem ends_push {r : Registers} {p : Registers → Heap → Prop}
    (next : ∀ room, p { r with stack := .pair h.size } (h.grown ⟨v, r.stack⟩ room)) :
    Ends (push v r) h p OutOfRoom := by
  simp only [push, ends_bind, Heap.ends_cons, ends_pure]
  exact ⟨next, fun _ => rfl⟩

theorem leads_nil (held : Holds code h) (words : Words code [.op .nil] k c)
    (next : ∀ room, Leads symbols goal ⟨.pair h.size, E, k, D⟩ (h.grown ⟨.nil, S⟩ room)) :
    Leads symbols goal ⟨S, E, c, D⟩ h :=
  leads_of_execute held words (by decide) (ends_push next)

theorem leads_ldc (held : Holds code h) (words : Words code [.op .ldc, v] k c)
    (next : ∀ room, Leads symbols goal ⟨.pair h.size, E, k, D⟩ (h.grown ⟨v, S⟩ room)) :
    Leads symbols goal ⟨S, E, c, D⟩ h := by
  obtain ⟨c₁, first, second⟩ := words.split
  refine leads_of_execute held first (by decide) ?_
  rw [execute, ends_bind, ends_operand held second]
  exact ends_push next

def loaded? (h : Heap) (E : Value) (depth index : Nat) : Formal → Option Value
  | .plain _ => h.lookup? E depth index
  | .rest _ => h.lookupRest? E depth index

theorem leads_load (held : Holds code h) {formal : Formal} {depth index : Nat}
    (words : Words code [.op (loadCode formal), v] k c)
    (address : address? h v = some (depth, index))
    (found : loaded? h E depth index formal = some w)
    (next : ∀ room, Leads symbols goal ⟨.pair h.size, E, k, D⟩ (h.grown ⟨w, S⟩ room)) :
    Leads symbols goal ⟨S, E, c, D⟩ h := by
  obtain ⟨c₁, first, second⟩ := words.split
  have loads (find : Heap → Value → Nat → Nat → Option Value)
      (found : find h E depth index = some w) :
      Ends (load find ⟨S, E, c₁, D⟩) h (Leads symbols goal) OutOfRoom := by
    simp only [load, addressOperand, ends_bind, ends_operand held second, Heap.ends_read, address,
      ends_pure, found]
    exact ends_push next
  have running : loadCode formal ≠ .halt := by cases formal <;> simp [loadCode]
  cases formal with
  | plain _ => exact leads_of_execute held first running (loads _ found)
  | rest _ => exact leads_of_execute held first running (loads _ found)

theorem leads_st (held : Holds code h) {depth index : Nat} {s : Addr}
    (words : Words code [.op .st, v] k c) (address : address? h v = some (depth, index))
    (top : (h.cell s).car = w)
    (stored : Ends (Heap.store E depth index w) h
      (fun found h => found = true ∧ Leads symbols goal ⟨.pair s, E, k, D⟩ h) OutOfRoom) :
    Leads symbols goal ⟨.pair s, E, c, D⟩ h := by
  obtain ⟨c₁, first, second⟩ := words.split
  refine leads_of_execute held first (by decide) ?_
  simp only [execute, store, addressOperand, ends_bind, ends_operand held second, Heap.ends_read,
    address, ends_pure, ends_split, Heap.car, top]
  refine stored.mono (fun found h both => ?_) fun _ _ => id
  rw [if_pos both.1]
  exact both.2

theorem leads_cons (held : Holds code h) {s s' : Addr} (words : Words code [.op .cons] k c)
    (first : h.cell s = ⟨v, .pair s'⟩) (second : h.cell s' = ⟨w, S⟩)
    (next : ∀ room room', Leads symbols goal ⟨.pair (h.size + 1), E, k, D⟩
      ((h.grown ⟨v, w⟩ room).grown ⟨.pair h.size, S⟩ room')) :
    Leads symbols goal ⟨.pair s, E, c, D⟩ h := by
  refine leads_of_execute held words (by decide) ?_
  simp only [execute, ends_bind, ends_pop first, ends_pop second, Heap.ends_cons]
  refine ⟨fun room => ends_push fun room' => ?_, fun _ => rfl⟩
  simpa using next room room'

theorem leads_sel (held : Holds code h) {c₁ c₂ : Value} {s : Addr}
    (words : Words code [.op .sel, c₁, c₂] k c) (top : h.cell s = ⟨v, S⟩)
    (next : ∀ room, Leads symbols goal ⟨S, E, if v.isTruthy then c₁ else c₂, .pair h.size⟩
      (h.grown ⟨k, D⟩ room)) :
    Leads symbols goal ⟨.pair s, E, c, D⟩ h := by
  obtain ⟨k₁, first, words⟩ := words.split
  obtain ⟨k₂, second, third⟩ := words.split
  refine leads_of_execute held first (by decide) ?_
  simp only [execute, select, ends_bind, ends_pop top, ends_operand held second,
    ends_operand held third, Heap.ends_cons, ends_pure]
  exact ⟨next, fun _ => rfl⟩

theorem leads_join (held : Holds code h) {d : Addr} (words : Words code [.op .join] .nil c)
    (top : h.cell d = ⟨k, D⟩) (next : Leads symbols goal ⟨S, E, k, D⟩ h) :
    Leads symbols goal ⟨S, E, c, .pair d⟩ h := by
  refine leads_of_execute held words (by decide) ?_
  simp only [execute, ends_bind, ends_popDump top, ends_pure]
  exact next

theorem leads_ldf (held : Holds code h) {body : Value} (words : Words code [.op .ldf, body] k c)
    (next : ∀ room room', Leads symbols goal ⟨.pair (h.size + 1), E, k, D⟩
      ((h.grown ⟨body, E⟩ room).grown ⟨.pair h.size, S⟩ room')) :
    Leads symbols goal ⟨S, E, c, D⟩ h := by
  obtain ⟨c₁, first, second⟩ := words.split
  refine leads_of_execute held first (by decide) ?_
  simp only [execute, ends_bind, ends_operand held second, Heap.ends_cons]
  refine ⟨fun room => ends_push fun room' => ?_, fun _ => rfl⟩
  simpa using next room room'

/-- The heap with three more entries on the dump, for the caller's stack, environment and code. -/
structure Calls (h h' : Heap) (S E k D : Value) : Prop where
  grows : h.Grows h'
  size : h'.size = h.size + 3
  stack : h'.cell (h.size + 2) = ⟨S, .pair (h.size + 1)⟩
  env : h'.cell (h.size + 1) = ⟨E, .pair h.size⟩
  code : h'.cell h.size = ⟨k, D⟩

theorem calls_grown (room : h.size < h.capacity)
    (room' : (h.grown ⟨k, D⟩ room).size < (h.grown ⟨k, D⟩ room).capacity)
    (room'' : ((h.grown ⟨k, D⟩ room).grown ⟨E, .pair h.size⟩ room').size <
      ((h.grown ⟨k, D⟩ room).grown ⟨E, .pair h.size⟩ room').capacity) :
    Calls h (((h.grown ⟨k, D⟩ room).grown ⟨E, .pair h.size⟩ room').grown
      ⟨S, .pair (h.grown ⟨k, D⟩ room).size⟩ room'') S E k D where
  grows := ((Heap.grows_grown ..).trans (Heap.grows_grown ..)).trans (Heap.grows_grown ..)
  size := by simp
  stack := by simp [Heap.cell_grown]
  env := by simp [Heap.cell_grown]
  code := by
    have first : h.size ≠ h.size + 1 + 1 := by omega
    simp [Heap.cell_grown, first]

theorem ends_enter {body env : Value} {p : Registers → Heap → Prop}
    (next : ∀ h', Calls h h' S E k D → p ⟨.nil, env, body, .pair (h.size + 2)⟩ h') :
    Ends (enter body env E ⟨S, v, k, D⟩) h p OutOfRoom := by
  simp only [enter, Heap.listWithTail, List.foldrM_cons, List.foldrM_nil, ends_bind, ends_pure,
    pure_bind, Heap.ends_cons]
  refine ⟨fun room => ⟨fun room' => ⟨fun room'' => ?_, fun _ => rfl⟩, fun _ => rfl⟩, fun _ => rfl⟩
  simpa using next _ (calls_grown room room' room'')

theorem leads_ap (held : Holds code h) {s s' f : Addr} {body env : Value}
    (words : Words code [.op .ap] k c) (top : h.cell s = ⟨.pair f, .pair s'⟩)
    (below : h.cell s' = ⟨v, S⟩) (closure : h.cell f = ⟨body, env⟩) (isPair : body.isPair = true)
    (next : ∀ h', Calls h h' S E k D → ∀ room,
      Leads symbols goal ⟨.nil, .pair h'.size, body, .pair (h.size + 2)⟩
        (h'.grown ⟨v, env⟩ room)) :
    Leads symbols goal ⟨.pair s, E, c, D⟩ h := by
  refine leads_of_execute held words (by decide) ?_
  simp only [execute, apply, popClosure, ends_bind, ends_pop top, ends_split, Heap.car, Heap.cdr,
    closure, isPair, if_true, ends_pure, ends_pop below]
  refine ends_enter fun h' calls => ?_
  simp only [Heap.ends_cons]
  exact ⟨next h' calls, fun _ => rfl⟩

theorem leads_rap (held : Holds code h) {s s' f a : Addr} {body : Value}
    (words : Words code [.op .rap] k c) (top : h.cell s = ⟨.pair f, .pair s'⟩)
    (below : h.cell s' = ⟨v, S⟩) (closure : h.cell f = ⟨body, .pair a⟩)
    (isPair : body.isPair = true)
    (next : ∀ h', Calls (h.updated a fun c => { c with car := v }) h' S (h.cdr a) k D →
      Leads symbols goal ⟨.nil, .pair a, body, .pair (h.size + 2)⟩ h') :
    Leads symbols goal ⟨.pair s, E, c, D⟩ h := by
  refine leads_of_execute held words (by decide) ?_
  simp only [execute, applyRecursive, popClosure, ends_bind, ends_pop top, ends_split, Heap.car,
    Heap.cdr, closure, isPair, if_true, ends_pure, ends_pop below, Heap.setCar, Heap.ends_update,
    Heap.ends_read]
  refine ends_enter fun h' calls => ?_
  have same : ((h.updated a fun c => { c with car := v }).cell a).cdr = h.cdr a := by
    by_cases owned : a < h.size
    · rw [Heap.cell_updated_self owned]
      rfl
    · rw [Heap.cell_updated, if_neg fun both => owned both.2]
      rfl
  rw [same] at calls
  simpa using next h' calls

theorem leads_rtn (held : Holds code h) {s d d' d'' : Addr} {stack env k : Value}
    (words : Words code [.op .rtn] .nil c) (top : h.cell s = ⟨v, stack⟩)
    (first : h.cell d = ⟨S, .pair d'⟩) (second : h.cell d' = ⟨env, .pair d''⟩)
    (third : h.cell d'' = ⟨k, D⟩)
    (next : ∀ room, Leads symbols goal ⟨.pair h.size, env, k, D⟩ (h.grown ⟨v, S⟩ room)) :
    Leads symbols goal ⟨.pair s, E, c, .pair d⟩ h := by
  refine leads_of_execute held words (by decide) ?_
  simp only [execute, leave, ends_bind, ends_pop top, ends_popDump first, ends_popDump second,
    ends_popDump third]
  exact ends_push next

theorem leads_dum (held : Holds code h) (words : Words code [.op .dum] k c)
    (next : ∀ room, Leads symbols goal ⟨S, .pair h.size, k, D⟩ (h.grown ⟨.nil, E⟩ room)) :
    Leads symbols goal ⟨S, E, c, D⟩ h := by
  refine leads_of_execute held words (by decide) ?_
  simp only [execute, ends_bind, Heap.ends_cons, ends_pure]
  exact ⟨next, fun _ => rfl⟩

def Operands (h : Heap) (S : Value) : List Value → Value → Prop
  | [], s => s = S
  | v :: vs, s => ∃ a rest, s = .pair a ∧ h.cell a = ⟨v, rest⟩ ∧ Operands h S vs rest

theorem leads_builtin (held : Holds code h) {b : Builtin} {x y s : Value}
    (words : Words code [.ident b.symbol] k c)
    (operands : Operands h S (if b.arity = 2 then [x, y] else [x]) s)
    (applied : Ends (b.apply x (if b.arity = 2 then y else .nil)) h
      (fun v h => ∀ room, Leads symbols goal ⟨.pair h.size, E, k, D⟩ (h.grown ⟨v, S⟩ room))
      OutOfRoom) :
    Leads symbols goal ⟨s, E, c, D⟩ h := by
  refine leads_of_dispatch held words ?_
  have running {r : Registers} {h : Heap} (leads : Leads symbols goal r h) :
    ∃ r', Outcome.running r = .running r' ∧ Leads symbols goal r' h := ⟨r, rfl, leads⟩
  rw [dispatch]
  simp only [ends_bind, ends_pure, Machine.applyBuiltin, Builtin.ofSymbol?_symbol]
  by_cases two : b.arity = 2
  · simp only [two, if_true] at operands applied ⊢
    obtain ⟨a, s₁, rfl, first, a', s₂, rfl, second, rfl⟩ := operands
    simp only [ends_pop first, ends_bind, ends_pop second]
    refine applied.mono (fun v h next => ends_push fun room => running (next room)) fun _ _ => id
  · simp only [two, if_false] at operands applied ⊢
    obtain ⟨a, s₁, rfl, first, rfl⟩ := operands
    simp only [ends_pop first, ends_bind, ends_pure]
    refine applied.mono (fun v h next => ends_push fun room => running (next room)) fun _ _ => id

end Instructions

end Reference

end SecdLisp
