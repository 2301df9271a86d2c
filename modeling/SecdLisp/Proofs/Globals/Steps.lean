import SecdLisp.Proofs.Additions
import SecdLisp.Proofs.Discipline.Run
import SecdLisp.Proofs.Globals.Frames

/-!
# What one instruction changes

Two instructions change cells that there were before. An assignment changes a frame, and a recursive
call gives one cell of an environment another frame; all others only add cells.
-/

namespace SecdLisp

namespace Heap

variable {α β : Type}

theorem growing_throw (e : Error) : Growing (throw e : HeapM α) := Grows.refl

theorem growing_read (f : Heap → α) : Growing (read f) := Grows.refl

structure Added (h : Heap) (c : Cell) (h' : Heap) : Prop where
  grows : h.Grows h'
  size : h'.size = h.size + 1
  capacity : h'.capacity = h.capacity
  cell : h'.cell h.size = c

theorem ends_added {h : Heap} {car cdr : Value} {p : Value → Heap → Prop}
    {q : Error → Heap → Prop} (value : ∀ h', h.Added ⟨car, cdr⟩ h' → p (.pair h.size) h')
    (error : h.capacity ≤ h.size → q .heapFull h) : Ends (cons car cdr) h p q :=
  ends_cons.mpr ⟨fun _ => value _ ⟨grows_grown .., size_grown .., rfl, cell_grown_size ..⟩, error⟩

theorem Added.room {h h' : Heap} {c : Cell} (added : h.Added c h') : h.size < h.capacity := by
  have le : h'.size ≤ h'.capacity := h'.size_le
  rw [added.size, added.capacity] at le
  exact le

end Heap

namespace Builtin

open Heap

theorem growing_integers (b : Builtin) (x y : Value) : Growing (b.integers x y) := by
  unfold integers
  split
  · exact growing_pure _
  · exact growing_throw _
  · exact growing_throw _

theorem growing_word (b : Builtin) (n : Int) : Growing (b.word n) := by
  unfold word
  split
  · exact growing_pure _
  · exact growing_throw _

theorem growing_half (b : Builtin) (f : Heap → Value → Option Value) (v : Value) :
    Growing (b.half f v) := by
  refine (growing_read _).bind fun found => ?_
  cases found with
  | none => exact growing_throw _
  | some w => exact growing_pure w

theorem growing_apply (b : Builtin) (x y : Value) : Growing (b.apply x y) := by
  cases b with
  | add | sub | mul => exact (growing_integers _ x y).bind fun _ => growing_word _ _
  | div =>
    refine (growing_integers .div x y).bind fun p => ?_
    dsimp only
    split
    · exact growing_throw _
    · exact growing_word .div _
  | car | cdr => exact growing_half _ _ x
  | cons => exact growing_cons x y
  | eq => exact growing_pure _
  | lt | gt | le | ge => exact (growing_integers _ x y).bind fun _ => growing_pure _

end Builtin

namespace Machine

open Heap

theorem growing_split (v : Value) (fault : Fault) : Growing (split v fault) := by
  cases v with
  | pair a => exact growing_read _
  | _ => exact growing_throw _

theorem growing_push (v : Value) (r : Registers) : Growing (push v r) :=
  (growing_cons v r.stack).bind fun _ => growing_pure _

theorem growing_pop (r : Registers) : Growing (pop r) :=
  (growing_split r.stack _).bind fun _ => growing_pure _

theorem growing_popDump (r : Registers) : Growing (popDump r) :=
  (growing_split r.dump _).bind fun _ => growing_pure _

theorem growing_operand (r : Registers) : Growing (operand r) :=
  (growing_split r.code _).bind fun _ => growing_pure _

theorem growing_addressOperand (r : Registers) : Growing (addressOperand r) := by
  refine (growing_operand r).bind fun p => (growing_read _).bind fun found => ?_
  cases found with
  | none => exact growing_throw _
  | some address => exact growing_pure _

theorem growing_popClosure (r : Registers) : Growing (popClosure r) := by
  refine (growing_pop r).bind fun p => (growing_split p.1 _).bind fun halves => ?_
  dsimp only
  split
  · exact growing_pure _
  · exact growing_throw _

theorem growing_load (find : Heap → Value → Nat → Nat → Option Value) (r : Registers) :
    Growing (load find r) := by
  refine (growing_addressOperand r).bind fun p => (growing_read _).bind fun found => ?_
  cases found with
  | none => exact growing_throw _
  | some v => exact growing_push v _

theorem growing_enter (body env callerEnv : Value) (r : Registers) :
    Growing (enter body env callerEnv r) :=
  (growing_listWithTail _ r.dump).bind fun _ => growing_pure _

theorem growing_apply (r : Registers) : Growing (apply r) :=
  (growing_popClosure r).bind fun _ => (growing_pop _).bind fun _ =>
    (growing_enter _ _ _ _).bind fun _ => (growing_cons _ _).bind fun _ => growing_pure _

theorem growing_leave (r : Registers) : Growing (leave r) :=
  (growing_pop r).bind fun _ => (growing_popDump _).bind fun _ => (growing_popDump _).bind fun _ =>
    (growing_popDump _).bind fun _ => growing_push _ _

theorem growing_select (r : Registers) : Growing (select r) :=
  (growing_pop r).bind fun _ => (growing_operand _).bind fun _ => (growing_operand _).bind fun _ =>
    (growing_cons _ _).bind fun _ => growing_pure _

theorem growing_execute (r : Registers) {o : Opcode} (other : o ≠ .st) (other' : o ≠ .rap) :
    Growing (execute r o) := by
  cases o with
  | st => exact (other rfl).elim
  | rap => exact (other' rfl).elim
  | nil => exact growing_push .nil r
  | ldc => exact (growing_operand r).bind fun _ => growing_push _ _
  | ld | ldr => exact growing_load _ r
  | cons =>
    exact (growing_pop r).bind fun _ => (growing_pop _).bind fun _ =>
      (growing_cons _ _).bind fun _ => growing_push _ _
  | sel => exact growing_select r
  | join => exact (growing_popDump r).bind fun _ => growing_pure _
  | ldf =>
    exact (growing_operand r).bind fun _ => (growing_cons _ _).bind fun _ => growing_push _ _
  | ap => exact growing_apply r
  | rtn => exact growing_leave r
  | dum => exact (growing_cons _ _).bind fun _ => growing_pure _
  | halt => exact growing_pure r

theorem growing_applyBuiltin (symbols : SymbolTable) (name : Symbol) (r : Registers) :
    Growing (applyBuiltin symbols name r) := by
  unfold applyBuiltin
  split
  · exact growing_throw _
  next b _ =>
    have apply (x y : Value) (r : Registers) : Growing (do push (← b.apply x y) r) :=
      (b.growing_apply x y).bind fun _ => growing_push _ r
    refine (growing_pop r).bind fun p => ?_
    dsimp only
    split
    · exact (growing_pop _).bind fun _ => apply _ _ _
    · exact (growing_pure _).bind fun _ => apply _ _ _

theorem growing_dispatch (symbols : SymbolTable) (r : Registers) {i : Value} (other : i ≠ .op .st)
    (other' : i ≠ .op .rap) : Growing (dispatch symbols r i) := by
  cases i with
  | op o =>
    have work : Growing (do return .running (← execute r o) : HeapM Outcome) :=
      (growing_execute r (fun eq => other (congrArg Value.op eq))
        fun eq => other' (congrArg Value.op eq)).bind fun _ => growing_pure _
    cases o with
    | halt => exact growing_pure _
    | _ => exact work
  | ident name => exact (growing_applyBuiltin symbols name r).bind fun _ => growing_pure _
  | _ => exact growing_throw _

/-- The registers that an error is given have nothing to do with the heap. -/
theorem left_step (symbols : SymbolTable) (r : Registers) (h : Heap) :
    left (step symbols r) h = left (operand r >>= fun p => dispatch symbols p.2 p.1) h := by
  unfold left step
  dsimp only
  cases (operand r >>= fun p => dispatch symbols p.2 p.1) h <;> rfl

theorem left_dispatch (symbols : SymbolTable) (r : Registers) (h : Heap) {o : Opcode}
    (goes : o ≠ .halt) : left (dispatch symbols r (.op o)) h = left (execute r o) h := by
  have same : left (do return .running (← execute r o) : HeapM Outcome) h =
      left (execute r o) h := by
    rw [left_bind]
    unfold left
    cases execute r o h <;> rfl
  cases o with
  | halt => exact (goes rfl).elim
  | _ => exact same

/-- An instruction that is neither an assignment nor a recursive call only adds cells. -/
theorem grows_step (symbols : SymbolTable) {r : Registers} {h : Heap}
    (other : h.carOf? r.code ≠ some (.op .st)) (other' : h.carOf? r.code ≠ some (.op .rap)) :
    h.Grows (left (step symbols r) h) := by
  obtain ⟨stack, env, code, dump⟩ := r
  rw [left_step, left_bind]
  cases code with
  | pair a =>
    have other : h.car a ≠ .op .st := fun eq => other (congrArg some eq)
    have other' : h.car a ≠ .op .rap := fun eq => other' (congrArg some eq)
    exact growing_dispatch symbols _ other other' h
  | _ => exact .refl h

/-- A recursive call fills its placeholder, and then only adds cells. -/
theorem grows_applyRecursive {r r' r'' : Registers} {h : Heap} {body arguments : Value} {a : Addr}
    (closure : popClosure r h = .ok ((body, .pair a), r') h)
    (second : pop r' h = .ok (arguments, r'') h) :
    (h.updated a fun c => { c with car := arguments }).Grows (left (applyRecursive r) h) := by
  unfold applyRecursive
  rw [left_bind, closure]
  dsimp only
  rw [left_bind, second]
  exact (growing_read (·.cdr a)).bind (fun caller => growing_enter body (.pair a) caller r'') _

def address (h : Heap) (r : Registers) : Option (Nat × Nat) :=
  ((h.cdrOf? r.code).bind h.carOf?).bind (address? h)

section Addressed

variable {h : Heap} {r : Registers} {o : Opcode} {depth slot : Nat} {v : Value}
  (fetched : h.carOf? r.code = some (.op o)) (place : address h r = some (depth, slot))

theorem step_eq (symbols : SymbolTable) {i : Value} {r' : Registers}
    (fetch : operand r h = .ok (i, r') h) :
    step symbols r h = match dispatch symbols r' i h with
      | .ok outcome h' => .ok outcome h'
      | .error e h' => .error (e.withRegisters r) h' := by
  have work : (operand r >>= fun p => dispatch symbols p.2 p.1) h = dispatch symbols r' i h :=
    bind_of_eq_ok fetch
  unfold step
  dsimp only
  cases run : dispatch symbols r' i h <;> simp only [work, run]

include fetched place

theorem dispatched : ∃ code next, (h.cdrOf? r.code).bind h.cdrOf? = some next ∧
    operand r h = .ok (.op o, { r with code }) h ∧
    addressOperand { r with code } h = .ok ((depth, slot), { r with code := next }) h := by
  obtain ⟨stack, env, code, dump⟩ := r
  obtain ⟨a, rfl, here⟩ : ∃ a, code = .pair a ∧ h.car a = .op o := by
    cases code with
    | pair a => exact ⟨a, rfl, Option.some.inj fetched⟩
    | _ => cases fetched
  obtain ⟨u, second, spelled⟩ := Option.bind_eq_some_iff.mp place
  obtain ⟨b, link, word⟩ : ∃ b, h.cdr a = .pair b ∧ h.car b = u := by
    have second : h.carOf? (h.cdr a) = some u := second
    cases link : h.cdr a <;> rw [link] at second <;> cases second
    exact ⟨_, rfl, rfl⟩
  have split (a : Addr) : operand ⟨stack, env, .pair a, dump⟩ h =
      .ok (h.car a, ⟨stack, env, h.cdr a, dump⟩) h := rfl
  refine ⟨h.cdr a, h.cdr b, ?_, here ▸ split a, ?_⟩
  · show h.cdrOf? (h.cdr a) = _
    rw [link]
    rfl
  rw [link]
  unfold addressOperand
  rw [bind_of_eq_ok (split b), bind_eq_ok]
  refine ⟨_, _, rfl, ?_⟩
  dsimp only
  rw [word, spelled]
  rfl

theorem step_assignment (symbols : SymbolTable) (assigns : o = .st)
    (top : h.carOf? r.stack = some v) :
    ∃ code, step symbols r h = match Heap.store r.env depth slot v h with
      | .ok true h' => .ok (.running { r with code }) h'
      | .ok false h' => .error (.runtime (.noFrame depth slot) r) h'
      | .error e h' => .error (e.withRegisters r) h' := by
  subst assigns
  obtain ⟨code, next, _, fetch, operand⟩ := dispatched fetched place
  refine ⟨next, ?_⟩
  have popped : split r.stack .emptyStore h = .ok (v, ((h.cdrOf? r.stack).getD .nil)) h := by
    cases stack : r.stack <;> rw [stack] at top <;> cases top
    rfl
  have work : dispatch symbols { r with code } (.op .st) h =
      match Heap.store r.env depth slot v h with
      | .ok true h' => .ok (.running { r with code := next }) h'
      | .ok false h' => .error (.fault (.noFrame depth slot)) h'
      | .error e h' => .error e h' := by
    show (do return .running (← store { r with code }) : HeapM Outcome) h = _
    unfold store
    simp only [bind_assoc]
    rw [bind_of_eq_ok operand]
    dsimp only
    rw [bind_of_eq_ok popped]
    dsimp only
    cases run : Heap.store r.env depth slot v h with
    | error e h' => exact bind_of_eq_error run
    | ok stored h' =>
      rw [bind_of_eq_ok run]
      cases stored <;> rfl
  rw [step_eq symbols fetch, work]
  cases Heap.store r.env depth slot v h with
  | error e h' => rfl
  | ok stored h' => cases stored <;> rfl

theorem left_assignment (symbols : SymbolTable) (assigns : o = .st)
    (top : h.carOf? r.stack = some v) :
    left (step symbols r) h = left (Heap.store r.env depth slot v) h := by
  obtain ⟨code, ran⟩ := step_assignment fetched place symbols assigns top
  unfold left
  rw [ran]
  cases Heap.store r.env depth slot v h with
  | error e h' => rfl
  | ok stored h' => cases stored <;> rfl

theorem ends_load (symbols : SymbolTable) (loads : o = .ld) :
    ∃ code, (h.cdrOf? r.code).bind h.cdrOf? = some code ∧ Ends (step symbols r) h
      (fun outcome h' => ∃ v, h.lookup? r.env depth slot = some v ∧ h.Added ⟨v, r.stack⟩ h' ∧
        outcome = .running { r with stack := .pair h.size, code })
      fun e h' => h.lookup? r.env depth slot = none ∧ e = .runtime (.unbound depth slot) r ∧ h' = h ∨
        e = .heapFull ∧ h.capacity ≤ h.size := by
  subst loads
  obtain ⟨code, next, behind, fetch, operand⟩ := dispatched fetched place
  refine ⟨next, behind, ?_⟩
  have work : Ends (dispatch symbols { r with code } (.op .ld)) h
      (fun outcome h' => ∃ v, h.lookup? r.env depth slot = some v ∧ h.Added ⟨v, r.stack⟩ h' ∧
        outcome = .running { r with stack := .pair h.size, code := next })
      fun e h' => h.lookup? r.env depth slot = none ∧ e = .fault (.unbound depth slot) ∧ h' = h ∨
        e = .heapFull ∧ h.capacity ≤ h.size := by
    show Ends (load Heap.lookup? { r with code } >>= fun r' => pure (Outcome.running r')) h _ _
    rw [ends_bind, load, ends_bind]
    unfold Ends
    rw [operand]
    dsimp only
    show Ends (Heap.read (Heap.lookup? · r.env depth slot) >>= _) h _ _
    rw [ends_bind, ends_read]
    cases found : h.lookup? r.env depth slot with
    | none => exact .inl ⟨rfl, rfl, rfl⟩
    | some v =>
      dsimp only
      rw [push, ends_bind]
      exact ends_added (fun h' added => ⟨v, rfl, added, rfl⟩) fun full => .inr ⟨rfl, full⟩
  have ran := step_eq symbols fetch
  unfold Ends at work ⊢
  rw [ran]
  cases result : dispatch symbols { r with code } (.op .ld) h with
  | ok outcome h' =>
    rw [result] at work
    exact work
  | error e h' =>
    rw [result] at work
    rcases work with ⟨none, rfl, same⟩ | ⟨rfl, full⟩
    · exact .inl ⟨none, rfl, same⟩
    · exact .inr ⟨rfl, full⟩

end Addressed

end Machine

namespace Discipline

open Heap Machine

variable {w : World} {r : Registers}

/-- A recursive call changes one cell, which holds a frame that is not global. -/
theorem World.Ready.spares_rap (ready : w.Ready r) (symbols : SymbolTable)
    (call : w.heap.carOf? r.code = some (.op .rap)) :
    ∃ a n, w.InEnv a (some n) ∧ w.heap.Spares (· = a) (left (step symbols r) w.heap) := by
  have other {i : Value} (here : w.heap.carOf? r.code = some i) (ne : i ≠ .op .rap) : False :=
    ne (Option.some.inj (here.symm.trans call))
  cases ready with
  | running _ code =>
    refine (code.head_ne_rap ?_).elim
    rw [Linking.head, call]
    rfl
  | calling _ first => exact (other first.carOf? (by decide)).elim
  | @binding _ _ _ _ f body stack _ top closure meets checked next words =>
    obtain ⟨u, has, rfl⟩ := words
    obtain ⟨_, arguments, stack', top', _, _⟩ := meets.pop
    obtain ⟨a, env, lt, role, _⟩ := meets.frames
    refine ⟨a, _, ⟨lt, role⟩, ?_⟩
    rw [left_step, left_bind, operand_eq has]
    dsimp only
    rw [left_dispatch symbols _ _ (by decide)]
    have env : r.env = .pair a := env
    rw [env] at closure
    have opened : popClosure { r with code := u } w.heap =
        .ok ((body, .pair a), { r with code := u, stack }) w.heap := by
      unfold popClosure
      rw [bind_eq_ok]
      refine ⟨_, _, pop_eq (r := { r with code := u }) top, ?_⟩
      rw [bind_eq_ok]
      refine ⟨_, _, split_eq closure _, ?_⟩
      dsimp only
      rw [if_pos checked.isPair]
      rfl
    have second := pop_eq (r := { r with code := u, stack }) top'
    exact Spares.trans (spares_updated (Z := (· = a)) rfl _)
      ((grows_applyRecursive opened second).spares _)

/-- An assignment finds a value on the stack, and its address in the environment. -/
theorem World.Ready.assignment (ready : w.Ready r)
    (fetched : w.heap.carOf? r.code = some (.op .st)) :
    ∃ scopes depth slot v, w.Env scopes r.env ∧ address w.heap r = some (depth, slot) ∧
      (0 < depth ∧ 0 < slot) ∧ depth ≤ scopes.length + 2 ∧ w.heap.carOf? r.stack = some v := by
  have other {i : Value} (here : w.heap.carOf? r.code = some i) (ne : i ≠ .op .st) : False :=
    ne (Option.some.inj (here.symm.trans fetched))
  cases ready with
  | running meets code =>
    cases code with
    | @st sc _ _ _ _ _ _ _ _ place words =>
      obtain ⟨_, has, _, has', _⟩ := words
      obtain ⟨depth, slot, ⟨a, rfl, _, _, cell⟩, positive, few, le, _⟩ := place
      obtain ⟨v, _, top, _⟩ := meets.pop_value
      refine ⟨sc, depth, slot, v, meets.frames, ?_, positive, le, top.carOf?⟩
      rw [address, has.cdrOf?, Option.bind_some, has'.carOf?, Option.bind_some]
      exact address?_of_cell cell positive few
    | load loads _ _ words => cases loads <;> exact (other words.carOf? nofun).elim
    | builtin _ _ words | nil _ words | ldc _ _ words | cons _ words | sel _ _ _ words | join words
    | ldf _ _ words | ap _ words | rtn words | dum _ words | rap _ _ words | halt words =>
      exact (other words.carOf? nofun).elim
  | binding _ _ _ _ _ words => exact (other words.carOf? nofun).elim
  | calling _ first => exact (other first.carOf? (by decide)).elim

end Discipline

end SecdLisp
