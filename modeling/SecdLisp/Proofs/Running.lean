import SecdLisp.Machine.Run
import SecdLisp.Proofs.Contract
import SecdLisp.Proofs.Instruction

/-!
# What running keeps

The machine takes values from cells that it can reach and puts them into new cells, into the car of
a cell, or behind the last cell of a chain. So it keeps every contract that these changes keep; and
its registers have every property of values that pairs hand on to their halves.
-/

namespace SecdLisp

open Contract

namespace Machine

structure Bear (P : Value → Prop) (r : Registers) : Prop where
  stack : P r.stack
  env : P r.env
  code : P r.code
  dump : P r.dump

def Outcome.Bear (P : Value → Prop) : Outcome → Prop
  | .running r => Machine.Bear P r
  | .halted r => Machine.Bear P r

abbrev Finds (P : Value → Prop) (found : Option Addr) : Prop := ∀ a, found = some a → P (.pair a)

theorem finds_none {P : Value → Prop} : Finds P none := by
  intro a found
  cases found

/-- What makes a contract and a property of values one of running. -/
structure Takes {W : Type} (C : Contract W Heap) (P : W → Value → Prop) : Prop where
  later : ∀ {w w' v}, C.le w w' → P w v → P w' v
  nil : ∀ w, P w .nil
  truth : ∀ w, P w .truth
  int : ∀ w n, P w (.int n)
  fault : ∀ w f, C.error w (.fault f)
  carried : ∀ {w e r}, C.error w e → Bear (P w) r → C.error w (e.withRegisters r)
  outOfSteps : ∀ w, C.error w .outOfSteps
  halves : ∀ {w h a}, C.holds w h → P w (.pair a) → P w (h.car a) ∧ P w (h.cdr a)
  alloc : ∀ {w car cdr}, P w car → P w cdr →
    C.Keeps w (fun w a => P w (.pair a)) (Heap.alloc car cdr)
  setCar : ∀ {w a v}, P w (.pair a) → P w v → C.Keeps w (fun _ _ => True) (Heap.setCar a v)
  extend : ∀ {w a}, P w (.pair a) →
    C.Keeps w (fun w found => Finds (P w) found)
      (Heap.read (·.cdr a) >>= fun link => Heap.follow link (Heap.setCdr a))

namespace Takes

variable {W α : Type} {C : Contract W Heap} {P : W → Value → Prop} (takes : Takes C P) {w : W}
  {p : W → α → Prop} {u v : Value} {r : Registers} {a : Addr}

include takes

theorem bear_later {w' : W} (le : C.le w w') (bear : Bear (P w) r) : Bear (P w') r :=
  ⟨takes.later le bear.stack, takes.later le bear.env, takes.later le bear.code,
    takes.later le bear.dump⟩

theorem keeps_fault (f : Fault) : C.Keeps w p (throw (.fault f) : HeapM α) :=
  keeps_throw (takes.fault w f)

theorem keeps_cons (car : P w u) (cdr : P w v) : C.Keeps w P (Heap.cons u v) :=
  (takes.alloc car cdr).bind fun _ _ _ known => keeps_pure known

theorem keeps_listWithTail {vs : List Value} (known : ∀ v ∈ vs, P w v) (tail : P w v) :
    C.Keeps w P (Heap.listWithTail vs v) :=
  keeps_foldrM (p := P) (r := P) known (fun _ _ => takes.later) tail fun _ _ _ _ =>
    takes.keeps_cons

theorem keeps_list {vs : List Value} (known : ∀ v ∈ vs, P w v) : C.Keeps w P (Heap.list vs) :=
  takes.keeps_listWithTail known (takes.nil w)

section Looking

variable {h : Heap} (holds : C.holds w h)

include holds

theorem cellAfter? {n : Nat} {b : Addr} (known : P w (.pair a)) (found : h.cellAfter? n a = some b) :
    P w (.pair b) := by
  induction n generalizing a with
  | zero => exact Option.some.inj found ▸ known
  | succ n ih =>
    have next := (takes.halves holds known).2
    rw [Heap.cellAfter?] at found
    split at found
    next c link => exact ih (link ▸ next) found
    next => cases found

theorem frameHolder? {depth : Nat} (known : P w v) (found : h.frameHolder? v depth = some a) :
    P w (.pair a) := by
  rw [Heap.frameHolder?] at found
  split at found
  · cases found
  · cases v with
    | pair b => exact takes.cellAfter? holds known found
    | _ => cases found

theorem lookup? {env : Value} {depth index : Nat} (known : P w env)
    (found : h.lookup? env depth index = some v) : P w v := by
  rw [Heap.lookup?] at found
  split at found
  · cases found
  · obtain ⟨holder, there, here⟩ := Option.bind_eq_some_iff.mp found
    obtain ⟨b, inside, rfl⟩ := Option.map_eq_some_iff.mp here
    have frame := (takes.halves holds (takes.frameHolder? holds known there)).1
    cases first : h.car holder <;> rw [first] at frame inside <;>
      first | cases inside | exact (takes.halves holds (takes.cellAfter? holds frame inside)).1

theorem dropCells? {n : Nat} (known : P w u) (found : h.dropCells? n u = some v) : P w v := by
  induction n generalizing u with
  | zero => cases u <;> cases found <;> exact known
  | succ n ih =>
    cases u with
    | pair b => exact ih (takes.halves holds known).2 found
    | _ => cases found

theorem lookupRest? {env : Value} {depth index : Nat} (known : P w env)
    (found : h.lookupRest? env depth index = some v) : P w v := by
  rw [Heap.lookupRest?] at found
  split at found
  · cases found
  · obtain ⟨holder, there, here⟩ := Option.bind_eq_some_iff.mp found
    have frame := (takes.halves holds (takes.frameHolder? holds known there)).1
    exact takes.dropCells? holds frame here

end Looking

theorem keeps_followCar (known : P w (.pair a)) :
    C.Keeps w (fun w found => Finds (P w) found)
      (Heap.read (·.car a) >>= fun link => Heap.follow link (Heap.setCar a)) := by
  refine keeps_seen_bind fun h holds => ?_
  have first := (takes.halves holds known).1
  unfold Heap.follow
  split
  next b link => exact keeps_pure fun c eq => Option.some.inj eq ▸ link ▸ first
  · refine (takes.alloc (takes.nil w) (takes.nil w)).bind fun w₁ b le fresh => ?_
    refine (takes.setCar (takes.later le known) fresh).bind fun w₂ _ le' _ => ?_
    exact keeps_pure fun c eq => Option.some.inj eq ▸ takes.later le' fresh
  · exact keeps_pure nofun

theorem keeps_extendTo (n : Nat) (known : P w (.pair a)) :
    C.Keeps w (fun w found => Finds (P w) found) (Heap.extendTo n a) := by
  induction n generalizing w a with
  | zero => exact keeps_pure fun b eq => Option.some.inj eq ▸ known
  | succ n ih =>
    rw [Heap.extendTo, ← bind_assoc]
    refine (takes.extend known).bind fun w₁ next _ found => ?_
    cases next with
    | none => exact keeps_pure nofun
    | some b => exact ih (found b rfl)

theorem keeps_storeAt {env : Value} (depth index : Nat) (known : P w env) (value : P w v) :
    C.Keeps w (fun _ _ => True) (Heap.store env depth index v) := by
  unfold Heap.store
  split
  · exact keeps_pure trivial
  refine keeps_seen_bind fun h holds => ?_
  cases found : h.frameHolder? env depth with
  | none => exact keeps_pure trivial
  | some holder =>
    dsimp only
    rw [← bind_assoc]
    refine (takes.keeps_followCar (takes.frameHolder? holds known found)).bind
      fun w₁ first le₁ owned => ?_
    cases first with
    | none => exact keeps_pure trivial
    | some first =>
      refine (takes.keeps_extendTo (index - 1) (owned first rfl)).bind fun w₂ target le₂ owned => ?_
      cases target with
      | none => exact keeps_pure trivial
      | some target =>
        have value := takes.later le₂ (takes.later le₁ value)
        exact (takes.setCar (owned target rfl) value).bind fun _ _ _ _ => keeps_pure trivial

theorem keeps_integers (b : Builtin) (x y : Value) :
    C.Keeps w (fun _ _ => True) (b.integers x y) := by
  unfold Builtin.integers
  split
  · exact keeps_pure trivial
  · exact takes.keeps_fault _
  · exact takes.keeps_fault _

theorem keeps_word (b : Builtin) (n : Int) : C.Keeps w P (b.word n) := by
  unfold Builtin.word
  split
  · exact keeps_pure (takes.int w _)
  · exact takes.keeps_fault _

theorem keeps_arithmetic (b : Builtin) (f : Int → Int → Int) (x y : Value) :
    C.Keeps w P (b.arithmetic f x y) :=
  (takes.keeps_integers b x y).bind fun _ _ _ _ => takes.keeps_word b _

theorem keeps_quotient (x y : Value) : C.Keeps w P (Builtin.quotient x y) := by
  refine (takes.keeps_integers .div x y).bind fun w₁ p _ _ => ?_
  obtain ⟨m, n⟩ := p
  dsimp only
  split
  · exact takes.keeps_fault _
  · exact takes.keeps_word .div _

theorem ofBool (w : W) (b : Bool) : P w (.ofBool b) := by
  cases b
  · exact takes.nil w
  · exact takes.truth w

theorem keeps_comparison (b : Builtin) (f : Int64 → Int64 → Bool) (x y : Value) :
    C.Keeps w P (b.comparison f x y) :=
  (takes.keeps_integers b x y).bind fun w₁ _ _ _ => keeps_pure (takes.ofBool w₁ _)

theorem keeps_half (b : Builtin) {f : Heap → Value → Option Value} (x : Value)
    (finds : ∀ h v, C.holds w h → f h x = some v → P w v) : C.Keeps w P (b.half f x) := by
  refine keeps_seen_bind fun h holds => ?_
  cases found : f h x with
  | none => exact takes.keeps_fault _
  | some v => exact keeps_pure (finds h v holds found)

theorem keeps_builtin (b : Builtin) (first : P w u) (second : P w v) :
    C.Keeps w P (b.apply u v) := by
  cases b with
  | add | sub | mul => exact takes.keeps_arithmetic _ _ u v
  | div => exact takes.keeps_quotient u v
  | car =>
    refine takes.keeps_half .car u fun h v holds found => ?_
    obtain ⟨a, pair, rfl⟩ := Option.map_eq_some_iff.mp found
    cases u <;> cases pair
    exact (takes.halves holds first).1
  | cdr =>
    refine takes.keeps_half .cdr u fun h v holds found => ?_
    obtain ⟨a, pair, rfl⟩ := Option.map_eq_some_iff.mp found
    cases u <;> cases pair
    exact (takes.halves holds first).2
  | cons => exact takes.keeps_cons first second
  | eq => exact keeps_pure (takes.ofBool w _)
  | lt => exact takes.keeps_comparison .lt (fun m n => m < n) u v
  | gt => exact takes.keeps_comparison .gt (fun m n => n < m) u v
  | le => exact takes.keeps_comparison .le (fun m n => m ≤ n) u v
  | ge => exact takes.keeps_comparison .ge (fun m n => n ≤ m) u v

theorem keeps_split (known : P w v) (fault : Fault) :
    C.Keeps w (fun w p => P w p.1 ∧ P w p.2) (split v fault) := by
  cases v with
  | pair a => exact keeps_seen fun h holds => takes.halves holds known
  | _ => exact takes.keeps_fault _

theorem keeps_push (known : P w v) (bear : Bear (P w) r) :
    C.Keeps w (fun w => Bear (P w)) (push v r) :=
  (takes.keeps_cons known bear.stack).bind fun _ _ le stack =>
    keeps_pure { takes.bear_later le bear with stack }

theorem keeps_pop (bear : Bear (P w) r) :
    C.Keeps w (fun w p => P w p.1 ∧ Bear (P w) p.2) (pop r) :=
  (takes.keeps_split bear.stack _).bind fun _ _ le known =>
    keeps_pure ⟨known.1, { takes.bear_later le bear with stack := known.2 }⟩

theorem keeps_popDump (bear : Bear (P w) r) :
    C.Keeps w (fun w p => P w p.1 ∧ Bear (P w) p.2) (popDump r) :=
  (takes.keeps_split bear.dump _).bind fun _ _ le known =>
    keeps_pure ⟨known.1, { takes.bear_later le bear with dump := known.2 }⟩

theorem keeps_operand (bear : Bear (P w) r) :
    C.Keeps w (fun w p => P w p.1 ∧ Bear (P w) p.2) (operand r) :=
  (takes.keeps_split bear.code _).bind fun _ _ le known =>
    keeps_pure ⟨known.1, { takes.bear_later le bear with code := known.2 }⟩

theorem keeps_addressOperand (bear : Bear (P w) r) :
    C.Keeps w (fun w p => Bear (P w) p.2) (addressOperand r) := by
  refine (takes.keeps_operand bear).bind fun w₁ p _ parts => ?_
  refine keeps_seen_bind fun h _ => ?_
  split
  · exact keeps_pure parts.2
  · exact takes.keeps_fault _

theorem keeps_popClosure (bear : Bear (P w) r) :
    C.Keeps w (fun w p => P w p.1.1 ∧ P w p.1.2 ∧ Bear (P w) p.2) (popClosure r) := by
  refine (takes.keeps_pop bear).bind fun w₁ p _ parts => ?_
  refine (takes.keeps_split parts.1 _).bind fun w₂ q le halves => ?_
  dsimp only
  split
  · exact keeps_pure ⟨halves.1, halves.2, takes.bear_later le parts.2⟩
  · exact takes.keeps_fault _

theorem keeps_load {find : Heap → Value → Nat → Nat → Option Value} (bear : Bear (P w) r)
    (finds : ∀ w h env depth index v, C.holds w h → P w env →
      find h env depth index = some v → P w v) :
    C.Keeps w (fun w => Bear (P w)) (load find r) := by
  refine (takes.keeps_addressOperand bear).bind fun w₁ p _ bear => ?_
  obtain ⟨⟨depth, index⟩, r⟩ := p
  refine keeps_seen_bind fun h holds => ?_
  dsimp only at bear ⊢
  cases found : find h r.env depth index with
  | none => exact takes.keeps_fault _
  | some v => exact takes.keeps_push (finds _ _ _ _ _ _ holds bear.env found) bear

theorem keeps_store (bear : Bear (P w) r) : C.Keeps w (fun w => Bear (P w)) (store r) := by
  refine (takes.keeps_addressOperand bear).bind fun w₁ p _ bear => ?_
  obtain ⟨⟨depth, index⟩, r⟩ := p
  refine (takes.keeps_split bear.stack _).bind fun w₂ q le halves => ?_
  have env := takes.later le bear.env
  refine (takes.keeps_storeAt depth index env halves.1).bind fun w₃ stored le' _ => ?_
  split
  · exact keeps_pure (takes.bear_later le' (takes.bear_later le bear))
  · exact takes.keeps_fault _

theorem keeps_enter {caller : Value} (body : P w u) (env : P w v) (known : P w caller)
    (bear : Bear (P w) r) : C.Keeps w (fun w => Bear (P w)) (enter u v caller r) := by
  have entries : ∀ v ∈ [r.stack, caller, r.code], P w v := by
    simp only [List.forall_mem_cons]
    exact ⟨bear.stack, known, bear.code, nofun⟩
  exact (takes.keeps_listWithTail entries bear.dump).bind fun w₁ dump le knownDump =>
    keeps_pure ⟨takes.nil w₁, takes.later le env, takes.later le body, knownDump⟩

theorem keeps_apply (bear : Bear (P w) r) : C.Keeps w (fun w => Bear (P w)) (apply r) := by
  refine (takes.keeps_popClosure bear).bind fun w₁ p _ closure => ?_
  obtain ⟨⟨body, env⟩, r₁⟩ := p
  obtain ⟨knownBody, knownEnv, bear⟩ := closure
  refine (takes.keeps_pop bear).bind fun w₂ q le₂ parts => ?_
  obtain ⟨arguments, r₂⟩ := q
  obtain ⟨known, bear₂⟩ := parts
  have knownEnv := takes.later le₂ knownEnv
  dsimp only
  refine (takes.keeps_enter (takes.later le₂ knownBody) knownEnv bear₂.env bear₂).bind
    fun w₃ r₃ le₃ bear => ?_
  refine (takes.keeps_cons (takes.later le₃ known) (takes.later le₃ knownEnv)).bind
    fun w₄ frame le₄ knownFrame => ?_
  exact keeps_pure { takes.bear_later le₄ bear with env := knownFrame }

theorem keeps_applyRecursive (bear : Bear (P w) r) :
    C.Keeps w (fun w => Bear (P w)) (applyRecursive r) := by
  refine (takes.keeps_popClosure bear).bind fun w₁ p _ closure => ?_
  obtain ⟨⟨body, env⟩, r₁⟩ := p
  obtain ⟨knownBody, knownEnv, bear⟩ := closure
  refine (takes.keeps_pop bear).bind fun w₂ q le₂ parts => ?_
  have knownBody := takes.later le₂ knownBody
  have knownEnv := takes.later le₂ knownEnv
  cases env with
  | pair placeholder =>
    refine (takes.setCar knownEnv parts.1).bind fun w₃ _ le₃ _ => ?_
    have knownEnv := takes.later le₃ knownEnv
    refine keeps_seen_bind fun h holds => ?_
    exact takes.keeps_enter (takes.later le₃ knownBody) knownEnv (takes.halves holds knownEnv).2
      (takes.bear_later le₃ parts.2)
  | _ => exact takes.keeps_fault _

theorem keeps_leave (bear : Bear (P w) r) : C.Keeps w (fun w => Bear (P w)) (leave r) := by
  refine (takes.keeps_pop bear).bind fun w₁ p _ result => ?_
  refine (takes.keeps_popDump result.2).bind fun w₂ q le₂ stack => ?_
  refine (takes.keeps_popDump stack.2).bind fun w₃ q le₃ env => ?_
  refine (takes.keeps_popDump env.2).bind fun w₄ q le₄ code => ?_
  refine takes.keeps_push (takes.later le₄ (takes.later le₃ (takes.later le₂ result.1))) ?_
  exact ⟨takes.later le₄ (takes.later le₃ stack.1), takes.later le₄ env.1, code.1, code.2.dump⟩

theorem keeps_select (bear : Bear (P w) r) : C.Keeps w (fun w => Bear (P w)) (select r) := by
  refine (takes.keeps_pop bear).bind fun w₁ p _ test => ?_
  refine (takes.keeps_operand test.2).bind fun w₂ q _ consequent => ?_
  refine (takes.keeps_operand consequent.2).bind fun w₃ q le₃ alternative => ?_
  obtain ⟨alternative, bear⟩ := alternative
  refine (takes.keeps_cons bear.code bear.dump).bind fun w₄ dump le₄ known => keeps_pure ?_
  refine { takes.bear_later le₄ bear with dump := known, code := ?_ }
  split
  · exact takes.later le₄ (takes.later le₃ consequent.1)
  · exact takes.later le₄ alternative

theorem keeps_execute (bear : Bear (P w) r) (o : Opcode) :
    C.Keeps w (fun w => Bear (P w)) (execute r o) := by
  cases o with
  | nil => exact takes.keeps_push (takes.nil w) bear
  | ldc => exact (takes.keeps_operand bear).bind fun _ _ _ parts => takes.keeps_push parts.1 parts.2
  | ld => exact takes.keeps_load bear fun _ _ _ _ _ _ holds env found => takes.lookup? holds env found
  | ldr => exact takes.keeps_load bear fun _ _ _ _ _ _ holds env found =>
      takes.lookupRest? holds env found
  | st => exact takes.keeps_store bear
  | cons =>
    refine (takes.keeps_pop bear).bind fun w₁ p _ car => ?_
    refine (takes.keeps_pop car.2).bind fun w₂ q le cdr => ?_
    refine (takes.keeps_cons (takes.later le car.1) cdr.1).bind fun w₃ cell le' known => ?_
    exact takes.keeps_push known (takes.bear_later le' cdr.2)
  | sel => exact takes.keeps_select bear
  | join =>
    exact (takes.keeps_popDump bear).bind fun _ _ _ parts =>
      keeps_pure { parts.2 with code := parts.1 }
  | ldf =>
    refine (takes.keeps_operand bear).bind fun w₁ p _ parts => ?_
    refine (takes.keeps_cons parts.1 parts.2.env).bind fun w₂ closure le known => ?_
    exact takes.keeps_push known (takes.bear_later le parts.2)
  | ap => exact takes.keeps_apply bear
  | rtn => exact takes.keeps_leave bear
  | dum =>
    exact (takes.keeps_cons (takes.nil w) bear.env).bind fun w₁ env le known =>
      keeps_pure { takes.bear_later le bear with env := known }
  | rap => exact takes.keeps_applyRecursive bear
  | halt => exact keeps_pure bear

theorem keeps_applyBuiltin (symbols : SymbolTable) (name : Symbol) (bear : Bear (P w) r) :
    C.Keeps w (fun w => Bear (P w)) (applyBuiltin symbols name r) := by
  unfold applyBuiltin
  split
  · exact takes.keeps_fault _
  next b _ =>
    refine (takes.keeps_pop bear).bind fun w₁ p _ first => ?_
    obtain ⟨x, r₁⟩ := p
    have finish (q : Value × Registers) (w₂ : W) (le : C.le w₁ w₂)
        (second : P w₂ q.1 ∧ Bear (P w₂) q.2) :
        C.Keeps w₂ (fun w => Bear (P w)) (do push (← b.apply x q.1) q.2) :=
      (takes.keeps_builtin b (takes.later le first.1) second.1).bind fun w₃ v le' known =>
        takes.keeps_push known (takes.bear_later le' second.2)
    dsimp only
    split
    · exact (takes.keeps_pop first.2).bind fun w₂ q le second => finish q w₂ le second
    · exact finish (.nil, r₁) w₁ (C.refl w₁) ⟨takes.nil w₁, first.2⟩

theorem keeps_dispatch (symbols : SymbolTable) (bear : Bear (P w) r) (v : Value) :
    C.Keeps w (fun w => Outcome.Bear (P w)) (dispatch symbols r v) := by
  have run (o : Opcode) : C.Keeps w (fun w => Outcome.Bear (P w))
      (do return .running (← execute r o)) :=
    (takes.keeps_execute bear o).bind fun _ _ _ bear => keeps_pure bear
  cases v with
  | op o =>
    cases o with
    | halt => exact keeps_pure bear
    | _ => exact run _
  | ident name =>
    exact (takes.keeps_applyBuiltin symbols name bear).bind fun _ _ _ bear => keeps_pure bear
  | _ => exact takes.keeps_fault _

theorem keeps_step (symbols : SymbolTable) (bear : Bear (P w) r) :
    C.Keeps w (fun w => Outcome.Bear (P w)) (step symbols r) := by
  have work : C.Keeps w (fun w => Outcome.Bear (P w))
      (operand r >>= fun p => dispatch symbols p.2 p.1) :=
    (takes.keeps_operand bear).bind fun _ p _ parts => takes.keeps_dispatch symbols parts.2 p.1
  intro h holds
  refine ends_step.mpr ((work h holds).mono (fun _ _ => id) ?_)
  rintro e h' ⟨w', le, holds', known⟩
  exact ⟨w', le, holds', takes.carried known (takes.bear_later le bear)⟩

theorem keeps_runFrom (symbols : SymbolTable) (steps : Nat) (bear : Bear (P w) r) :
    C.Keeps w P (runFrom symbols steps r) := by
  induction steps generalizing w r with
  | zero => exact keeps_throw (takes.outOfSteps w)
  | succ steps ih =>
    refine (takes.keeps_step symbols bear).bind fun w₁ outcome _ leaves => ?_
    cases outcome with
    | running r₁ => exact ih leaves
    | halted r₁ =>
      refine keeps_seen fun h holds => ?_
      cases found : h.carOf? r₁.stack with
      | none => exact takes.nil w₁
      | some v =>
        obtain ⟨a, pair, rfl⟩ := Option.map_eq_some_iff.mp found
        have stack := leaves.stack
        cases eq : r₁.stack <;> rw [eq] at pair stack <;> cases pair
        exact (takes.halves holds stack).1

theorem keeps_run (symbols : SymbolTable) (steps : Nat) (env : P w u) (code : P w v) :
    C.Keeps w P (run symbols steps u v) :=
  takes.keeps_runFrom symbols steps ⟨takes.nil w, env, code, takes.nil w⟩

end Takes

end Machine

end SecdLisp
