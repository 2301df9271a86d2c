import SecdLisp.Machine.Run
import SecdLisp.Proofs.Capacity.Work

/-!
# The machine pays no heed to the room

No instruction asks for the room that is left. So a run on a heap with more room takes the same
steps, up to the one that the smaller heap has no room for.
-/

namespace SecdLisp

open Bench Heap

variable {exact : Prop}

theorem heedless_fault {α : Type} (f : Fault) :
    Heap.bench.Heedless exact (throw (.fault f) : HeapM α) := heedless_throw nofun

namespace Builtin

theorem heedless_integers (b : Builtin) (x y : Value) :
    Heap.bench.Heedless exact (b.integers x y) := by
  unfold integers
  split
  · exact heedless_pure _
  · exact heedless_fault _
  · exact heedless_fault _

theorem heedless_word (b : Builtin) (n : Int) : Heap.bench.Heedless exact (b.word n) := by
  unfold word
  split
  · exact heedless_pure _
  · exact heedless_fault _

theorem heedless_quotient (x y : Value) : Heap.bench.Heedless exact (quotient x y) := by
  refine (heedless_integers div x y).bind fun p => ?_
  dsimp only
  split
  · exact heedless_fault _
  · exact heedless_word div _

theorem heedless_half (b : Builtin) {f : Heap → Value → Option Value} {v : Value}
    (shows' : Shows (f · v)) : Heap.bench.Heedless exact (half b f v) := by
  refine (heedless_read shows').bind fun found => ?_
  cases found with
  | some w => exact heedless_pure w
  | none => exact heedless_fault _

theorem heedless_apply (b : Builtin) (x y : Value) : Heap.bench.Heedless exact (b.apply x y) := by
  have arithmetic (b : Builtin) (f : Int → Int → Int) :
      Heap.bench.Heedless exact (b.arithmetic f x y) :=
    (heedless_integers b x y).bind fun p => heedless_word b _
  have comparison (b : Builtin) (f : Int64 → Int64 → Bool) :
      Heap.bench.Heedless exact (b.comparison f x y) :=
    (heedless_integers b x y).bind fun p => heedless_pure _
  cases b with
  | add => exact arithmetic add _
  | sub => exact arithmetic sub _
  | mul => exact arithmetic mul _
  | div => exact heedless_quotient x y
  | car => exact heedless_half car (shows_carOf? x)
  | cdr => exact heedless_half cdr (shows_cdrOf? x)
  | cons => exact heedless_cons x y
  | eq => exact heedless_pure _
  | lt => exact comparison lt fun m n => m < n
  | gt => exact comparison gt fun m n => n < m
  | le => exact comparison le fun m n => m ≤ n
  | ge => exact comparison ge fun m n => n ≤ m

end Builtin

namespace Machine

variable {α : Type}

theorem heedless_split (v : Value) (f : Fault) : Heap.bench.Heedless exact (split v f) := by
  cases v with
  | pair a =>
    refine heedless_read fun h h' cells => ?_
    dsimp only
    rw [cell_eq cells]
  | _ => exact heedless_fault f

theorem heedless_push (v : Value) (r : Registers) : Heap.bench.Heedless exact (push v r) :=
  (heedless_cons v r.stack).bind fun _ => heedless_pure _

theorem heedless_pop (r : Registers) : Heap.bench.Heedless exact (pop r) :=
  (heedless_split r.stack _).bind fun _ => heedless_pure _

theorem heedless_popDump (r : Registers) : Heap.bench.Heedless exact (popDump r) :=
  (heedless_split r.dump _).bind fun _ => heedless_pure _

theorem heedless_operand (r : Registers) : Heap.bench.Heedless exact (operand r) :=
  (heedless_split r.code _).bind fun _ => heedless_pure _

theorem shows_address? (v : Value) : Shows (address? · v) := by
  intro h h' cells
  have cars := shows_carOf? v h h' cells
  have cdrs := shows_cdrOf? v h h' cells
  dsimp only at cars cdrs ⊢
  rw [address?, address?, cars, cdrs]

theorem heedless_addressOperand (r : Registers) :
    Heap.bench.Heedless exact (addressOperand r) := by
  refine (heedless_operand r).bind fun p => ?_
  refine (heedless_read (shows_address? p.1)).bind fun address => ?_
  cases address with
  | some address => exact heedless_pure _
  | none => exact heedless_fault _

theorem heedless_popClosure (r : Registers) : Heap.bench.Heedless exact (popClosure r) := by
  refine (heedless_pop r).bind fun p => ?_
  refine (heedless_split p.1 _).bind fun halves => ?_
  dsimp only
  split
  · exact heedless_pure _
  · exact heedless_fault _

theorem heedless_load {find : Heap → Value → Nat → Nat → Option Value}
    (shows' : ∀ env depth index, Shows (find · env depth index)) (r : Registers) :
    Heap.bench.Heedless exact (load find r) := by
  refine (heedless_addressOperand r).bind fun p => ?_
  refine (heedless_read (shows' p.2.env p.1.1 p.1.2)).bind fun found => ?_
  cases found with
  | some v => exact heedless_push v p.2
  | none => exact heedless_fault _

theorem heedless_store (r : Registers) : Heap.bench.Heedless exact (store r) := by
  refine (heedless_addressOperand r).bind fun p => ?_
  refine (heedless_split p.2.stack _).bind fun top => ?_
  refine (Heap.heedless_store p.2.env p.1.1 p.1.2 top.1).bind fun stored => ?_
  cases stored with
  | true => exact heedless_pure _
  | false => exact heedless_fault _

theorem heedless_enter (body env callerEnv : Value) (r : Registers) :
    Heap.bench.Heedless exact (enter body env callerEnv r) :=
  (heedless_listWithTail _ r.dump).bind fun _ => heedless_pure _

theorem heedless_apply (r : Registers) : Heap.bench.Heedless exact (apply r) := by
  refine (heedless_popClosure r).bind fun p => ?_
  refine (heedless_pop p.2).bind fun q => ?_
  refine (heedless_enter p.1.1 p.1.2 q.2.env q.2).bind fun r' => ?_
  exact (heedless_cons q.1 p.1.2).bind fun _ => heedless_pure _

theorem heedless_applyRecursive (r : Registers) :
    Heap.bench.Heedless exact (applyRecursive r) := by
  refine (heedless_popClosure r).bind fun p => ?_
  obtain ⟨⟨body, env⟩, r⟩ := p
  refine (heedless_pop r).bind fun q => ?_
  dsimp only
  cases env with
  | pair placeholder =>
    refine (heedless_setCar placeholder q.1).bind fun _ => ?_
    refine (heedless_read fun _ _ cells => congrFun (cdr_eq cells) placeholder).bind fun link => ?_
    exact heedless_enter body _ link q.2
  | _ => exact heedless_fault _

theorem heedless_leave (r : Registers) : Heap.bench.Heedless exact (leave r) := by
  refine (heedless_pop r).bind fun p => ?_
  refine (heedless_popDump p.2).bind fun q => ?_
  refine (heedless_popDump q.2).bind fun q => ?_
  refine (heedless_popDump q.2).bind fun q => ?_
  exact heedless_push _ _

theorem heedless_select (r : Registers) : Heap.bench.Heedless exact (select r) := by
  refine (heedless_pop r).bind fun p => ?_
  refine (heedless_operand p.2).bind fun q => ?_
  refine (heedless_operand q.2).bind fun q => ?_
  exact (heedless_cons q.2.code q.2.dump).bind fun _ => heedless_pure _

theorem heedless_execute (r : Registers) (o : Opcode) :
    Heap.bench.Heedless exact (execute r o) := by
  cases o with
  | nil => exact heedless_push .nil r
  | ldc => exact (heedless_operand r).bind fun p => heedless_push p.1 p.2
  | ld => exact heedless_load shows_lookup? r
  | ldr => exact heedless_load shows_lookupRest? r
  | st => exact heedless_store r
  | cons =>
    exact (heedless_pop r).bind fun p => (heedless_pop p.2).bind fun q =>
      (heedless_cons p.1 q.1).bind fun v => heedless_push v q.2
  | sel => exact heedless_select r
  | join => exact (heedless_popDump r).bind fun _ => heedless_pure _
  | ldf =>
    exact (heedless_operand r).bind fun p => (heedless_cons p.1 p.2.env).bind fun v =>
      heedless_push v p.2
  | ap => exact heedless_apply r
  | rtn => exact heedless_leave r
  | dum => exact (heedless_cons .nil r.env).bind fun _ => heedless_pure _
  | rap => exact heedless_applyRecursive r
  | halt => exact heedless_pure r

theorem heedless_applyBuiltin (symbols : SymbolTable) (name : Symbol) (r : Registers) :
    Heap.bench.Heedless exact (applyBuiltin symbols name r) := by
  unfold applyBuiltin
  cases Builtin.ofSymbol? name with
  | none => exact heedless_fault _
  | some b =>
    refine (heedless_pop r).bind fun p => ?_
    have finish (y : Value) (r : Registers) :
        Heap.bench.Heedless exact (do push (← b.apply p.1 y) r) :=
      (b.heedless_apply p.1 y).bind fun v => heedless_push v r
    dsimp only
    split
    · exact (heedless_pop p.2).bind fun q => finish q.1 q.2
    · exact finish .nil p.2

theorem heedless_dispatch (symbols : SymbolTable) (r : Registers) (v : Value) :
    Heap.bench.Heedless exact (dispatch symbols r v) := by
  cases v with
  | op o =>
    cases o with
    | halt => exact heedless_pure _
    | _ => exact (heedless_execute r _).bind fun _ => heedless_pure _
  | ident name => exact (heedless_applyBuiltin symbols name r).bind fun _ => heedless_pure _
  | _ => exact heedless_fault _

theorem heedless_instruction (symbols : SymbolTable) (r : Registers) :
    Heap.bench.Heedless exact
      (operand r >>= fun (instruction, r') => dispatch symbols r' instruction) :=
  (heedless_operand r).bind fun p => heedless_dispatch symbols p.2 p.1

theorem heedless_step (symbols : SymbolTable) (r : Registers) :
    Heap.bench.Heedless exact (step symbols r) := by
  intro h h' alike
  have matched := heedless_instruction symbols r h h' alike
  unfold step
  revert matched
  generalize operand r >>= _ = work
  intro matched
  generalize work h = x at matched ⊢
  generalize work h' = y at matched ⊢
  cases matched with
  | ok alike lasts => exact .ok alike lasts
  | error alike lasts full =>
    refine .error alike lasts fun eq => full ?_
    revert eq
    cases ‹Error› <;> simp [Error.withRegisters]
  | full uneven lasts full => exact .full uneven lasts full

theorem heedless_runFrom (symbols : SymbolTable) (steps : Nat) (r : Registers) :
    Heap.bench.Heedless exact (runFrom symbols steps r) := by
  induction steps generalizing r with
  | zero => exact heedless_throw nofun
  | succ steps ih =>
    refine (heedless_step symbols r).bind fun outcome => ?_
    cases outcome with
    | running r => exact ih r
    | halted r =>
      refine heedless_read fun h h' cells => ?_
      have tops : h.carOf? r.stack = h'.carOf? r.stack := shows_carOf? r.stack h h' cells
      rw [tops]

theorem heedless_run (symbols : SymbolTable) (steps : Nat) (env code : Value) :
    Heap.bench.Heedless exact (run symbols steps env code) :=
  heedless_runFrom symbols steps (start env code)

end Machine

end SecdLisp
